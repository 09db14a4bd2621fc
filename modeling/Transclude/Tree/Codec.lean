import Transclude.Tree.Build

/-!
# The encoded form of a tree

A tree can be written as a plain value and read back. Each node is an object that states its type,
and each kind has fields of its own; all fields that mean nothing for the kind are kept as extra
fields.
-/

namespace Transclude

/-! ## Reading -/

/-- The fields of the encoded form that mean something for nodes of a kind. -/
def Kind.knownFields : Kind → List String
  | .root => ["type", "children", "data"]
  | .element => ["type", "tagName", "properties", "children", "data"]
  | .text => ["type", "value", "data"]
  | .comment => ["type", "value", "data"]
  | .doctype => ["type", "data"]
  | .other => ["type", "children", "data"]

/-- Whether nodes of a kind may have children. -/
def Kind.isContainer (k : Kind) : Bool := (Kinds.single k).within .containers

namespace Node

/-- What a node of a given type is, by the fields of its encoded form. -/
def headOf (type : String) (fields : Fields) : Except Fault Head :=
  match Kind.ofTypeName type with
  | .root => .ok .root
  | .element => do
    let properties ← ((fields.get? "properties").getD .null).givenObject
    let tag := (fields.get? "tagName").getD (.str "")
    return Traits.head { kinds := .single .element, tag := tag, properties := properties }
  | .text =>
    match (fields.get? "value").getD (.str "") with
    | .str value => .ok (.text value)
    | _ => .error .refused
  | .comment =>
    let value := (fields.get? "value").getD (.str "")
    .ok (Traits.head { kinds := .single .comment, value := value })
  | .doctype => .ok .doctype
  | .other => .ok (.other type (fields.has "children"))

mutual

/-- Reads a tree from its encoded form. -/
def decode : Value → Except Fault Node
  | .obj fields =>
    match Fields.get? "type" fields with
    | some (.str type) => do
      let head ← headOf type fields
      let kind := Kind.ofTypeName type
      let children ← if kind.isContainer then childrenIn fields else .ok []
      let info : Info :=
        ⟨(Fields.get? "data" fields).getD .null, Fields.without kind.knownFields fields⟩
      return .node head info children
    | _ => .error (.noType fields)
  | _ => .error .refused

/-- Reads the children that the fields of a node list, if they do. -/
def childrenIn : List (String × Value) → Except Fault (List Node)
  | [] => .ok []
  | (name, value) :: rest => if name = "children" then ofChildren value else childrenIn rest

/-- Reads a list of children. A text and an object pass for lists of texts, none of which is a
node. -/
def ofChildren : Value → Except Fault (List Node)
  | .arr items => decodeAll items
  | .str s => if s = "" then .ok [] else .error .refused
  | .obj fields => if fields.isEmpty then .ok [] else .error .refused
  | _ => .error .wrongType

/-- Reads a list of trees from their encoded forms. -/
def decodeAll : List Value → Except Fault (List Node)
  | [] => .ok []
  | item :: rest => do
    let n ← decode item
    let ns ← decodeAll rest
    return n :: ns

end

/-! ## Writing -/

/-- The encoded form of a node as far as its head determines it, written over the extra fields. -/
def headForm (head : Head) (extra : Fields) : Except Fault Value := do
  let form ← (head.traits.extra.getD (.obj extra)).toObject
  let type ← match head.typeName? with
    | some type => .ok type
    | none => .error .nameless
  let form := form.setField "type" (.str type)
  let form ← if head.isKind .element then do
      let properties ← head.properties.toObject
      .ok ((form.setField "tagName" head.tag).setField "properties" properties)
    else .ok form
  return if head.kinds.within .valued then form.setField "value" head.value else form

/-- Adds the data of a node to its encoded form, if there are any. -/
def setData (data form : Value) : Value :=
  match data with
  | .null => form
  | data => form.setField "data" data

mutual

/-- Writes a tree in its encoded form. A node whose form lists children must have a list of them. -/
def encode : Node → Except Fault Value
  | .node head info children => do
    let form ← headForm head info.extra
    if !head.listed then return setData info.data form
    else if head.isBare then .error .wrongType
    else
      let items ← encodeAll children
      return setData info.data (form.setField "children" (.arr items))
  | .stray _ => .error .plainValue

/-- Writes a list of trees in their encoded forms. -/
def encodeAll : List Node → Except Fault (List Value)
  | [] => .ok []
  | n :: rest => do
    let item ← encode n
    let items ← encodeAll rest
    return item :: items

end

end Node

end Transclude
