import Transclude.Tree.Node
import Transclude.Value.Entries

/-!
# Building nodes

Nodes made from plain values, as a caller gives them. What does not fit the kind of node is refused
or makes an irregular node.
-/

namespace Transclude

/-! ## Objects from a value -/

/-- The key and the value that an entry of a list gives. A list or an object cannot be a key. -/
def Value.entry : Value → Except Fault (Value × Value)
  | .arr [key, value] => if key.isAtomic then .ok (key, value) else .error .wrongType
  | .arr _ => .error .notField
  | .str s =>
    match s.toList with
    | [key, value] => .ok (.str (String.singleton key), .str (String.singleton value))
    | _ => .error .notField
  | .obj [(key, _), (value, _)] => .ok (.str key, .str value)
  | .obj _ => .error .notField
  | .map [(key, _), (value, _)] => .ok (key, value)
  | .map _ => .error .notField
  | _ => .error .wrongType

/-- The entries that a list gives, the last value of each key. -/
def Entries.ofValues (values : List Value) : Except Fault Entries :=
  values.foldlM (fun entries value => do
    let (key, value) ← value.entry
    return entries.set key value) []

/-- The object that a value stands for: itself, or the one with the entries that a list gives. -/
def Value.toObject : Value → Except Fault Value
  | .obj fields => .ok (.obj fields)
  | .map entries => .ok (.map entries)
  | .arr items => do return (← Entries.ofValues items).object
  | .str s => do
    return (← Entries.ofValues (s.toList.map fun c => .str (String.singleton c))).object
  | _ => .error .wrongType

/-- The object that a caller gives, if any. What counts as false gives one without fields. -/
def Value.givenObject (value : Value) : Except Fault Value :=
  if value.holds then value.toObject else .ok (.obj [])

/-! ## Nodes -/

namespace Node

/-- A text node. Its value must be a text. -/
def buildText : Value → Except Fault Node
  | .str value => .ok (text value)
  | _ => .error .refused

/-- A comment. -/
def buildComment (value : Value) : Node :=
  .node (Traits.head { kinds := .single .comment, value := value }) {} []

/-- A document type declaration. -/
def buildDoctype : Node := .node .doctype {} []

/-- An element. -/
def buildElement (tag properties : Value) (children : List Node) : Except Fault Node := do
  let properties ← properties.givenObject
  let head := Traits.head { kinds := .single .element, tag := tag, properties := properties }
  return .node head {} children

/-- A node with any traits. -/
def buildAny (traits : Traits) (data extra : Value) (children : List Node) : Node :=
  match extra with
  | .obj extra => .node traits.head { data := data, extra := extra } children
  | extra => .node (Traits.head { traits with extra := some extra }) { data := data } children

/-- A node of another type, which must be named by a text. It has a list of children if one is
given. -/
def buildOther (type extra : Value) (children : Option (List Node)) : Except Fault Node :=
  match type with
  | .str type => do
    let extra ← extra.givenObject
    let traits : Traits := { kinds := .single .other, typed := some (type, children.isSome) }
    return buildAny traits .null extra (children.getD [])
  | _ => .error .refused

end Node

end Transclude
