import Transclude.Render.Attributes
import Transclude.Tree.Node
import Transclude.Value.Entries

/-!
# Rendering

A tree is written as markup, with its texts as they are, or as HTML, with its texts escaped. A
handler may have a say on each node before it is written.
-/

namespace Transclude

/-- A way to write a tree. -/
inductive Form where
  /-- Texts as they are. -/
  | markup
  /-- Texts escaped. -/
  | html
deriving DecidableEq, Repr, Inhabited

/-- A text in a form. -/
def Form.text : Form → String → String
  | .markup, s => s
  | .html, s => Text.escape s

mutual

/-- A plain value in a form. Texts can be written, and lists of what can be written. -/
def Form.value (form : Form) : Value → Except Fault String
  | .str s => .ok (form.text s)
  | .arr items => form.values items
  | value => .error (.notRenderable value)

/-- The plain values of a list in a form. -/
def Form.values (form : Form) : List Value → Except Fault String
  | [] => .ok ""
  | item :: rest => do
    let text ← form.value item
    let others ← form.values rest
    return text ++ others

end

/-- What a handler says about a node. -/
inductive Reaction where
  /-- Write the node. -/
  | keep
  /-- Write its children in its place. -/
  | children
  /-- Write its children between two texts in its place. -/
  | wrap (before after : String)
  /-- Write something else in its place. -/
  | replace (nodes : List Node)
  /-- Fail. -/
  | fail (fault : Fault)
deriving Repr, Inhabited

/-- The tags of the elements that have no end tag. -/
def voidTags : List String :=
  ["area", "base", "br", "col", "embed", "hr", "img", "input", "link", "meta", "source", "track",
    "wbr"]

namespace Render

/-- Whether a tag is one of those without an end tag. -/
def isVoid : Value → Except Fault Bool
  | .str tag => .ok (voidTags.contains tag)
  | tag => if tag.isAtomic then .ok false else .error .wrongType

/-- The start tag of an element. -/
def startTag (head : Head) : Except Fault String :=
  if head.properties.holds then do
    let shown ← attributesOf head.properties
    return "<" ++ head.tag.plain ++ (if shown = "" then "" else " " ++ shown) ++ ">"
  else .ok ("<" ++ head.tag.plain ++ ">")

/-- The end tag of an element. -/
def endTag (head : Head) : String := "</" ++ head.tag.plain ++ ">"

/-- A value as markup. Only a text is. -/
def rawText : Option Value → String
  | some (.str raw) => raw
  | _ => ""

/-- The markup that a node of another type brings with it in its extra field `value`. -/
def rawMarkup (head : Head) (extra : Fields) : Except Fault String :=
  match head.traits.extra with
  | none => .ok (rawText (extra.get? "value"))
  | some given =>
    match given.entries? with
    | some entries => .ok (rawText (entries.get? (.str "value")))
    | none => .error .plainValue

mutual

/-- Writes a node. What a handler gives in its place is written by `replace`. A node that has no
list of children can be written if it needs none; a handler that gives its children says
nothing. -/
def node (form : Form) (handler : Node → Reaction)
    (replace : List Node → Except Fault String) : Node → Except Fault String
  | .stray value => form.value value
  | .node head info children =>
    match handler (.node head info children), head.isBare with
    | .fail fault, _ => .error fault
    | .replace others, _ => replace others
    | .wrap _ _, true => .error .wrongType
    | .wrap before after, false => do
      let inner ← nodes form handler replace children
      return form.text before ++ inner ++ form.text after
    | .children, false => nodes form handler replace children
    | _, bare =>
      match head.kinds.single? with
      | some .root =>
        if bare then .error (.notRenderable .null) else nodes form handler replace children
      | some .element => do
        let opening ← startTag head
        let void ← isVoid head.tag
        if void && children.isEmpty then return opening
        else if bare then .error (.notRenderable .null)
        else
          let inner ← nodes form handler replace children
          return opening ++ inner ++ endTag head
      | some .text => form.value head.value
      | some .comment => .ok ("<!--" ++ head.value.plain ++ "-->")
      | some .doctype => .ok "<!doctype html>"
      | some .other => do
        let raw ← rawMarkup head info.extra
        if bare then .error (.notRenderable .null)
        else
          let inner ← nodes form handler replace children
          return raw ++ inner
      | none => .error (.notOneKind head.kinds)

/-- Writes the nodes of a list one after the other. -/
def nodes (form : Form) (handler : Node → Reaction)
    (replace : List Node → Except Fault String) : List Node → Except Fault String
  | [] => .ok ""
  | n :: rest => do
    let text ← node form handler replace n
    let others ← nodes form handler replace rest
    return text ++ others

end

/-- Writes nodes, where what a handler gives in place of a node may in turn be replaced, up to
`limit` times one inside the other. -/
def upTo (form : Form) (handler : Node → Reaction) : Nat → List Node → Except Fault String
  | 0 => nodes form handler fun _ => .error .endless
  | limit + 1 => nodes form handler (upTo form handler limit)

/-- The number of times that one replacement may be made inside another. -/
def replacementLimit : Nat := 1000

end Render

/-- What is given as a handler. -/
inductive Handler where
  /-- Nothing. -/
  | none
  /-- A function. -/
  | function (react : Node → Reaction)
  /-- Something that cannot be called. -/
  | value (given : Value)

/-- Writes nodes in a form, under a handler if one is given. -/
def render (form : Form) (handler : Handler) (nodes : List Node) : Except Fault String :=
  match handler with
  | .none => Render.upTo form (fun _ => .keep) 0 nodes
  | .function react => Render.upTo form react Render.replacementLimit nodes
  | .value _ => .error .refused

/-- Writes nodes as markup, without a handler. -/
def toMarkup (nodes : List Node) : Except Fault String := render .markup .none nodes

/-- Writes nodes as HTML, without a handler. -/
def toHtml (nodes : List Node) : Except Fault String := render .html .none nodes

end Transclude
