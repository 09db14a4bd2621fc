import Transclude.Tree.Node

/-!
# Plain text

The text of a tree: the values of its text nodes, one after the other.
-/

namespace Transclude

mutual

/-- The text of a plain value in place of a node. Only lists of lists have one, and it is empty. -/
def Value.text : Value → Except Fault String
  | .arr items => Value.texts items
  | _ => .error .plainValue

/-- The text of a list of plain values. -/
def Value.texts : List Value → Except Fault String
  | [] => .ok ""
  | item :: rest => do
    let text ← Value.text item
    let others ← Value.texts rest
    return text ++ others

end

namespace Node

mutual

/-- The text of a tree. A text node whose value is not a text has none, and a tree around it cannot
have one. -/
def textOf : Node → Except Fault (Option String)
  | .stray value => do return some (← value.text)
  | .node head _ children =>
    if head.isKind .text then
      match head.value with
      | .str s => .ok (some s)
      | _ => .ok none
    else if head.isBare then .error .wrongType
    else do
      match ← textsOf children with
      | some text => return some text
      | none => .error .wrongType

/-- The text of a list of trees, if each of them has one. All are looked at before that is known. -/
def textsOf : List Node → Except Fault (Option String)
  | [] => .ok (some "")
  | n :: rest => do
    let text ← textOf n
    let others ← textsOf rest
    match text, others with
    | some s, some t => return some (s ++ t)
    | _, _ => return none

end

/-- The text of a tree as a value. For a single text node that is its value, whether or not it is a
text. -/
def textValue (n : Node) : Except Fault Value := do
  match n, ← textOf n with
  | _, some text => return .str text
  | .node head _ _, none => return head.value
  | .stray value, none => return value

end Node

/-- The text of a list of trees. -/
def toText (nodes : List Node) : Except Fault String := do
  match ← Node.textsOf nodes with
  | some text => return text
  | none => .error .wrongType

end Transclude
