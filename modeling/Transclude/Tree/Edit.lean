import Transclude.Tree.Node

/-!
# Editing trees

Changes by hand to a node at a place in a tree. The place is given by the indexes of the children on
the way to the node; an index below zero counts from the end.
-/

namespace Transclude

/-- A change to a node. -/
inductive Change where
  /-- Gives it a tag. -/
  | tag (tag : Value)
  /-- Gives it a value. -/
  | value (value : Value)
  /-- Adds a child at the end. -/
  | append (child : Node)
  /-- Takes away the child at an index. -/
  | remove (index : Value)
deriving Inhabited, Repr

namespace Node

/-- The place of the member at `index` among `length` members. -/
def placeAt (length : Nat) (index : Int) : Except Fault Nat :=
  let place := if index < 0 then index + length else index
  if 0 ≤ place ∧ place < length then .ok place.toNat else .error .noChild

/-- The place that a value means as an index: a whole number, or a truth value as one or zero. -/
def placeOf (length : Nat) : Value → Except Fault Nat
  | .int i => placeAt length i
  | .bool b => placeAt length (if b then 1 else 0)
  | _ => .error .wrongType

/-- Makes a change to a node. -/
def change : Change → Node → Except Fault Node
  | _, .stray _ => .error .plainValue
  | .tag tag, .node head info children =>
    .ok (.node (Traits.head { head.traits with tag := tag }) info children)
  | .value value, .node head info children =>
    .ok (.node (Traits.head { head.traits with value := value }) info children)
  | .append child, .node head info children =>
    if head.isBare then .error .plainValue else .ok (.node head info (children ++ [child]))
  | .remove index, .node head info children =>
    if head.isBare then .error .wrongType
    else do return .node head info (children.eraseIdx (← placeOf children.length index))

/-- Changes the node at a place below a node. -/
def modifyAt (f : Node → Except Fault Node) : List Value → Node → Except Fault Node
  | [], n => f n
  | _ :: _, .stray _ => .error .plainValue
  | index :: path, .node head info children =>
    if head.isBare then .error .wrongType
    else do
      let place ← placeOf children.length index
      match children[place]? with
      | some child => return .node head info (children.set place (← modifyAt f path child))
      | none => .error .noChild

end Node

end Transclude
