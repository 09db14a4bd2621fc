import Transclude.Tree.Node
import Transclude.Value.Same

/-!
# Searching trees

The children of a node, or all nodes below it, that are of certain kinds or have a certain tag. What
is found before a search fails counts as found.
-/

namespace Transclude

/-- What a search looks for. -/
inductive Target where
  /-- Nodes all of whose kinds are among these. -/
  | kinds (ks : Kinds)
  /-- Something that no node is. -/
  | nothing
  /-- Something that no node can be compared with. -/
  | unsuited
deriving Inhabited, Repr

/-- What a search for a plain value looks for. An object has no kinds among its names. -/
def Target.ofValue : Value → Target
  | .arr _ | .obj _ | .map _ => .nothing
  | _ => .unsuited

/-- Whether a node is what a search looks for. -/
def Target.accepts (target : Target) : Node → Except Fault Bool
  | .stray _ => .error .plainValue
  | .node head _ _ =>
    match target with
    | .kinds ks => .ok (head.kinds.within ks)
    | .nothing => .ok false
    | .unsuited => .error .wrongType

/-- What a search finds, in order, and why it ended early, if it did. -/
structure Found (α : Type) where
  /-- What was found. -/
  items : List α := []
  /-- Why the search ended before all was looked at. -/
  fault : Option Fault := none

namespace Found

variable {α : Type}

/-- A search that fails. -/
def fail (fault : Fault) : Found α := { fault := some fault }

/-- Goes on with another search, unless the first has failed. -/
def andThen (found next : Found α) : Found α :=
  match found.fault with
  | some fault => ⟨found.items, some fault⟩
  | none => ⟨found.items ++ next.items, next.fault⟩

/-- What is found by looking at one thing. -/
def test (item : α) : Except Fault Bool → Found α
  | .error fault => fail fault
  | .ok true => { items := [item] }
  | .ok false => {}

/-- Keeps what fulfils a condition. -/
def filter (p : α → Bool) (found : Found α) : Found α := ⟨found.items.filter p, found.fault⟩

/-- Changes what was found. -/
def map {β : Type} (f : α → β) (found : Found α) : Found β := ⟨found.items.map f, found.fault⟩

end Found

namespace Node

/-- The members of a list that a search looks for, each with its place, counted from `start`. -/
def findFrom (target : Target) (start : Nat) : List Node → Found (Nat × Node)
  | [] => {}
  | n :: rest =>
    (Found.test (start, n) (target.accepts n)).andThen (findFrom target (start + 1) rest)

/-- The children that a search looks for, each with its place. -/
def findChildren (target : Target) : Node → Found (Nat × Node)
  | .node head _ children => if head.isBare then .fail .wrongType else findFrom target 0 children
  | .stray _ => .fail .plainValue

mutual

/-- The nodes below a node that a search looks for, in document order. -/
def findBelow (target : Target) : Node → Found Node
  | .node head _ children => if head.isBare then .fail .wrongType else findAmong target children
  | .stray _ => .fail .plainValue

/-- The nodes of a list of trees that a search looks for, in document order. -/
def findAmong (target : Target) : List Node → Found Node
  | [] => {}
  | n :: rest =>
    (Found.test n (target.accepts n)).andThen ((findBelow target n).andThen (findAmong target rest))

end

/-- Whether a node has a tag that is the same as `tag`. -/
def hasTag (tag : Value) : Node → Bool
  | .node head _ _ => head.tag.same tag
  | .stray _ => false

/-- The elements with a tag below a node, in document order. -/
def findElements (tag : Value) (n : Node) : Found Node :=
  (findBelow (.kinds (.single .element)) n).filter (hasTag tag)

end Node

end Transclude
