import Transclude.Tree.Node

/-!
# Merging text

A run of adjacent text nodes is replaced by one text node with all their text. A text node that
stands alone is kept as it is, with all that it carries.
-/

namespace Transclude.Node

/-- Puts a node in front of merged nodes. Two texts become one new text node. -/
def prependMerged (n : Node) : List Node → List Node
  | [] => [n]
  | m :: rest =>
    match n.text?, m.text? with
    | some s, some t => text (s ++ t) :: rest
    | _, _ => n :: m :: rest

/-- The nodes of a list with each run of texts merged. -/
def mergeText : List Node → List Node := List.foldr prependMerged []

/-- Why a list cannot be merged, given the length of the run of text nodes just before it and
whether a value in that run is not a text: such a value cannot be joined with others, and a plain
value is neither a text nor anything else. -/
def mergeFaultFrom (length : Nat) (odd : Bool) : List Node → Option Fault
  | [] => if 2 ≤ length ∧ odd then some .wrongType else none
  | .stray _ :: _ => some .plainValue
  | n :: rest =>
    if n.isText then mergeFaultFrom (length + 1) (odd || n.isOddText) rest
    else if 2 ≤ length ∧ odd then some .wrongType
    else mergeFaultFrom 0 false rest

/-- Merges the texts of a list, if that is possible. -/
def merge (nodes : List Node) : Except Fault (List Node) :=
  match mergeFaultFrom 0 false nodes with
  | some fault => .error fault
  | none => .ok (mergeText nodes)

/-- No nodes merge to none. -/
theorem mergeText_nil : mergeText [] = [] := rfl

/-- A list is merged from its end. -/
theorem mergeText_cons (n : Node) (rest : List Node) :
    mergeText (n :: rest) = prependMerged n (mergeText rest) := rfl

end Transclude.Node
