import Transclude.Tree.Display
import Transclude.Proofs.Tree.Regular

/-!
# Trees that can be displayed

Every well-formed tree can be displayed, so that a message can show it.
-/

namespace Transclude.Node

/-- A list can be displayed if each tree of it can. -/
theorem allDisplayable_iff {ns : List Node} :
    allDisplayable ns = true ↔ ∀ n ∈ ns, n.displayable = true := by
  induction ns with
  | nil => simp [allDisplayable]
  | cons n rest ih => simp [allDisplayable, ih]

/-- A new text can be displayed. -/
theorem displayable_text (s : String) : (text s).displayable = true := by
  have hvalued : (Head.text s).kinds.within .valued = true := by
    change (Kinds.single .text).within .valued = true
    decide
  simp [text, displayable, hvalued]

mutual

/-- A well-formed tree can be displayed. -/
theorem displayable_of_wellFormed : ∀ {n : Node}, n.wellFormed = true → n.displayable = true
  | .stray value, h => by simp [wellFormed] at h
  | .node head info children, h => by
    obtain ⟨hhead, -, hchildren⟩ := wellFormed_node.mp h
    simp [displayable, Head.isBare_of_isRegular hhead,
      allDisplayable_of_allWellFormed hchildren]

/-- Well-formed trees can be displayed. -/
theorem allDisplayable_of_allWellFormed :
    ∀ {ns : List Node}, allWellFormed ns = true → allDisplayable ns = true
  | [], _ => rfl
  | n :: rest, h => by
    rw [allWellFormed, Bool.and_eq_true] at h
    simp [allDisplayable, displayable_of_wellFormed h.1, allDisplayable_of_allWellFormed h.2]

end

end Transclude.Node
