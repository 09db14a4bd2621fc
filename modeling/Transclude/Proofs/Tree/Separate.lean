import Transclude.Proofs.Tree.Merge

/-!
# Text nodes apart

Merging joins the texts that are side by side. A text node whose value is not a text cannot be joined
with another, so a list in which one stands beside another text node cannot be merged. What is merged
has therefore no two adjacent text nodes, whatever their values are: `separate_of_merge`.
-/

namespace Transclude

namespace Node

/-- No two adjacent nodes of a list are text nodes, whatever their values are. -/
def Separate (ns : List Node) : Prop := ns.IsChain fun m n => m.isText = false ∨ n.isText = false

/-- A text node without a text is odd. -/
theorem exists_text?_of_not_isOddText {n : Node} (h : n.isText = true) (hodd : n.isOddText = false) :
    ∃ s, n.text? = some s := by
  cases htext : n.text? with
  | some s => exact ⟨s, rfl⟩
  | none => simp [isOddText, h, htext] at hodd

/-- A node that is no text node has no text. -/
theorem text?_eq_none_of_isText {n : Node} (h : n.isText = false) : n.text? = none := by
  cases htext : n.text? with
  | none => rfl
  | some s => simp [isText_of_text? htext] at h

/-- A run of several text nodes that can be merged has no odd one. -/
theorem odd_eq_false_of_mergeFaultFrom {ns : List Node} {length : Nat} {odd : Bool}
    (hlength : 2 ≤ length) (h : mergeFaultFrom length odd ns = none) : odd = false := by
  induction ns generalizing length odd with
  | nil => simpa [mergeFaultFrom, hlength] using h
  | cons n rest ih =>
    cases n with
    | stray value => simp [mergeFaultFrom] at h
    | node head info children =>
      rw [mergeFaultFrom] at h
      split at h
      · exact (Bool.or_eq_false_iff.mp (ih (by omega) h)).1
      · split at h
        · simp at h
        · next hodd => simpa [hlength] using hodd
      · simp

/-- Two text nodes at the beginning of nodes that can be merged are not odd. -/
theorem isOddText_eq_false_of_mergeFaultFrom {n m : Node} {rest : List Node} (hn : n.isText = true)
    (hm : m.isText = true) (h : mergeFaultFrom 0 false (n :: m :: rest) = none) :
    n.isOddText = false ∧ m.isOddText = false := by
  have hrun : mergeFaultFrom 2 (n.isOddText || m.isOddText) rest = none := by
    cases n with
    | stray value => simp [isText] at hn
    | node head info children =>
      cases m with
      | stray value => simp [isText] at hm
      | node head' info' children' => simpa [mergeFaultFrom, hn, hm] using h
  exact Bool.or_eq_false_iff.mp (odd_eq_false_of_mergeFaultFrom (le_refl 2) hrun)

/-- What can be merged after a run of text nodes can be merged after a shorter one, or one without odd
nodes. -/
theorem mergeFaultFrom_of_le {ns : List Node} {length shorter : Nat} {odd fewer : Bool}
    (h : mergeFaultFrom length odd ns = none) (hle : shorter ≤ length)
    (hfewer : fewer = true → odd = true) : mergeFaultFrom shorter fewer ns = none := by
  induction ns generalizing length shorter odd fewer with
  | nil =>
    simp only [mergeFaultFrom] at h ⊢
    split at h
    · simp at h
    · next hno => rw [if_neg fun hboth => hno ⟨le_trans hboth.1 hle, hfewer hboth.2⟩]
  | cons n rest ih =>
    cases n with
    | stray value => simp [mergeFaultFrom] at h
    | node head info children =>
      rw [mergeFaultFrom] at h ⊢
      · split at h
        · next htext =>
          -- The run goes on, and stays the shorter one.
          rw [if_pos htext]
          refine ih h (by omega) fun hor => ?_
          rw [Bool.or_eq_true] at hor ⊢
          exact hor.imp_left hfewer
        · next htext =>
          rw [if_neg htext]
          split at h
          · simp at h
          · next hno =>
            rw [if_neg fun hboth => hno ⟨le_trans hboth.1 hle, hfewer hboth.2⟩]
            exact h
      · simp
      · simp

/-- The nodes after the first of those that can be merged can be merged. -/
theorem mergeFaultFrom_of_cons {n : Node} {rest : List Node}
    (h : mergeFaultFrom 0 false (n :: rest) = none) : mergeFaultFrom 0 false rest = none := by
  cases n with
  | stray value => simp [mergeFaultFrom] at h
  | node head info children =>
    rw [mergeFaultFrom] at h
    · split at h
      · exact mergeFaultFrom_of_le h (Nat.zero_le _) (by simp)
      · simpa using h
    · simp

/-- The first of some merged nodes is a text node if the first of the nodes is, and has a text if this
does. -/
theorem head_mergeText {n m : Node} {rest ms : List Node} (h : mergeText (n :: rest) = m :: ms) :
    m.isText = n.isText ∧ (n.text?.isSome = true → m.text?.isSome = true) := by
  rw [mergeText_cons] at h
  unfold prependMerged at h
  split at h
  · obtain ⟨rfl, -⟩ := List.cons_eq_cons.mp h
    exact ⟨rfl, id⟩
  · split at h
    · next s t hs ht =>
      obtain ⟨rfl, -⟩ := List.cons_eq_cons.mp h
      rw [isText_text, isText_of_text? hs]
      exact ⟨rfl, fun _ => rfl⟩
    · obtain ⟨rfl, -⟩ := List.cons_eq_cons.mp h
      exact ⟨rfl, id⟩

/-- No two text nodes are adjacent in nodes that could be merged. -/
theorem separate_mergeText {ns : List Node} (h : mergeFaultFrom 0 false ns = none) :
    Separate (mergeText ns) := by
  unfold Separate
  induction ns with
  | nil => exact List.isChain_nil
  | cons n rest ih =>
    have hchain := ih (mergeFaultFrom_of_cons h)
    rw [mergeText_cons]
    cases hmerged : mergeText rest with
    | nil => exact List.isChain_singleton n
    | cons m ms =>
      rw [hmerged] at hchain
      by_cases hboth : n.isText = true ∧ m.isText = true
      · -- The run of both is not odd, so the two are joined.
        obtain ⟨hn, hm⟩ := hboth
        cases rest with
        | nil => simp [mergeText_nil] at hmerged
        | cons k others =>
          obtain ⟨hkind, hsome⟩ := head_mergeText hmerged
          rw [hm] at hkind
          obtain ⟨hnodd, hkodd⟩ := isOddText_eq_false_of_mergeFaultFrom hn hkind.symm h
          obtain ⟨s, hs⟩ := exists_text?_of_not_isOddText hn hnodd
          obtain ⟨u, hu⟩ := exists_text?_of_not_isOddText hkind.symm hkodd
          obtain ⟨t, ht⟩ := Option.isSome_iff_exists.mp (hsome (by rw [hu]; rfl))
          rw [prependMerged_of_texts hs ht]
          cases ms with
          | nil => exact List.isChain_singleton _
          | cons o os =>
            obtain ⟨hmo, hrest⟩ := List.isChain_cons_cons.mp hchain
            exact List.isChain_cons_cons.mpr ⟨.inr (hmo.resolve_left (by simp [hm])), hrest⟩
      · have hapart : n.isText = false ∨ m.isText = false := by
          cases hn : n.isText <;> cases hm : m.isText <;> simp_all
        have hnone : n.text? = none ∨ m.text? = none := by
          rcases hapart with hn | hm
          · exact .inl (text?_eq_none_of_isText hn)
          · exact .inr (text?_eq_none_of_isText hm)
        rw [prependMerged_of_apart hnone]
        exact List.isChain_cons_cons.mpr ⟨hapart, hchain⟩

/-- Nodes that are merged have no two adjacent text nodes. -/
theorem separate_of_merge {ns ms : List Node} (h : merge ns = .ok ms) : Separate ms := by
  unfold merge at h
  split at h
  · simp at h
  · next hnone => exact Except.ok.inj h ▸ separate_mergeText hnone

end Node

end Transclude
