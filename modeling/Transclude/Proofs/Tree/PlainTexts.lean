import Transclude.Proofs.Tree.Merge

/-!
# Trees by their values

A text node may carry more than its value. `Node.bareText` is a text with nothing but its value, and
`Node.plainTexts` a tree with nothing but the values in its text nodes. Two trees for which it is the
same differ only in what their texts carry. Merging goes along with both (`map_mergeText`).
-/

namespace Transclude.Node

/-! ## Merging values -/

section Merge

variable {f : Node → Node} (hvalue : ∀ n, (f n).text? = n.text?)
  (htext : ∀ n s, n.text? = some s → f n = text s)

include hvalue htext

/-- A node in front of merged nodes has its value in front of theirs. -/
theorem map_prependMerged (n : Node) (ms : List Node) :
    (n.prependMerged ms).map f = (f n).prependMerged (ms.map f) := by
  cases ms with
  | nil => rfl
  | cons m rest =>
    by_cases hnm : n.text? = none ∨ m.text? = none
    · rw [List.map_cons, prependMerged_of_apart hnm, prependMerged_of_apart, List.map_cons,
        List.map_cons]
      rw [hvalue, hvalue]
      exact hnm
    · rw [not_or] at hnm
      obtain ⟨s, hs⟩ := Option.ne_none_iff_exists'.mp hnm.1
      obtain ⟨t, ht⟩ := Option.ne_none_iff_exists'.mp hnm.2
      rw [List.map_cons, prependMerged_of_texts hs ht, List.map_cons, htext _ _ (text?_text _),
        prependMerged_of_texts]
      · rw [hvalue, hs]
      · rw [hvalue, ht]

/-- Merging goes along with what takes texts to their values, and other nodes to such nodes. -/
theorem map_mergeText (ns : List Node) : (mergeText ns).map f = mergeText (ns.map f) := by
  induction ns with
  | nil => rfl
  | cons n rest ih =>
    rw [mergeText_cons, map_prependMerged hvalue htext, ih, List.map_cons, mergeText_cons]

end Merge

/-! ## Texts by their values -/

/-- A text with nothing but its value. Any other node is as it is. -/
def bareText (n : Node) : Node :=
  match n.text? with
  | some s => text s
  | none => n

/-- A text has nothing but its value. -/
theorem bareText_of_text? {n : Node} {s : String} (h : n.text? = some s) : n.bareText = text s := by
  unfold bareText
  rw [h]

/-- A node that is no text is as it is. -/
theorem bareText_of_text?_eq_none {n : Node} (h : n.text? = none) : n.bareText = n := by
  unfold bareText
  rw [h]

/-- A text keeps its value. -/
theorem text?_bareText (n : Node) : n.bareText.text? = n.text? := by
  cases h : n.text? with
  | some s => rw [bareText_of_text? h, text?_text]
  | none => rw [bareText_of_text?_eq_none h, h]

/-- Merging nodes merges their values. -/
theorem map_bareText_mergeText (ns : List Node) :
    (mergeText ns).map bareText = mergeText (ns.map bareText) :=
  map_mergeText text?_bareText (fun _ _ => bareText_of_text?) ns

/-! ## Trees by their values -/

mutual

/-- A tree with nothing but their values in its text nodes. -/
def plainTexts : Node → Node
  | .stray value => .stray value
  | .node head info children =>
    match (Node.node head info children).text? with
    | some s => text s
    | none => .node head info (plainTextsAll children)

/-- Trees with nothing but their values in their text nodes. -/
def plainTextsAll : List Node → List Node
  | [] => []
  | n :: rest => plainTexts n :: plainTextsAll rest

end

/-- Each tree of a list is taken by itself. -/
theorem plainTextsAll_eq_map (ns : List Node) : plainTextsAll ns = ns.map plainTexts := by
  induction ns with
  | nil => rw [plainTextsAll, List.map_nil]
  | cons n rest ih => rw [plainTextsAll, ih, List.map_cons]

/-- A text has nothing but its value. -/
theorem plainTexts_of_text? {n : Node} {s : String} (h : n.text? = some s) :
    n.plainTexts = text s := by
  cases n with
  | stray value => simp [text?] at h
  | node head info children => simp only [plainTexts, h]

/-- A node that is no text keeps what it is and carries. -/
theorem plainTexts_node {head : Head} {info : Info} {children : List Node}
    (h : (Node.node head info children).text? = none) :
    (Node.node head info children).plainTexts = .node head info (children.map plainTexts) := by
  simp only [plainTexts, h, plainTextsAll_eq_map]

/-- A text keeps its value. -/
theorem text?_plainTexts (n : Node) : n.plainTexts.text? = n.text? := by
  cases h : n.text? with
  | some s => rw [plainTexts_of_text? h, text?_text]
  | none =>
    cases n with
    | stray value => rw [plainTexts, h]
    | node head info children =>
      rw [plainTexts_node h]
      exact h

/-- Merging nodes merges their values. -/
theorem map_plainTexts_mergeText (ns : List Node) :
    (mergeText ns).map plainTexts = mergeText (ns.map plainTexts) :=
  map_mergeText text?_plainTexts (fun _ _ => plainTexts_of_text?) ns

end Transclude.Node
