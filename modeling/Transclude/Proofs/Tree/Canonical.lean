import Transclude.Proofs.Link.Portion
import Transclude.Proofs.Render.Merge

/-!
# The merged form of a list

Merging brings a list of nodes into a form that depends only on what its texts come to between the
other nodes. A list is read as `Runs`: a run of texts, which may be empty, before each of the other
nodes and at the end. `mergeText_nodes` says what becomes of it: every run is condensed to at most one
text, and the other nodes stay. The rest follows: merging is done once and for all, and the parts of a
list can be merged before the whole.
-/

namespace Transclude

namespace Node

/-! ## Runs of texts -/

/-- What a run of texts is condensed to: nothing if there is none, a single text itself with all that it
carries, and several texts a new one with their values one after the other. -/
def condensed : List Node → List Node
  | [] => []
  | [n] => [n]
  | run => [text (String.join (run.filterMap text?))]

/-- A list of nodes, read as runs of text nodes with the other nodes between them. -/
structure Runs where
  /-- The text nodes before the first other node. -/
  first : List Node
  /-- The other nodes, each with the text nodes after it. -/
  others : List (Node × List Node)
  /-- The first run has text nodes only. -/
  isText_first : ∀ n ∈ first, n.isText = true
  /-- The other nodes are no text nodes, and the runs after them have text nodes only. -/
  isText_others : ∀ part ∈ others, part.1.isText = false ∧ ∀ n ∈ part.2, n.isText = true

namespace Runs

/-- The nodes that are read. -/
def nodes (runs : Runs) : List Node :=
  runs.first ++ runs.others.flatMap fun part => part.1 :: part.2

/-- The nodes with every run condensed. -/
def merged (runs : Runs) : List Node :=
  condensed runs.first ++ runs.others.flatMap fun part => part.1 :: condensed part.2

/-- Every list can be read as runs. -/
theorem exists_of_nodes (ns : List Node) : ∃ runs : Runs, runs.nodes = ns := by
  induction ns with
  | nil => exact ⟨⟨[], [], by simp, by simp⟩, rfl⟩
  | cons n rest ih =>
    obtain ⟨⟨first, others, hfirst, hothers⟩, rfl⟩ := ih
    cases htext : n.isText with
    | true =>
      -- A text node is the first of the first run.
      exact ⟨⟨n :: first, others, List.forall_mem_cons.mpr ⟨htext, hfirst⟩, hothers⟩, rfl⟩
    | false =>
      -- Before any other node there is a run without text nodes, and the first run comes after it.
      have hcons : ∀ part ∈ (n, first) :: others,
          part.1.isText = false ∧ ∀ m ∈ part.2, m.isText = true :=
        List.forall_mem_cons.mpr ⟨⟨htext, hfirst⟩, hothers⟩
      exact ⟨⟨[], (n, first) :: others, by simp, hcons⟩, rfl⟩

end Runs

/-- A node that is no text stays in front of merged nodes. -/
theorem prependMerged_of_text?_eq_none {n : Node} (h : n.text? = none) (ms : List Node) :
    prependMerged n ms = n :: ms := by
  cases ms with
  | nil => rfl
  | cons m rest => exact prependMerged_of_apart (.inl h) rest

/-- A run of texts in front of merged nodes that do not start with a text is condensed. -/
theorem foldr_prependMerged_run {run ms : List Node} (hrun : ∀ n ∈ run, n.text?.isSome = true)
    (hms : ∀ m ∈ ms.head?, m.text? = none) :
    run.foldr prependMerged ms = condensed run ++ ms := by
  cases run with
  | nil => rfl
  | cons n rest =>
    have hcondensed : condensed (n :: rest) = joinRun (n :: rest) := by cases rest <;> rfl
    rw [hcondensed]
    exact foldr_prependMerged_of_texts (by simp) hrun hms

/-- The other nodes stay, and the runs of texts after them are condensed. -/
theorem mergeText_flatMap_others {others : List (Node × List Node)}
    (h : ∀ part ∈ others, part.1.text? = none ∧ ∀ n ∈ part.2, n.text?.isSome = true) :
    mergeText (others.flatMap fun part => part.1 :: part.2) =
      others.flatMap fun part => part.1 :: condensed part.2 := by
  induction others with
  | nil => rfl
  | cons part rest ih =>
    obtain ⟨⟨hnode, hrun⟩, hrest⟩ := List.forall_mem_cons.mp h
    have hnext : ∀ m ∈ (rest.flatMap fun part => part.1 :: condensed part.2).head?,
        m.text? = none := by
      cases rest with
      | nil => simp
      | cons next _ => simpa using (hrest next List.mem_cons_self).1
    calc mergeText ((part :: rest).flatMap fun part => part.1 :: part.2)
        = prependMerged part.1 (part.2.foldr prependMerged
            (mergeText (rest.flatMap fun part => part.1 :: part.2))) := by
          rw [List.flatMap_cons, List.cons_append, mergeText_cons, mergeText_append]
      _ = prependMerged part.1 (condensed part.2 ++
            rest.flatMap fun part => part.1 :: condensed part.2) := by
          rw [ih hrest, foldr_prependMerged_run hrun hnext]
      _ = (part :: rest).flatMap fun part => part.1 :: condensed part.2 := by
          rw [prependMerged_of_text?_eq_none hnode, List.flatMap_cons, List.cons_append]

/-- Merging condenses the runs of a list, and does nothing else. -/
theorem mergeText_nodes (runs : Runs) (hsound : ∀ n ∈ runs.nodes, n.isSound = true) :
    mergeText runs.nodes = runs.merged := by
  obtain ⟨first, others, hfirst, hothers⟩ := runs
  simp only [Runs.nodes, Runs.merged] at hsound ⊢
  -- A sound text node has a text, and a node of another kind has none.
  have htext {n : Node} (hn : n.isSound = true) (hkind : n.isText = true) : n.text?.isSome = true := by
    rw [← isText_of_isSound hn, hkind]
  have hruns : ∀ part ∈ others, part.1.text? = none ∧ ∀ n ∈ part.2, n.text?.isSome = true := by
    intro part hpart
    obtain ⟨hnode, hrun⟩ := hothers part hpart
    refine ⟨text?_eq_none_of_isText hnode, fun n hn => htext (hsound n ?_) (hrun n hn)⟩
    have hmem : n ∈ others.flatMap fun part => part.1 :: part.2 :=
      List.mem_flatMap.mpr ⟨part, hpart, List.mem_cons_of_mem _ hn⟩
    exact List.mem_append_right _ hmem
  have hstart : ∀ n ∈ first, n.text?.isSome = true :=
    fun n hn => htext (hsound n (List.mem_append_left _ hn)) (hfirst n hn)
  rw [mergeText_append, mergeText_flatMap_others hruns, foldr_prependMerged_run hstart]
  cases others with
  | nil => simp
  | cons part rest => simpa using (hruns part List.mem_cons_self).1

/-! ## Main result -/

/-- What it is for a list of nodes to be the merged form of another. -/
structure MergedForm (ns merged : List Node) : Prop where
  /-- No two text nodes are adjacent. -/
  separate : Separate merged
  /-- The other nodes are those of the list, in order. -/
  nonTexts : nonTexts merged = nonTexts ns
  /-- Every run of the list is condensed. -/
  runs : ∃ runs : Runs, runs.nodes = ns ∧ runs.merged = merged
  /-- The merged form of the merged form is itself. -/
  idempotent : merge merged = .ok merged
  /-- The text is the same. -/
  text : toText merged = toText ns
  /-- The markup is the same. -/
  markup : toMarkup merged = toMarkup ns
  /-- The HTML is the same. -/
  html : toHtml merged = toHtml ns

/-- Merged nodes are sound if the nodes are. -/
theorem isSound_mergeText {ns : List Node} (h : ∀ n ∈ ns, n.isSound = true) :
    ∀ n ∈ mergeText ns, n.isSound = true := by
  intro n hn
  rcases mem_mergeText hn with hn | ⟨s, rfl⟩
  · exact h n hn
  · exact isSound_text s

/-- Sound nodes that are merged have the merged form. -/
theorem mergedForm_mergeText {ns : List Node} (h : ∀ n ∈ ns, n.isSound = true) :
    MergedForm ns (mergeText ns) where
  separate := separate_of_merge (merge_of_isSound h)
  nonTexts := nonTexts_mergeText ns
  runs := by
    obtain ⟨runs, rfl⟩ := Runs.exists_of_nodes ns
    exact ⟨runs, rfl, (mergeText_nodes runs h).symm⟩
  idempotent := by
    rw [merge_of_isSound (isSound_mergeText h), mergeText_of_apart (apart_mergeText ns)]
  text := by
    unfold toText
    rw [textsOf_mergeText]
  markup := Render.nodes_mergeText .markup _ ns
  html := Render.nodes_mergeText .html _ ns

/-- Sound nodes can be merged, and what they are merged to is their merged form. Two lists that are
merged each for itself and then together come to the same as the two lists merged together. -/
theorem merge_mergedForm {ns ms : List Node} (hns : ∀ n ∈ ns, n.isSound = true)
    (hms : ∀ n ∈ ms, n.isSound = true) :
    ∃ merged others whole, merge ns = .ok merged ∧ MergedForm ns merged ∧ merge ms = .ok others ∧
      merge (ns ++ ms) = .ok whole ∧ merge (merged ++ others) = .ok whole := by
  have hwhole : ∀ n ∈ ns ++ ms, n.isSound = true := List.forall_mem_append.mpr ⟨hns, hms⟩
  have hparts : ∀ n ∈ mergeText ns ++ mergeText ms, n.isSound = true :=
    List.forall_mem_append.mpr ⟨isSound_mergeText hns, isSound_mergeText hms⟩
  refine ⟨mergeText ns, mergeText ms, mergeText (ns ++ ms), merge_of_isSound hns,
    mergedForm_mergeText hns, merge_of_isSound hms, merge_of_isSound hwhole, ?_⟩
  rw [merge_of_isSound hparts, mergeText_mergeText_append]

/-- Nodes that end with a run of texts, one of them empty, after a text that carries data. -/
def runAtEnd : List Node := [.node (.text "a") ⟨.int 1, []⟩ [], element "p" [] [], text "", text "b"]

/-- Nodes that begin with a text. -/
def textAtStart : List Node := [text "c", element "hr" [] []]

/-- A run of texts goes on across the border between two lists. -/
theorem merge_mergedForm_acrossBorder :
    (∀ n ∈ runAtEnd, n.isSound = true) ∧ (∀ n ∈ textAtStart, n.isSound = true) ∧
      ∃ merged others whole, merge runAtEnd = .ok merged ∧ MergedForm runAtEnd merged ∧
        merge textAtStart = .ok others ∧ merge (runAtEnd ++ textAtStart) = .ok whole ∧
        merge (merged ++ others) = .ok whole :=
  have hns : ∀ n ∈ runAtEnd, n.isSound = true := by decide
  have hms : ∀ n ∈ textAtStart, n.isSound = true := by decide
  ⟨hns, hms, merge_mergedForm hns hms⟩

end Node

end Transclude
