import Transclude.Tree.Merge
import Transclude.Proofs.Tree.Regular
import Mathlib.Data.List.SplitBy

/-!
# What merging does

A list of sound nodes can always be merged (`merge_of_isSound`). The result is the list with each
maximal run of texts joined: `joinRuns` says so without reference to how the merging proceeds, and
`mergeText_eq_joinRuns` that it is the same. No two texts are adjacent afterwards, and a list
without adjacent texts is merged already.
-/

namespace Transclude.Node

/-! ## Lists that can be merged -/

/-- Sound nodes have no fault that keeps them from being merged. -/
theorem mergeFaultFrom_of_isSound {ns : List Node} (h : ∀ n ∈ ns, n.isSound = true)
    (length : Nat) : mergeFaultFrom length false ns = none := by
  induction ns generalizing length with
  | nil => simp [mergeFaultFrom]
  | cons n rest ih =>
    have hn := h n (by simp)
    have hrest := ih fun m hm => h m (by simp [hm])
    cases n with
    | stray value => exact absurd hn (not_isSound_stray value)
    | node head info children => simp [mergeFaultFrom, isSound_node.mp hn, hrest]

/-- Sound nodes can be merged. -/
theorem merge_of_isSound {ns : List Node} (h : ∀ n ∈ ns, n.isSound = true) :
    merge ns = .ok (mergeText ns) := by
  unfold merge
  rw [mergeFaultFrom_of_isSound h]

/-! ## Merging from the end -/

/-- Putting a node in front of merged nodes keeps all but texts as they are. -/
theorem mem_prependMerged {m n : Node} {ms : List Node} (h : m ∈ prependMerged n ms) :
    m = n ∨ m ∈ ms ∨ ∃ s, m = text s := by
  unfold prependMerged at h
  split at h
  · exact .inl (List.mem_singleton.mp h)
  · split at h
    · rcases List.mem_cons.mp h with rfl | hm
      · exact .inr (.inr ⟨_, rfl⟩)
      · exact .inr (.inl (by simp [hm]))
    · rcases List.mem_cons.mp h with rfl | hm
      · exact .inl rfl
      · exact .inr (.inl hm)

/-- A merged list has only nodes of the list and new texts. -/
theorem mem_mergeText {m : Node} {ns : List Node} (h : m ∈ mergeText ns) :
    m ∈ ns ∨ ∃ s, m = text s := by
  induction ns with
  | nil => simp [mergeText_nil] at h
  | cons n rest ih =>
    rw [mergeText_cons] at h
    rcases mem_prependMerged h with rfl | hm | htext
    · exact .inl (by simp)
    · rcases ih hm with hrest | htext
      · exact .inl (by simp [hrest])
      · exact .inr htext
    · exact .inr htext

/-- A node that is no text is not merged with others. -/
theorem mem_mergeText_of_text? {n : Node} {ns : List Node} (htext : n.text? = none) (h : n ∈ ns) :
    n ∈ mergeText ns := by
  induction ns with
  | nil => simp at h
  | cons m rest ih =>
    rw [mergeText_cons]
    unfold prependMerged
    rcases List.mem_cons.mp h with rfl | h
    · cases mergeText rest with
      | nil => simp
      | cons k ks => simp [htext]
    · have hrest := ih h
      cases hmerged : mergeText rest with
      | nil => simp [hmerged] at hrest
      | cons k ks =>
        rw [hmerged] at hrest
        dsimp only
        split
        · next s t _ hk =>
          rcases List.mem_cons.mp hrest with rfl | hks
          · simp [htext] at hk
          · exact List.mem_cons_of_mem _ hks
        · exact List.mem_cons_of_mem _ hrest

/-- Something is left in front of merged nodes. -/
theorem prependMerged_ne_nil (n : Node) (ms : List Node) : prependMerged n ms ≠ [] := by
  unfold prependMerged
  split
  · simp
  · split <;> simp

/-- Only an empty list merges to an empty list. -/
theorem mergeText_eq_nil {ns : List Node} : mergeText ns = [] ↔ ns = [] := by
  cases ns with
  | nil => simp [mergeText_nil]
  | cons n rest => simp [mergeText_cons, prependMerged_ne_nil]

/-- Two lists, one after the other, are merged from the end. -/
theorem mergeText_append (ns ms : List Node) :
    mergeText (ns ++ ms) = ns.foldr prependMerged (mergeText ms) := by
  unfold mergeText
  rw [List.foldr_append]

/-- The text node with given characters. Without characters there is none. -/
def ofChars (cs : List Char) : List Node := if cs = [] then [] else [text (String.ofList cs)]

/-! ## Texts apart -/

/-- No two adjacent nodes of a list are texts. -/
def Apart (ns : List Node) : Prop := ns.IsChain fun m n => m.text? = none ∨ n.text? = none

/-- A node that is put in front of merged nodes does not touch them, unless it and the first of
them are texts. -/
theorem prependMerged_of_apart {n m : Node} (h : n.text? = none ∨ m.text? = none)
    (rest : List Node) : prependMerged n (m :: rest) = n :: m :: rest := by
  unfold prependMerged
  rcases h with h | h <;> simp [h]

/-- A text is joined with the text that it is put in front of. -/
theorem prependMerged_of_texts {n m : Node} {s t : String} (hn : n.text? = some s)
    (hm : m.text? = some t) (rest : List Node) :
    prependMerged n (m :: rest) = text (s ++ t) :: rest := by
  simp only [prependMerged, hn, hm]

/-- Texts stay apart when a node is put in front. -/
theorem apart_prependMerged (n : Node) {ms : List Node} (h : Apart ms) :
    Apart (prependMerged n ms) := by
  unfold Apart at h ⊢
  cases ms with
  | nil => exact List.isChain_singleton n
  | cons m rest =>
    by_cases hnm : n.text? = none ∨ m.text? = none
    · rw [prependMerged_of_apart hnm]
      exact List.isChain_cons_cons.mpr ⟨hnm, h⟩
    · rw [not_or] at hnm
      obtain ⟨s, hs⟩ := Option.ne_none_iff_exists'.mp hnm.1
      obtain ⟨t, ht⟩ := Option.ne_none_iff_exists'.mp hnm.2
      rw [prependMerged_of_texts hs ht]
      -- The new text has the neighbour of the text that it replaces.
      cases rest with
      | nil => exact List.isChain_singleton _
      | cons other others =>
        rw [List.isChain_cons_cons, ht] at h
        exact List.isChain_cons_cons.mpr ⟨.inr (by simpa using h.1), h.2⟩

/-- Texts are apart in a merged list. -/
theorem apart_mergeText (ns : List Node) : Apart (mergeText ns) := by
  induction ns with
  | nil => exact List.isChain_nil
  | cons n rest ih => exact apart_prependMerged n ih

/-- A list whose texts are apart is merged already. -/
theorem mergeText_of_apart {ns : List Node} (h : Apart ns) : mergeText ns = ns := by
  unfold Apart at h
  induction ns with
  | nil => rfl
  | cons n rest ih =>
    rw [mergeText_cons, ih h.tail]
    cases rest with
    | nil => rfl
    | cons m others => exact prependMerged_of_apart (List.isChain_cons_cons.mp h).1 others

/-! ## Merging in parts -/

/-- A text is joined with what follows it as its two parts are, one after the other. -/
theorem prependMerged_text_append {n m : Node} {s t : String} (hn : n.text? = some s)
    (hm : m.text? = some t) (ms : List Node) :
    prependMerged (text (s ++ t)) ms = prependMerged n (prependMerged m ms) := by
  cases ms with
  | nil => rw [prependMerged, prependMerged, prependMerged_of_texts hn hm]
  | cons k rest =>
    cases hk : k.text? with
    | none =>
      rw [prependMerged_of_apart (.inr hk), prependMerged_of_apart (.inr hk),
        prependMerged_of_texts hn hm]
    | some u =>
      rw [prependMerged_of_texts (text?_text _) hk, prependMerged_of_texts hm hk,
        prependMerged_of_texts hn (text?_text _), String.append_assoc]

/-- New texts in front of merged nodes are joined to one. -/
theorem foldr_prependMerged_texts {texts : List String} (hne : texts ≠ []) (ms : List Node) :
    (texts.map text).foldr prependMerged ms = prependMerged (text (String.join texts)) ms := by
  induction texts with
  | nil => exact absurd rfl hne
  | cons s rest ih =>
    rw [List.map_cons, List.foldr_cons, String.join_cons]
    cases rest with
    | nil => simp [String.join]
    | cons t others =>
      rw [ih (by simp), prependMerged_text_append (text?_text s) (text?_text _)]

/-- It does not matter whether two texts are joined before or after others are put behind them. -/
theorem foldr_prependMerged_prependMerged (n : Node) (ns ms : List Node) :
    (prependMerged n ns).foldr prependMerged ms = prependMerged n (ns.foldr prependMerged ms) := by
  cases ns with
  | nil => rfl
  | cons m rest =>
    by_cases hnm : n.text? = none ∨ m.text? = none
    · rw [prependMerged_of_apart hnm, List.foldr_cons]
    · rw [not_or] at hnm
      obtain ⟨s, hs⟩ := Option.ne_none_iff_exists'.mp hnm.1
      obtain ⟨t, ht⟩ := Option.ne_none_iff_exists'.mp hnm.2
      rw [prependMerged_of_texts hs ht, List.foldr_cons, List.foldr_cons,
        prependMerged_text_append hs ht]

/-- Merged nodes are put in front of others as the nodes themselves are. -/
theorem foldr_prependMerged_mergeText (ns ms : List Node) :
    (mergeText ns).foldr prependMerged ms = ns.foldr prependMerged ms := by
  induction ns with
  | nil => rfl
  | cons n rest ih =>
    rw [mergeText_cons, foldr_prependMerged_prependMerged, ih, List.foldr_cons]

/-- Two lists that are merged each for itself are merged together as if they were not. -/
theorem mergeText_mergeText_append (ns ms : List Node) :
    mergeText (mergeText ns ++ mergeText ms) = mergeText (ns ++ ms) := by
  have hmerged : mergeText (mergeText ms) = mergeText ms := mergeText_of_apart (apart_mergeText ms)
  rw [mergeText_append, mergeText_append, hmerged, foldr_prependMerged_mergeText]

/-! ## Maximal runs -/

/-- Whether two nodes are texts. -/
def bothTexts (m n : Node) : Bool := m.text?.isSome && n.text?.isSome

/-- What a run of adjacent nodes becomes: a single node stays, and several texts become one new
text. -/
def joinRun : List Node → List Node
  | [n] => [n]
  | run => [text (String.join (run.filterMap text?))]

/-- A list of nodes with each maximal run of adjacent texts joined. -/
def joinRuns (ns : List Node) : List Node := (ns.splitBy bothTexts).flatMap joinRun

/-- Two nodes are not both texts if one of them is none. -/
theorem bothTexts_eq_false {m n : Node} :
    bothTexts m n = false ↔ m.text? = none ∨ n.text? = none := by
  unfold bothTexts
  cases m.text? <;> cases n.text? <;> simp

/-- The nodes of a run of several are texts. -/
theorem texts_of_isChain {run : List Node} (h : run.IsChain fun m n => bothTexts m n)
    (hlength : 2 ≤ run.length) : ∀ n ∈ run, n.text?.isSome = true := by
  induction run with
  | nil => simp
  | cons n rest ih =>
    cases rest with
    | nil => simp at hlength
    | cons m others =>
      obtain ⟨hnm, hrest⟩ := List.isChain_cons_cons.mp h
      obtain ⟨hn, hm⟩ : n.text?.isSome = true ∧ m.text?.isSome = true := by
        simpa [bothTexts] using hnm
      cases others with
      | nil => simp [hn, hm]
      | cons k ks =>
        have htexts := ih hrest (by simp)
        intro i hi
        rcases List.mem_cons.mp hi with rfl | hi
        · exact hn
        · exact htexts i hi

/-- Texts in front of a merged list that does not start with a text are joined. -/
theorem foldr_prependMerged_of_texts {run rest : List Node} (hrun : run ≠ [])
    (htexts : ∀ n ∈ run, n.text?.isSome = true) (hrest : ∀ m ∈ rest.head?, m.text? = none) :
    run.foldr prependMerged rest = joinRun run ++ rest := by
  induction run with
  | nil => exact absurd rfl hrun
  | cons n others ih =>
    obtain ⟨s, hs⟩ := Option.isSome_iff_exists.mp (htexts n (by simp))
    cases others with
    | nil =>
      cases rest with
      | nil => rfl
      | cons m ms => exact prependMerged_of_apart (.inr (hrest m (by simp))) ms
    | cons m ms =>
      obtain ⟨t, ht⟩ := Option.isSome_iff_exists.mp (htexts m (by simp))
      rw [List.foldr_cons, ih (by simp) fun k hk => htexts k (by simp [hk])]
      cases ms with
      | nil =>
        rw [joinRun, List.singleton_append, prependMerged_of_texts hs ht]
        simp [joinRun, hs, ht, String.join]
      | cons k ks =>
        rw [joinRun, List.singleton_append, prependMerged_of_texts hs (text?_text _)]
        · simp [joinRun, hs, String.join_cons]
        · simp

/-- A run becomes one node, which is a text if the first of the run is. -/
theorem joinRun_of_isChain {n : Node} {rest : List Node}
    (h : (n :: rest).IsChain fun m n => bothTexts m n) :
    ∃ m, joinRun (n :: rest) = [m] ∧ (n.text? = none → m.text? = none) := by
  cases rest with
  | nil => exact ⟨n, rfl, id⟩
  | cons m others =>
    have hn := texts_of_isChain h (by simp) n (by simp)
    exact ⟨_, rfl, fun hnone => by simp [hnone] at hn⟩

/-- Runs with a break between any two of them are joined each for itself. -/
theorem mergeText_flatten {runs : List (List Node)} (hne : [] ∉ runs)
    (hrun : ∀ run ∈ runs, run.IsChain fun m n => bothTexts m n)
    (hbreak : runs.IsChain fun a b => ∃ ha hb, bothTexts (a.getLast ha) (b.head hb) = false) :
    mergeText runs.flatten = runs.flatMap joinRun := by
  induction runs with
  | nil => rfl
  | cons run rest ih =>
    have hmerged := ih (fun h => hne (by simp [h])) (fun r hr => hrun r (by simp [hr])) hbreak.tail
    have hrunne : run ≠ [] := fun h => hne (by simp [h])
    rw [List.flatten_cons, mergeText_append, hmerged, List.flatMap_cons]
    -- What follows the run starts with a text only if the next run does.
    have hnext : ∀ m ∈ (rest.flatMap joinRun).head?,
        (run.getLast hrunne).text? = none ∨ m.text? = none := by
      cases rest with
      | nil => simp
      | cons next others =>
        obtain ⟨⟨_, hnextne, hfalse⟩, -⟩ := List.isChain_cons_cons.mp hbreak
        obtain ⟨n, tail, rfl⟩ := List.exists_cons_of_ne_nil hnextne
        obtain ⟨m, hm, hnone⟩ := joinRun_of_isChain (hrun (n :: tail) (by simp))
        intro k hk
        obtain rfl : m = k := by simpa [hm] using hk
        exact (bothTexts_eq_false.mp hfalse).imp_right hnone
    cases run with
    | nil => exact absurd rfl hrunne
    | cons n tail =>
      -- A single node stays, and only a run of several must be texts.
      cases tail with
      | nil =>
        rw [List.foldr_cons, List.foldr_nil, joinRun, List.singleton_append]
        cases hafter : rest.flatMap joinRun with
        | nil => rfl
        | cons m ms => exact prependMerged_of_apart (hnext m (by simp [hafter])) ms
      | cons m others =>
        have htexts := texts_of_isChain (hrun (n :: m :: others) (by simp)) (by simp)
        refine foldr_prependMerged_of_texts hrunne htexts fun k hk => ?_
        have hlast := htexts _ (List.getLast_mem hrunne)
        exact (hnext k hk).resolve_left (Option.ne_none_iff_isSome.mpr hlast)

/-- Merging joins each maximal run of adjacent texts. -/
theorem mergeText_eq_joinRuns (ns : List Node) : mergeText ns = joinRuns ns := by
  obtain ⟨hflatten, hne, hrun, hbreak⟩ := List.splitBy_eq_iff.mp (rfl : ns.splitBy bothTexts = _)
  unfold joinRuns
  rw [← mergeText_flatten hne hrun hbreak, ← hflatten]

end Transclude.Node
