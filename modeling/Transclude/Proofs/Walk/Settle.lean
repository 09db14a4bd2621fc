import Transclude.Proofs.Link.Resolve
import Transclude.Proofs.Render.Merge
import Transclude.Proofs.Tree.PlainTexts
import Transclude.Proofs.Walk.Account

/-!
# Walks without calls

A walk that makes no call only joins texts. `Node.joined` is the tree in which the texts of every
container that the walk goes into are joined, and `process_of_no_calls` says that the tree becomes
that one, but for what its text nodes carry besides their values. `Node.settled` is the tree that it
becomes to the last detail.
-/

namespace Transclude

/-! ## Steps without calls -/

namespace Link

/-- Items among which there is no link are written out as they are. -/
theorem splice_of_no_link {items : List Item} (h : (fates items).filterMap Fate.inside? = [])
    (answers : List (List Node)) : splice false answers items = items.map Item.plain := by
  induction items with
  | nil => rfl
  | cons item rest ih =>
    cases item with
    | node n => rw [splice, List.map_cons, Item.plain, ih h]
    | delimiter d =>
      cases d with
      | stop => rw [splice, List.map_cons, Item.plain, ih h]
      | start =>
        rw [fates, List.filterMap_cons] at h
        have hstarts : startsLink rest = false := by
          unfold startsLink
          by_cases hnext : next? rest = some .stop
          · cases hbegins : beginsLink (inside rest) with
            | false => simp
            | true => simp [fateOf, hnext, hbegins, Fate.inside?] at h
          · simp [hnext]
        have hrest : (fates rest).filterMap Fate.inside? = [] := by
          split at h
          · exact h
          · simp at h
        rw [splice, hstarts, List.map_cons, Item.plain, ih hrest]
        rfl

end Link

namespace Node

/-- If the links of well-formed nodes call for nothing, the nodes are merged, cut and mended. -/
theorem mergeText_outputs_of_no_calls {ns : List Node} (hns : ∀ n ∈ ns, n.wellFormed = true)
    (h : Step.calls (linkSteps ns) = []) (answers : List (List Node)) :
    mergeText (Step.outputs (linkSteps ns) answers) = (mergeText ns).map Link.refresh := by
  -- Without calls there is no link among the items, so all are written out as they are.
  have hmerged : ∀ n ∈ mergeText ns, n.isSound = true ∧ n.displayable = true := by
    intro n hn
    rcases mem_mergeText hn with hn | ⟨s, rfl⟩
    · exact ⟨isSound_of_wellFormed (hns n hn), displayable_of_wellFormed (hns n hn)⟩
    · exact ⟨isSound_text s, displayable_text s⟩
  have hresolved := Link.resolvedBy_groups (Link.sound_items hmerged)
  obtain ⟨references, hrefs, hcalls⟩ := hresolved.calls
  have hnil : references = [] := List.map_eq_nil_iff.mp (hcalls.symm.trans h)
  rw [hnil, List.forall₂_nil_right_iff] at hrefs
  unfold linkSteps
  rw [hresolved.outputs, Link.splice_of_no_link hrefs,
    Link.mergeText_plain_items (apart_mergeText ns)]

/-! ## Settled trees -/

mutual

/-- A tree after a walk without calls. -/
def settled (tags : Tags) : Node → Node
  | .stray value => .stray value
  | .node head info children =>
    if tags.admits (.node head info children) then
      .node head info ((mergeText (settledAll tags children)).map Link.refresh)
    else .node head info children

/-- Trees after a walk without calls. -/
def settledAll (tags : Tags) : List Node → List Node
  | [] => []
  | n :: rest => settled tags n :: settledAll tags rest

end

/-- A tree that a walk does not go into stays. -/
theorem settled_of_not_admits {tags : Tags} {n : Node} (h : tags.admits n = false) :
    n.settled tags = n := by
  cases n with
  | stray value => rw [settled]
  | node head info children =>
    rw [settled, h]
    rfl

/-- There are as many trees after a walk as before. -/
theorem settledAll_eq_nil {tags : Tags} {ns : List Node} : settledAll tags ns = [] ↔ ns = [] := by
  cases ns <;> simp [settledAll]

/-- A node is well formed after it is cut and mended. -/
theorem wellFormed_refresh {n : Node} (h : n.wellFormed = true) :
    (Link.refresh n).wellFormed = true := by
  unfold Link.refresh
  split
  · split
    · exact wellFormed_text _
    · exact h
  · exact h

mutual

/-- A well-formed tree is well formed after a walk without calls. -/
theorem wellFormed_settled (tags : Tags) :
    ∀ {n : Node}, n.wellFormed = true → (n.settled tags).wellFormed = true
  | .stray value, h => by simp [wellFormed] at h
  | .node head info children, h => by
    cases hadmits : tags.admits (.node head info children) with
    | false =>
      rw [settled_of_not_admits hadmits]
      exact h
    | true =>
      obtain ⟨hr, hlisted, hchildren⟩ := wellFormed_node.mp h
      rw [settled, if_pos hadmits]
      refine wellFormed_node.mpr ⟨hr, ?_, allWellFormed_iff.mpr fun m hm => ?_⟩
      · rw [List.map_eq_nil_iff, mergeText_eq_nil, settledAll_eq_nil]
        exact hlisted
      · obtain ⟨k, hk, rfl⟩ := List.mem_map.mp hm
        rcases mem_mergeText hk with hk | ⟨s, rfl⟩
        · exact wellFormed_refresh (allWellFormed_settledAll tags hchildren k hk)
        · exact wellFormed_refresh (wellFormed_text s)

/-- Well-formed trees are well formed after a walk without calls. -/
theorem allWellFormed_settledAll (tags : Tags) :
    ∀ {ns : List Node}, allWellFormed ns = true → ∀ n ∈ settledAll tags ns, n.wellFormed = true
  | [], _ => by simp [settledAll]
  | child :: rest, h => by
    rw [allWellFormed, Bool.and_eq_true] at h
    intro n hn
    rcases List.mem_cons.mp hn with rfl | hn
    · exact wellFormed_settled tags h.1
    · exact allWellFormed_settledAll tags h.2 n hn

end

/-! ## Outcomes without answers -/

/-- Nothing was taken from what is all left over in the end, nor on the way. -/
theorem eq_of_suffix_of_suffix {as bs cs : List (List Node)} (h : as <:+ bs) (h' : bs <:+ cs)
    (heq : as = cs) : as = bs ∧ bs = cs := by
  subst heq
  have hbs := h.eq_of_length (le_antisymm h.length_le h'.length_le)
  exact ⟨hbs, hbs.symm⟩

/-- Only no answers are dropped if all are left over. -/
theorem eq_nil_of_drop_eq {calls : List Call} {answers : List (List Node)} (hne : answers ≠ [])
    (h : answers.drop calls.length = answers) : calls = [] := by
  have hlength := congrArg List.length h
  rw [List.length_drop] at hlength
  have hpos := List.length_pos_iff.mpr hne
  exact List.length_eq_zero_iff.mp (by omega)

mutual

/-- A well-formed tree from which no answer is taken settles. -/
theorem value_outcome_of_rest_eq (tags : Tags) : ∀ {n : Node}, n.wellFormed = true →
    ∀ {answers : List (List Node)}, answers ≠ [] → (n.outcome tags answers).rest = answers →
    (n.outcome tags answers).value = n.settled tags
  | .stray value, h, _, _, _ => by simp [wellFormed] at h
  | .node head info children, h, answers, hne, hrest => by
    cases hadmits : tags.admits (.node head info children) with
    | false => rw [outcome_of_not_admits hadmits, settled_of_not_admits hadmits]
    | true =>
      obtain ⟨hr, -, hchildren⟩ := wellFormed_node.mp h
      rw [outcome_of_admits hadmits] at hrest ⊢
      dsimp only at hrest ⊢
      -- Neither the children nor the links take an answer.
      obtain ⟨hdrop, hinner⟩ := eq_of_suffix_of_suffix (List.drop_suffix _ _)
        (rests_suffix tags 0 children answers) hrest
      have hvalue := value_outcomes_of_rest_eq tags 0 hchildren hne hinner
      have hleft : (outcomes tags 0 children answers).rest ≠ [] := by
        rw [hinner]
        exact hne
      have hcalls := eq_nil_of_drop_eq hleft hdrop
      rw [hvalue] at hcalls ⊢
      rw [mergeText_outputs_of_no_calls (allWellFormed_settledAll tags hchildren) hcalls, settled,
        if_pos hadmits]

/-- Well-formed children from which no answer is taken settle. -/
theorem value_outcomes_of_rest_eq (tags : Tags) (i : Nat) : ∀ {ns : List Node},
    allWellFormed ns = true → ∀ {answers : List (List Node)}, answers ≠ [] →
    (outcomes tags i ns answers).rest = answers →
    (outcomes tags i ns answers).value = settledAll tags ns
  | [], _, _, _, _ => by
    rw [outcomes, settledAll]
  | child :: rest, h, answers, hne, hrest => by
    rw [allWellFormed, Bool.and_eq_true] at h
    by_cases ht : child.templates = []
    · rw [outcomes_of_no_templates ht] at hrest ⊢
      dsimp only at hrest ⊢
      obtain ⟨hothers, hfirst⟩ := eq_of_suffix_of_suffix (rests_suffix tags (i + 1) rest _)
        (rest_suffix tags child answers) hrest
      have hleft : (child.outcome tags answers).rest ≠ [] := by
        rw [hfirst]
        exact hne
      rw [value_outcome_of_rest_eq tags h.1 hne hfirst,
        value_outcomes_of_rest_eq tags (i + 1) h.2 hleft hothers, settledAll]
    · -- A text with templates takes an answer for each of them.
      rw [outcomes_of_templates ht] at hrest
      dsimp only at hrest
      obtain ⟨-, hdrop⟩ := eq_of_suffix_of_suffix (rests_suffix tags (i + 1) rest _)
        (List.drop_suffix _ _) hrest
      have hcalls := eq_nil_of_drop_eq hne hdrop
      rw [calls_templateSteps, List.map_eq_nil_iff, List.map_eq_nil_iff] at hcalls
      exact absurd hcalls ht

end

/-! ## Joined trees -/

mutual

/-- A tree with the texts joined in every container that a walk goes into. -/
def joined (tags : Tags) : Node → Node
  | .stray value => .stray value
  | .node head info children =>
    if tags.admits (.node head info children) then
      .node head info (joinRuns (joinedAll tags children))
    else .node head info children

/-- Trees with the texts joined in every container that a walk goes into. -/
def joinedAll (tags : Tags) : List Node → List Node
  | [] => []
  | n :: rest => joined tags n :: joinedAll tags rest

end

/-- A node that is cut and mended has the same values. -/
theorem plainTexts_refresh (n : Node) : (Link.refresh n).plainTexts = n.plainTexts := by
  cases h : n.text? with
  | none => rw [Link.refresh_of_text?_eq_none h]
  | some s =>
    have hn : (Link.refresh n).text? = some s := by rw [Link.text?_refresh, h]
    rw [plainTexts_of_text? h, plainTexts_of_text? hn]

mutual

/-- A settled tree is a joined one, but for what its text nodes carry. -/
theorem plainTexts_settled (tags : Tags) :
    ∀ n : Node, (n.settled tags).plainTexts = (n.joined tags).plainTexts
  | .stray value => by rw [settled, joined]
  | .node head info children => by
    rw [settled, joined]
    cases hadmits : tags.admits (.node head info children) with
    | false => rfl
    | true =>
      simp only [if_true]
      rw [plainTexts_node (text?_eq_none_of_admits hadmits _),
        plainTexts_node (text?_eq_none_of_admits hadmits _), List.map_map, ← mergeText_eq_joinRuns,
        map_plainTexts_mergeText, ← map_plainTexts_settledAll, ← map_plainTexts_mergeText]
      simp [Function.comp_def, plainTexts_refresh]

/-- Settled trees are joined ones, but for what their text nodes carry. -/
theorem map_plainTexts_settledAll (tags : Tags) : ∀ ns : List Node,
    (settledAll tags ns).map plainTexts = (joinedAll tags ns).map plainTexts
  | [] => by rw [settledAll, joinedAll]
  | n :: rest => by
    rw [settledAll, joinedAll, List.map_cons, List.map_cons, plainTexts_settled,
      map_plainTexts_settledAll]

end

/-! ## Rendering settled trees -/

mutual

/-- A settled tree is written as before. -/
theorem node_settled (tags : Tags) (form : Form) (replace : List Node → Except Fault String) :
    ∀ n : Node, Render.node form (fun _ => .keep) replace (n.settled tags) =
      Render.node form (fun _ => .keep) replace n
  | .stray value => by rw [settled]
  | .node head info children => by
    rw [settled]
    split
    · refine Render.node_congr form replace head info ?_ ?_
      · rw [Render.nodes_map_refresh, Render.nodes_mergeText, nodes_settledAll]
      · rw [List.isEmpty_map, Bool.eq_iff_iff, List.isEmpty_iff, List.isEmpty_iff,
          mergeText_eq_nil, settledAll_eq_nil]
    · rfl

/-- Settled trees are written as before. -/
theorem nodes_settledAll (tags : Tags) (form : Form) (replace : List Node → Except Fault String) :
    ∀ ns : List Node, Render.nodes form (fun _ => .keep) replace (settledAll tags ns) =
      Render.nodes form (fun _ => .keep) replace ns
  | [] => by rw [settledAll]
  | n :: rest => by
    rw [settledAll, Render.nodes_cons, Render.nodes_cons, node_settled, nodes_settledAll]

end

mutual

/-- A settled tree has its text as before. -/
theorem textOf_settled (tags : Tags) : ∀ n : Node, (n.settled tags).textOf = n.textOf
  | .stray value => by rw [settled]
  | .node head info children => by
    rw [settled]
    split
    · refine textOf_congr head info ?_
      rw [textsOf_map_refresh, textsOf_mergeText, textsOf_settledAll]
    · rfl

/-- Settled trees have their text as before. -/
theorem textsOf_settledAll (tags : Tags) : ∀ ns : List Node,
    textsOf (settledAll tags ns) = textsOf ns
  | [] => by rw [settledAll]
  | n :: rest => by
    rw [settledAll, textsOf_cons, textsOf_cons, textOf_settled, textsOf_settledAll]

end

/-- A settled tree is rendered as before, in every form. -/
theorem render_settled (tags : Tags) (form : Form) (n : Node) :
    render form .none [n.settled tags] = render form .none [n] := by
  unfold render Render.upTo
  rw [Render.nodes_cons, Render.nodes_cons, node_settled]

/-- A settled tree has the same text as before. -/
theorem toText_settled (tags : Tags) (n : Node) : toText [n.settled tags] = toText [n] := by
  unfold toText
  rw [textsOf_cons, textsOf_cons, textOf_settled]

end Node

/-! ## Runs without calls -/

namespace Context

variable {σ : Type} {ctx : Context σ}

/-- A well-formed tree settles in a walk that comes to its end without a call. -/
theorem value_visit_of_no_calls {n : Node} (hn : n.wellFormed = true) {st : State σ}
    (hst : ∀ head ∈ st.stack, head.isRegular = true) (hfault : (ctx.visit n st).fault = none)
    (hcalls : (ctx.visit n st).state.calls = st.calls) :
    (ctx.visit n st).value = n.settled ctx.excluded := by
  obtain ⟨talk, hends⟩ := visit_ok hn hst hfault
  obtain rfl := hends.talked.eq_nil hcalls
  -- The outcome for one answer to spare leaves this answer over.
  have houtcome := hends.outcome [[]]
  rw [List.map_nil, List.nil_append] at houtcome
  have hne : ([[]] : List (List Node)) ≠ [] := by simp
  have hrest : (n.outcome ctx.excluded [[]]).rest = [[]] := by rw [houtcome]
  rw [← Node.value_outcome_of_rest_eq ctx.excluded hn hne hrest, houtcome]

/-- A well-formed tree settles in a run that comes to its end without a call. -/
theorem value_process_of_no_calls {t : Node} (ht : t.wellFormed = true) {st : State σ}
    (hfault : (ctx.process t st).fault = none) (hcalls : (ctx.process t st).state.calls = st.calls) :
    (ctx.process t st).value = t.settled ctx.excluded := by
  rw [process_of_wellFormed ht] at hfault hcalls ⊢
  exact value_visit_of_no_calls ht (isRegular_of_mem_fresh st) hfault hcalls

/-- A well-formed tree that is processed without a call and without a failure. Each run of adjacent
texts in a container that the walk goes into is joined, nothing else changes but what text nodes
carry besides their values, and the tree is rendered as before. -/
theorem process_of_no_calls {t : Node} (ht : t.wellFormed = true) {st : State σ}
    (hfault : (ctx.process t st).fault = none) (hcalls : (ctx.process t st).state.calls = st.calls) :
    (ctx.process t st).value.plainTexts = (t.joined ctx.excluded).plainTexts ∧
      toMarkup [(ctx.process t st).value] = toMarkup [t] ∧
      toHtml [(ctx.process t st).value] = toHtml [t] ∧
      toText [(ctx.process t st).value] = toText [t] := by
  rw [value_process_of_no_calls ht hfault hcalls]
  exact ⟨Node.plainTexts_settled ctx.excluded t, Node.render_settled ctx.excluded .markup t,
    Node.render_settled ctx.excluded .html t, Node.toText_settled ctx.excluded t⟩

/-- A document with delimiters that make no link, in several texts. -/
def strayDelimiters : Node :=
  .root [.text "a [[#b", .text "]", .element "em" [] [.text "c ]] [[", .text "|d]]"], .text "]] e"]

/-- Delimiters that make no link are left in place, in one text for each run. -/
theorem process_of_no_calls_strayDelimiters :
    strayDelimiters.wellFormed = true ∧
      (echo.process strayDelimiters { world := () }).fault = none ∧
      (echo.process strayDelimiters { world := () }).state.calls = [] ∧
      (echo.process strayDelimiters { world := () }).value.plainTexts =
        (strayDelimiters.joined echo.excluded).plainTexts := by
  have hwell : strayDelimiters.wellFormed = true := by decide
  have hfault : (echo.process strayDelimiters { world := () }).fault = none := by decide +kernel
  have hcalls : (echo.process strayDelimiters { world := () }).state.calls = [] := by
    decide +kernel
  exact ⟨hwell, hfault, hcalls, (process_of_no_calls hwell hfault hcalls).1⟩

end Context

end Transclude
