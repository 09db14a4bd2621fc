import Transclude.Proofs.Walk.Need

/-!
# Processing a tree again

A tree that has settled is settled: its texts are merged, cut and mended already. Nor is there a link
in it, since the texts among the children of a container are the same before they are joined and
after. Templates are another matter, as they are searched in each text by itself: two texts without a
template may be joined to one that has some. So `process_process_of_no_calls` says that a tree which
was processed without a call is processed without one the second time exactly if no template has come
together. A walk that makes no call leaves a settled tree as it is in any case, even if it fails
(`value_visit_of_settled`).
-/

namespace Transclude

/-! ## Cutting and mending twice -/

namespace Link

/-- A node that was cut and mended stays when it is cut and mended again. -/
theorem refresh_refresh (n : Node) : refresh (refresh n) = refresh n := by
  cases hcut : isCut n with
  | false => rw [refresh_of_not_isCut hcut, refresh_of_not_isCut hcut]
  | true =>
    obtain ⟨s, hs⟩ : ∃ s, n.text? = some s := by
      cases hs : n.text? with
      | none => simp [isCut, hs] at hcut
      | some s => exact ⟨s, rfl⟩
    have htext : isCut (Node.text s) = true := by
      rw [isCut, hs] at hcut
      rw [isCut, Node.text?_text]
      exact hcut
    rw [refresh_of_isCut hs hcut, refresh_of_isCut (Node.text?_text s) htext]

/-- Nodes have the same texts after they are cut and mended. -/
theorem textPattern_map_refresh (ns : List Node) :
    Node.textPattern (ns.map refresh) = Node.textPattern ns := by
  unfold Node.textPattern
  rw [List.map_map]
  exact List.map_congr_left fun n _ => text?_refresh n

end Link

namespace Node

/-- Nodes that are merged already have the same links. -/
theorem linkSteps_mergeText (ns : List Node) : linkSteps (mergeText ns) = linkSteps ns := by
  unfold linkSteps
  rw [mergeText_of_apart (apart_mergeText ns)]

/-- The templates of a node are those of its text. -/
theorem templates_of_text?_eq {n m : Node} (h : n.text? = m.text?) :
    n.templates = m.templates := by
  unfold templates
  rw [h]

/-! ## Settling twice -/

section Settled

variable {tags : Tags} {head : Head} {info : Info} {children : List Node}

/-- Each of some trees settles by itself. -/
theorem settledAll_eq_map (tags : Tags) (ns : List Node) :
    settledAll tags ns = ns.map (settled tags) := by
  induction ns with
  | nil => rw [settledAll, List.map_nil]
  | cons n rest ih => rw [settledAll, List.map_cons, ih]

/-- A text has settled. -/
theorem settled_of_text? {n : Node} {s : String} (h : n.text? = some s) : n.settled tags = n :=
  settled_of_not_admits (admits_of_text? h tags)

/-- A node settles alike whether it is first cut and mended or last. -/
theorem settled_refresh (n : Node) :
    (Link.refresh n).settled tags = Link.refresh (n.settled tags) := by
  cases h : n.text? with
  | none =>
    have hsettled : (n.settled tags).text? = none := by rw [text?_settled, h]
    rw [Link.refresh_of_text?_eq_none h, Link.refresh_of_text?_eq_none hsettled]
  | some s =>
    have hrefresh : (Link.refresh n).text? = some s := by rw [Link.text?_refresh, h]
    rw [settled_of_text? h, settled_of_text? hrefresh]

/-- A container that a walk goes into has the same children when it settles, settled each, merged,
cut and mended. -/
theorem children_settled (h : tags.admits (.node head info children) = true) :
    ((Node.node head info children).settled tags).children =
      (mergeText (settledAll tags children)).map Link.refresh := by
  rw [settled, if_pos h]
  rfl

/-- A walk goes into a container that has settled if it went into it before. -/
theorem admits_settled (n : Node) : tags.admits (n.settled tags) = tags.admits n := by
  cases hadmits : tags.admits n with
  | false => rw [settled_of_not_admits hadmits, hadmits]
  | true =>
    cases n with
    | stray value => simp [Tags.admits] at hadmits
    | node head info children =>
      obtain ⟨hskips, hcontainer, hne⟩ :
          tags.skips head = false ∧ head.isContainer = true ∧ children ≠ [] := by
        simpa [Tags.admits, hasChildren] using hadmits
      rw [settled, if_pos hadmits]
      simp [Tags.admits, hasChildren, hskips, hcontainer, mergeText_eq_nil, settledAll_eq_nil, hne]

/-- A tree that has settled stays when it settles again. -/
theorem settled_settled (tags : Tags) (n : Node) :
    (n.settled tags).settled tags = n.settled tags := by
  cases n with
  | stray value => rw [settled, settled]
  | node head info children =>
    cases hadmits : tags.admits (.node head info children) with
    | false => rw [settled_of_not_admits hadmits, settled_of_not_admits hadmits]
    | true =>
      have hagain := hadmits
      rw [← admits_settled, settled, if_pos hadmits] at hagain
      -- Each child is a child that has settled, or a text.
      have hmerged : ∀ m ∈ mergeText (settledAll tags children), m.settled tags = m := by
        intro m hm
        rcases mem_mergeText hm with hm | ⟨s, rfl⟩
        · rw [settledAll_eq_map] at hm
          obtain ⟨child, hchild, rfl⟩ := List.mem_map.mp hm
          exact settled_settled tags child
        · exact settled_of_text? (text?_text s)
      have hsettled : settledAll tags ((mergeText (settledAll tags children)).map Link.refresh) =
          (mergeText (settledAll tags children)).map Link.refresh := by
        rw [settledAll_eq_map, List.map_map]
        refine List.map_congr_left fun m hm => ?_
        rw [Function.comp_apply, settled_refresh, hmerged m hm]
      have hapart := Link.apart_map_refresh (apart_mergeText (settledAll tags children))
      have hrefresh : (Link.refresh ∘ Link.refresh) = Link.refresh :=
        funext Link.refresh_refresh
      rw [settled, if_pos hadmits, settled, if_pos hagain, hsettled, mergeText_of_apart hapart,
        List.map_map, hrefresh]

/-! ## What is in a settled tree -/

/-- A child of a container that has settled is a text, or a child that has settled. -/
theorem exists_of_mem_children_settled (h : tags.admits (.node head info children) = true)
    {m : Node} (hm : m ∈ ((Node.node head info children).settled tags).children) :
    (∃ s, m.text? = some s) ∨ ∃ child ∈ children, m = child.settled tags := by
  rw [children_settled h] at hm
  obtain ⟨k, hk, rfl⟩ := List.mem_map.mp hm
  rcases mem_mergeText hk with hk | ⟨s, rfl⟩
  · rw [settledAll_eq_map] at hk
    obtain ⟨child, hchild, rfl⟩ := List.mem_map.mp hk
    cases htext : (child.settled tags).text? with
    | none => exact .inr ⟨child, hchild, Link.refresh_of_text?_eq_none htext⟩
    | some s => exact .inl ⟨s, by rw [Link.text?_refresh, htext]⟩
  · exact .inl ⟨s, by rw [Link.text?_refresh, text?_text]⟩

/-- The children of a container that has settled, and that a walk goes into, have settled. -/
theorem settled_of_mem_children (hadmits : tags.admits (.node head info children) = true)
    (h : (Node.node head info children).settled tags = .node head info children) :
    ∀ child ∈ children, child.settled tags = child := by
  intro child hchild
  have hmem : child ∈ ((Node.node head info children).settled tags).children := by
    rw [h]
    exact hchild
  rcases exists_of_mem_children_settled hadmits hmem with ⟨s, hs⟩ | ⟨before, -, rfl⟩
  · exact settled_of_text? hs
  · exact settled_settled tags before

/-- What is so of the children of every container when it settles is so of all containers of a tree
that has settled. -/
theorem forall_reached_settled {Q : Node → Prop} {P : List Node → Prop}
    (hbelow : ∀ head info children, tags.admits (.node head info children) = true →
      Q (.node head info children) → ∀ child ∈ children, Q child)
    (hhere : ∀ head info children, tags.admits (.node head info children) = true →
      Q (.node head info children) → P ((mergeText (settledAll tags children)).map Link.refresh)) :
    ∀ n : Node, Q n → ∀ p ∈ (n.settled tags).reached tags, ∀ m,
      at? p (n.settled tags) = some m → P m.children
  | .stray value, _, p, hp, _, _ => by simp [settled, reached] at hp
  | .node head info children, hq, p, hp, m, hat => by
    obtain ⟨hadmits, hplace⟩ := mem_reached.mp hp
    rw [admits_settled] at hadmits
    rcases hplace with rfl | ⟨i, k, q, rfl, hk, hq'⟩
    · obtain rfl := Option.some.inj hat
      rw [children_settled hadmits]
      exact hhere head info children hadmits hq
    · obtain ⟨k', hk', hat⟩ := at?_cons.mp hat
      obtain rfl : k = k' := Option.some.inj (hk.symm.trans hk')
      rcases exists_of_mem_children_settled hadmits (List.mem_of_getElem? hk) with
        ⟨s, hs⟩ | ⟨child, hchild, rfl⟩
      · -- A walk does not go into a text.
        rw [reached_of_not_admits (admits_of_text? hs tags)] at hq'
        simp at hq'
      · exact forall_reached_settled hbelow hhere child
          (hbelow head info children hadmits hq child hchild) q hq' m hat

/-- The children of an idle container are well formed and idle. -/
theorem idle_of_mem_children (hadmits : tags.admits (.node head info children) = true)
    (h : (Node.node head info children).wellFormed = true ∧
      (Node.node head info children).idle tags = true) :
    ∀ child ∈ children, child.wellFormed = true ∧ child.idle tags = true := by
  intro child hchild
  obtain ⟨hwell, hidle⟩ := h
  obtain ⟨hamong, -⟩ := (idle_of_admits hadmits).mp hidle
  exact ⟨allWellFormed_iff.mp (wellFormed_node.mp hwell).2.2 child hchild,
    (idleAmong_iff.mp hamong child hchild).2⟩

/-- There is no link in an idle tree that has settled. -/
theorem not_hasLink_settled {n : Node} (h : n.wellFormed = true ∧ n.idle tags = true) :
    ∀ p ∈ (n.settled tags).reached tags, ∀ m, at? p (n.settled tags) = some m →
      ¬ Link.HasLink m.children := by
  refine forall_reached_settled
    (Q := fun n => n.wellFormed = true ∧ n.idle tags = true)
    (P := fun ns => ¬ Link.HasLink ns)
    (fun head info children hadmits hq => idle_of_mem_children hadmits hq)
    (fun head info children hadmits hq => ?_) n h
  obtain ⟨hwell, hidle⟩ := hq
  obtain ⟨-, hcalls⟩ := (idle_of_admits hadmits).mp hidle
  have hchildren := (wellFormed_node.mp hwell).2.2
  have hsettled := wellFormed_settled tags hwell
  rw [settled, if_pos hadmits] at hsettled
  have hfit := isFit_of_allWellFormed (wellFormed_node.mp hsettled).2.2
  have hall : ∀ n ∈ settledAll tags children, n.isFit = true :=
    fun n hn => isFit_of_wellFormed (allWellFormed_settledAll tags hchildren n hn)
  -- Joining, cutting and mending change no text that a link could be found in.
  rw [← calls_linkSteps_eq_nil_iff hfit,
    calls_linkSteps_of_textPattern hfit (isFit_mergeText hall) (Link.textPattern_map_refresh _),
    linkSteps_mergeText, calls_linkSteps_of_textPattern hall (isFit_of_allWellFormed hchildren)
      (textPattern_settledAll tags children)]
  exact hcalls

/-- There is nothing to resolve in an idle tree that has settled, unless a template has come
together. -/
theorem idle_settled_iff {n : Node} (hn : n.wellFormed = true) (h : n.idle tags = true) :
    (n.settled tags).idle tags = true ↔ ∀ p m, (n.settled tags).IsReached tags p →
      at? p (n.settled tags) = some m → ¬ HasTemplate m.children := by
  have hwell := wellFormed_settled tags hn
  rw [idle_iff_forall_reached hwell]
  constructor
  · intro hall p m hp hat
    exact (hall p ((mem_reached_iff_isReached hwell).mpr hp) m hat).1
  · intro hall p hp m hat
    exact ⟨hall p m ((mem_reached_iff_isReached hwell).mp hp) hat,
      not_hasLink_settled ⟨hn, h⟩ p hp m hat⟩

/-- No template comes together in an idle tree without adjacent texts. -/
theorem not_hasTemplate_settled {n : Node} (hn : n.wellFormed = true) (h : n.idle tags = true)
    (hapart : n.textsApart = true) :
    ∀ p ∈ (n.settled tags).reached tags, ∀ m, at? p (n.settled tags) = some m →
      ¬ HasTemplate m.children := by
  have hall {ns : List Node} (h : allTextsApart ns = true) :
      ∀ n ∈ ns, n.textsApart = true := by
    induction ns with
    | nil => simp
    | cons n rest ih =>
      rw [allTextsApart, Bool.and_eq_true] at h
      exact List.forall_mem_cons.mpr ⟨h.1, ih h.2⟩
  refine forall_reached_settled
    (Q := fun n => (n.wellFormed = true ∧ n.idle tags = true) ∧ n.textsApart = true)
    (P := fun ns => ¬ HasTemplate ns) (fun head info children hadmits hq child hchild => ?_)
    (fun head info children hadmits hq => ?_) n ⟨⟨hn, h⟩, hapart⟩
  · rw [textsApart, Bool.and_eq_true] at hq
    exact ⟨idle_of_mem_children hadmits hq.1 child hchild, hall hq.2.2 child hchild⟩
  · rw [textsApart, Bool.and_eq_true, decide_eq_true_eq] at hq
    obtain ⟨⟨hwell, hidle⟩, hchildren, -⟩ := hq
    obtain ⟨hamong, -⟩ := (idle_of_admits hadmits).mp hidle
    -- Nothing is joined, so every text is one of those that were searched.
    rw [mergeText_of_apart (apart_settledAll tags hchildren), settledAll_eq_map, List.map_map,
      not_hasTemplate_iff]
    intro m hm
    obtain ⟨child, hchild, rfl⟩ := List.mem_map.mp hm
    have htext : (Link.refresh (child.settled tags)).text? = child.text? := by
      rw [Link.text?_refresh, text?_settled]
    rw [Function.comp_apply, templates_of_text?_eq htext]
    exact (idleAmong_iff.mp hamong child hchild).1

end Settled

end Node

open Node

namespace Context

variable {σ : Type} {ctx : Context σ}

/-! ## Walks through a settled tree -/

/-- The calls of a walk come after those that were made before. -/
theorem calls_prefix_visit (ctx : Context σ) {n : Node} (hn : n.wellFormed = true) (st : State σ)
    (hst : ∀ head ∈ st.stack, head.isRegular = true) :
    st.calls <+: (ctx.visit n st).state.calls := by
  have hkeeps := Script.keepsCalls_run ctx (n.script ctx.excluded) st
  have hrun := ctx.visit_eq_run hn st hst
  cases hscript : (n.script ctx.excluded).run ctx st with
  | ok m st' =>
    rw [hscript] at hkeeps hrun
    rw [hrun]
    exact hkeeps
  | error fault st' =>
    rw [hscript] at hkeeps hrun
    rw [hrun.2]
    exact hkeeps

/-- The calls of a walk through children come after those that were made before. -/
theorem calls_prefix_visitChildren (ctx : Context σ) {ns : List Node} (hns : allWellFormed ns = true)
    (st : State σ) (hst : ∀ head ∈ st.stack, head.isRegular = true) :
    st.calls <+: (ctx.visitChildren ns st).state.calls := by
  have hkeeps := Script.keepsCalls_run ctx (scripts ctx.excluded ns) st
  have hrun := ctx.visitChildren_eq_run hns st hst
  cases hscript : (scripts ctx.excluded ns).run ctx st with
  | ok spliced st' =>
    rw [hscript] at hkeeps hrun
    rw [hrun.2.2]
    exact hkeeps
  | error fault st' =>
    rw [hscript] at hkeeps hrun
    rw [hrun.2]
    exact hkeeps

/-- No call is made in a part of what makes no call. -/
theorem eq_of_prefix_of_prefix {before middle after : List Call} (h : before <+: middle)
    (h' : middle <+: after) (heq : after = before) : middle = before := by
  rw [heq] at h'
  exact h'.eq_of_length_le h.length_le

mutual

/-- A walk that makes no call leaves a settled tree as it is, whether it comes to its end or not. -/
theorem value_visit_of_settled : ∀ {n : Node}, n.wellFormed = true →
    n.settled ctx.excluded = n → ∀ {st : State σ}, (∀ head ∈ st.stack, head.isRegular = true) →
    (ctx.visit n st).state.calls = st.calls → (ctx.visit n st).value = n
  | .stray value, hn, _, _, _, _ => by simp [wellFormed] at hn
  | .node head info children, hn, hsettled, st, hst, hcalls => by
    cases hfault : (ctx.visit (.node head info children) st).fault with
    | none => rw [value_visit_of_no_calls hn hst hfault hcalls, hsettled]
    | some fault =>
      cases hadmits : ctx.excluded.admits (.node head info children) with
      | false => simp [visit_of_not_admits hn hadmits] at hfault
      | true =>
        obtain ⟨hr, -, hchildren⟩ := wellFormed_node.mp hn
        have hpush := isRegular_of_mem_push hr hst
        have hvisit := visit_of_admits hr hadmits st
        have hbelow := ctx.calls_prefix_visitChildren hchildren (st.push head) hpush
        have hstanding (h : (ctx.visitChildren children (st.push head)).state.calls = st.calls) :
            (ctx.visitChildren children (st.push head)).value.standing = children :=
          standing_visitChildren_of_settled hchildren (settled_of_mem_children hadmits hsettled)
            hpush h
        -- The container was not finished, so it has the children that it had, as they stand now.
        cases hearly : (ctx.visitChildren children (st.push head)).fault with
        | some fault' =>
          simp only [hearly] at hvisit
          rw [hvisit] at hcalls ⊢
          rw [hstanding hcalls]
        | none =>
          obtain ⟨talk, hends⟩ := visitChildren_ok (i := 0) hchildren hpush hearly
          cases hrun : ctx.finish (ctx.visitChildren children (st.push head)).value.spliced
              (ctx.visitChildren children (st.push head)).state with
          | ok given st₁ => simp [hvisit, hearly, hrun] at hfault
          | error fault' st₁ =>
            obtain ⟨answers, hbroke⟩ := finish_error (hends.talked.stack ▸ hpush) hrun
            obtain ⟨calls, hlast, -⟩ := hbroke.calls
            simp only [hearly, hrun] at hvisit
            rw [hvisit] at hcalls ⊢
            have hmade := eq_of_prefix_of_prefix hbelow (hlast ▸ List.prefix_append _ calls) hcalls
            rw [hstanding hmade]

/-- A walk that makes no call leaves settled children standing as they are. -/
theorem standing_visitChildren_of_settled : ∀ {ns : List Node}, allWellFormed ns = true →
    (∀ n ∈ ns, n.settled ctx.excluded = n) → ∀ {st : State σ},
    (∀ head ∈ st.stack, head.isRegular = true) →
    (ctx.visitChildren ns st).state.calls = st.calls →
    (ctx.visitChildren ns st).value.standing = ns
  | [], _, _, st, _, _ => by rw [visitChildren]
  | child :: rest, hns, hsettled, st, hst, hcalls => by
    rw [allWellFormed, Bool.and_eq_true] at hns
    obtain ⟨hchild, hrest⟩ := List.forall_mem_cons.mp hsettled
    by_cases ht : child.templates = []
    · have hvisit := visitChildren_of_no_templates ctx hns.1 ht rest st
      have hmade := ctx.calls_prefix_visit hns.1 st hst
      cases hfault : (ctx.visit child st).fault with
      | some fault =>
        simp only [hfault] at hvisit
        rw [hvisit] at hcalls ⊢
        rw [value_visit_of_settled hns.1 hchild hst hcalls]
      | none =>
        simp only [hfault] at hvisit
        rw [hvisit] at hcalls ⊢
        obtain ⟨talk, hends⟩ := visit_ok hns.1 hst hfault
        have hopen := hends.talked.stack ▸ hst
        -- Neither the first child nor the others make a call.
        have hlater := ctx.calls_prefix_visitChildren hns.2 _ hopen
        have hfirst := eq_of_prefix_of_prefix hmade hlater hcalls
        rw [value_visit_of_settled hns.1 hchild hst hfirst,
          standing_visitChildren_of_settled hns.2 hrest hopen (hcalls.trans hfirst.symm)]
    · have hvisit := visitChildren_of_templates ctx hns.1 ht rest st
      cases hrun : ctx.perform child.templateSteps st with
      | error fault st₁ =>
        simp only [hrun] at hvisit
        rw [hvisit]
      | ok nodes st₁ =>
        simp only [hrun] at hvisit
        rw [hvisit] at hcalls ⊢
        obtain ⟨talk, htalked, -⟩ := perform_ok hst hrun
        have hopen := htalked.stack ▸ hst
        have hmade : st.calls <+: st₁.calls := htalked.calls ▸ List.prefix_append _ _
        have hlater := ctx.calls_prefix_visitChildren hns.2 st₁ hopen
        have hfirst := eq_of_prefix_of_prefix hmade hlater hcalls
        rw [standing_visitChildren_of_settled hns.2 hrest hopen (hcalls.trans hfirst.symm)]

end

/-- A well-formed tree that was processed without a call and without a failure is processed again.
That makes no call and does not fail either exactly if no text in a container that is reached has a
template now, which is always so if there were no adjacent texts before; and whenever it makes no call,
it leaves the tree as it is, even if it fails. -/
theorem process_process_of_no_calls {t : Node} (ht : t.wellFormed = true) {st : State σ}
    (hfault : (ctx.process t st).fault = none) (hcalls : (ctx.process t st).state.calls = st.calls)
    (later : State σ) :
    (((ctx.process (ctx.process t st).value later).fault = none ∧
        (ctx.process (ctx.process t st).value later).state.calls = later.calls) ↔
      ∀ p n, (ctx.process t st).value.IsReached ctx.excluded p →
        Node.at? p (ctx.process t st).value = some n → ¬ Node.HasTemplate n.children) ∧
    ((ctx.process (ctx.process t st).value later).state.calls = later.calls →
      (ctx.process (ctx.process t st).value later).value = (ctx.process t st).value) ∧
    (t.textsApart = true → ∀ p n, (ctx.process t st).value.IsReached ctx.excluded p →
      Node.at? p (ctx.process t st).value = some n → ¬ Node.HasTemplate n.children) := by
  have hidle := idle_of_no_calls ht hfault hcalls
  have hwell := Node.wellFormed_settled ctx.excluded ht
  have hsettled := Node.settled_settled ctx.excluded t
  rw [value_process_of_no_calls ht hfault hcalls]
  refine ⟨?_, fun hcalls' => ?_, fun hapart p n hp hat => ?_⟩
  · rw [← Node.idle_settled_iff ht hidle]
    constructor
    · rintro ⟨hfault', hcalls'⟩
      exact idle_of_no_calls hwell hfault' hcalls'
    · intro hagain
      exact (process_of_idle hwell hagain later).2
  · rw [process_of_wellFormed hwell] at hcalls' ⊢
    exact value_visit_of_settled hwell hsettled (isRegular_of_mem_fresh later) hcalls'
  · exact Node.not_hasTemplate_settled ht hidle hapart p
      ((Node.mem_reached_iff_isReached hwell).mpr hp) n hat

/-- A document with adjacent texts that are joined when it is processed, and stays as it is then. -/
theorem process_process_of_no_calls_strayDelimiters :
    strayDelimiters.wellFormed = true ∧
      (echo.process strayDelimiters { world := () }).fault = none ∧
      (echo.process strayDelimiters { world := () }).state.calls = [] ∧
      (echo.process (echo.process strayDelimiters { world := () }).value { world := () }).value =
        (echo.process strayDelimiters { world := () }).value := by
  have hwell : strayDelimiters.wellFormed = true := by decide
  have hfault : (echo.process strayDelimiters { world := () }).fault = none := by decide +kernel
  have hcalls : (echo.process strayDelimiters { world := () }).state.calls = [] := by
    decide +kernel
  obtain ⟨-, hsame, -⟩ := process_process_of_no_calls hwell hfault hcalls { world := () }
  exact ⟨hwell, hfault, hcalls, hsame (by decide +kernel)⟩

/-- A document with two texts that have no template each and are joined to one that has. -/
def templateAcross : Node := .root [.text "::a", .text "::"]

/-- A template may come together when adjacent texts are joined. The document is processed without a
call, and when it is processed again there is one. -/
theorem process_process_templateAcross :
    templateAcross.wellFormed = true ∧
      (echo.process templateAcross { world := () }).fault = none ∧
      (echo.process templateAcross { world := () }).state.calls = [] ∧
      (echo.process (echo.process templateAcross { world := () }).value
        (echo.process templateAcross { world := () }).state).state.calls.length = 1 := by
  have hwell : templateAcross.wellFormed = true := by decide
  have hfault : (echo.process templateAcross { world := () }).fault = none := by decide +kernel
  have hcalls : (echo.process templateAcross { world := () }).state.calls = [] := by
    decide +kernel
  refine ⟨hwell, hfault, hcalls, ?_⟩
  decide +kernel

end Context

end Transclude
