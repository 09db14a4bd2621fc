import Transclude.Proofs.Walk.Outcome
import Transclude.Proofs.Link.Fate

/-!
# Walking through well-formed trees

In a well-formed tree it can be said of every node whether a walk goes into it, and every text can be
searched for templates. So the walk comes down to two kinds of steps, those for the templates of a
text and those for the links of a list of children. The equations of this module say how, and
`finish_ok` and `finish_error` what comes of the end of a container.
-/

namespace Transclude

open Node

variable {σ : Type} {ctx : Context σ}

namespace Context

section Equations

variable {n child : Node} {head : Head} {info : Info} {children : List Node}

/-- A walk leaves a node as it is that it does not go into. -/
theorem visit_of_not_admits (hn : n.wellFormed = true) (h : ctx.excluded.admits n = false)
    (st : State σ) : ctx.visit n st = ⟨n, none, st⟩ := by
  obtain ⟨head, info, children, rfl, hr⟩ := exists_of_wellFormed hn
  rw [visit, Tags.excludes_of_isRegular hr, Head.isBare_of_isRegular hr, Bool.and_false]
  cases hskips : ctx.excluded.skips head with
  | true => rfl
  | false =>
    have hchildren : (head.isContainer && !children.isEmpty) = false := by
      simpa [Tags.admits, hasChildren, hskips] using h
    simp [hchildren]

/-- A walk into a container goes through its children and then finishes it. -/
theorem visit_of_admits (hr : head.isRegular = true)
    (h : ctx.excluded.admits (.node head info children) = true) (st : State σ) :
    ctx.visit (.node head info children) st =
      let below := ctx.visitChildren children (st.push head)
      match below.fault with
      | some fault => ⟨.node head info below.value.standing, some fault, below.state.pop⟩
      | none =>
        match ctx.finish below.value.spliced below.state with
        | .ok finished st => ⟨.node head info finished, none, st.pop⟩
        | .error fault st => ⟨.node head info below.value.standing, some fault, st.pop⟩ := by
  obtain ⟨hskips, hchildren⟩ :
      ctx.excluded.skips head = false ∧ (head.isContainer && !children.isEmpty) = true := by
    simpa [Tags.admits, hasChildren] using h
  rw [visit, Tags.excludes_of_isRegular hr, Head.isBare_of_isRegular hr, Bool.and_false, hskips,
    hchildren]
  rfl

/-- Every well-formed node can be searched for templates. -/
theorem templatesIn_of_wellFormed (h : n.wellFormed = true) : templatesIn n = .ok n.templates := by
  have hsound := isText_of_isSound (isSound_of_wellFormed h)
  obtain ⟨head, info, children, rfl, hr⟩ := exists_of_wellFormed h
  cases htext : (Node.node head info children).text? with
  | some s => simp [templatesIn, templates, htext]
  | none =>
    have hkind : head.isKind .text = false := by simpa [htext, isText] using hsound
    simp [templatesIn, templates, htext, hkind]

/-- The templates of a text are expanded by its steps. -/
theorem expandTemplates_of_wellFormed (h : n.wellFormed = true) (ht : n.templates ≠ []) :
    ctx.expandTemplates n n.templates = ctx.perform n.templateSteps := by
  obtain ⟨s, hs⟩ := text?_of_templates ht
  obtain ⟨head, info, children, rfl, hr⟩ := exists_of_wellFormed h
  have hhead : head.text? = some s := by rw [← hs, text?_of_isRegular hr]
  obtain rfl : head = .text s := by
    cases head with
    | text t => rw [← Option.some.inj hhead]
    | _ => simp [Head.text?] at hhead
  have hne : (Node.node (.text s) info children).templates.isEmpty = false := by
    simpa using ht
  have hkind : (Head.text s).isKind .text = true := Head.isKind_of_isRegular hr .text
  rw [expandTemplates, hkind, hne]
  unfold templateSteps
  rw [hs, ← expandPieces_eq_perform]
  rfl

/-- A walk goes into a child without templates. -/
theorem visitChildren_of_no_templates (ctx : Context σ) (hchild : child.wellFormed = true)
    (h : child.templates = []) (rest : List Node) (st : State σ) :
    ctx.visitChildren (child :: rest) st =
      let visited := ctx.visit child st
      match visited.fault with
      | some fault => ⟨⟨visited.value :: rest, []⟩, some fault, visited.state⟩
      | none =>
        let others := ctx.visitChildren rest visited.state
        ⟨⟨visited.value :: others.value.standing, visited.value :: others.value.spliced⟩,
          others.fault, others.state⟩ := by
  have htemplates : templatesIn child = .ok [] := by rw [templatesIn_of_wellFormed hchild, h]
  cases hfault : (ctx.visit child st).fault with
  | some fault => simp only [visitChildren, htemplates, hfault]
  | none => simp only [visitChildren, htemplates, hfault]

/-- A walk expands a child with templates. -/
theorem visitChildren_of_templates (ctx : Context σ) (hchild : child.wellFormed = true)
    (h : child.templates ≠ []) (rest : List Node) (st : State σ) :
    ctx.visitChildren (child :: rest) st =
      match ctx.perform child.templateSteps st with
      | .error fault st => ⟨⟨child :: rest, []⟩, some fault, st⟩
      | .ok nodes st =>
        let others := ctx.visitChildren rest st
        ⟨⟨child :: others.value.standing, nodes ++ others.value.spliced⟩,
          others.fault, others.state⟩ := by
  rw [← expandTemplates_of_wellFormed hchild h, visitChildren, templatesIn_of_wellFormed hchild]
  cases ht : child.templates with
  | nil => exact absurd ht h
  | cons o os => rfl

end Equations

/-! ## Open containers -/

section Stack

variable {head : Head} {st st₁ : State σ}

/-- A container that was opened last is closed. -/
theorem pop_eq (h : st₁.stack = (st.push head).stack) : st₁.pop = { st₁ with stack := st.stack } := by
  unfold State.pop
  rw [h]
  simp [State.push]

/-- When a container is closed that was opened last, the others are open. -/
theorem stack_pop (h : st₁.stack = (st.push head).stack) : st₁.pop.stack = st.stack := by
  rw [pop_eq h]

/-- Containers that fit together are open after another one is opened. -/
theorem isRegular_of_mem_push (hr : head.isRegular = true)
    (hst : ∀ head ∈ st.stack, head.isRegular = true) :
    ∀ h ∈ (st.push head).stack, h.isRegular = true := by
  intro h hh
  rcases List.mem_append.mp hh with hh | hh
  · exact hst h hh
  · exact List.mem_singleton.mp hh ▸ hr

end Stack

/-! ## The end of a container -/

/-- Nodes that can be merged are merged. -/
theorem eq_of_merge_ok {ns ms : List Node} (h : merge ns = .ok ms) : ms = mergeText ns := by
  unfold merge at h
  split at h
  · simp at h
  · exact (Except.ok.inj h).symm

/-- Nodes that can be cut are cut. -/
theorem eq_of_tokenize_ok {ns : List Node} {items : List Link.Item}
    (h : Link.tokenize ns = .ok items) : items = Link.items ns := by
  unfold Link.tokenize at h
  split at h
  · simp at h
  · exact (Except.ok.inj h).symm

/-- The end of a container is the performance of the steps for its links. -/
theorem finish_eq_perform (ctx : Context σ) (children : List Node) (st : State σ) :
    (∃ fault, ctx.finish children st = .error fault st) ∨
      ctx.finish children st = match ctx.perform (linkSteps children) st with
        | .ok nodes st => Run.ofExcept (merge nodes) st
        | .error fault st => .error fault st := by
  unfold finish
  cases hmerge : merge children with
  | error fault => exact .inl ⟨fault, rfl⟩
  | ok merged =>
    obtain rfl := eq_of_merge_ok hmerge
    rw [Run.ofExcept_ok, pure_bind, resolveLinks]
    cases htokens : Link.tokenize (mergeText children) with
    | error fault => exact .inl ⟨fault, rfl⟩
    | ok items =>
      obtain rfl := eq_of_tokenize_ok htokens
      right
      rw [Run.ofExcept_ok, pure_bind, Run.bind_apply, resolveGroups_eq_perform]
      unfold linkSteps
      cases ctx.perform ((Link.groups (Link.items (mergeText children))).map Step.ofGroup) st <;>
        rfl

/-- A container that is finished is given the nodes of its link steps, merged. -/
theorem finish_ok {children given : List Node} {st st' : State σ}
    (hst : ∀ head ∈ st.stack, head.isRegular = true)
    (h : ctx.finish children st = .ok given st') :
    ∃ talk, ctx.Talked st talk st' ∧ talk.map Prod.fst = Step.calls (linkSteps children) ∧
      given = mergeText (Step.outputs (linkSteps children) (talk.map Prod.snd)) := by
  rcases finish_eq_perform ctx children st with ⟨fault, hfail⟩ | hperform
  · simp [hfail] at h
  · rw [hperform] at h
    cases hrun : ctx.perform (linkSteps children) st with
    | error fault st₁ => simp [hrun] at h
    | ok nodes st₁ =>
      obtain ⟨talk, htalk, hcalls, rfl⟩ := perform_ok hst hrun
      rw [hrun] at h
      dsimp only at h
      cases hmerge : merge (Step.outputs (linkSteps children) (talk.map Prod.snd)) with
      | error fault => simp [hmerge] at h
      | ok merged =>
        obtain ⟨rfl, rfl⟩ : merged = given ∧ st₁ = st' := by simpa [hmerge] using h
        exact ⟨talk, htalk, hcalls, eq_of_merge_ok hmerge⟩

/-- A container whose end fails may have got answers before. -/
theorem finish_error {children : List Node} {st st' : State σ} {fault : Fault}
    (hst : ∀ head ∈ st.stack, head.isRegular = true)
    (h : ctx.finish children st = .error fault st') :
    ∃ answers, ctx.BrokeOff st answers st' := by
  rcases finish_eq_perform ctx children st with ⟨fault', hfail⟩ | hperform
  · obtain ⟨-, rfl⟩ : fault' = fault ∧ st = st' := by simpa [hfail] using h
    exact ⟨[], .nil rfl rfl⟩
  · rw [hperform] at h
    cases hrun : ctx.perform (linkSteps children) st with
    | error fault₁ st₁ =>
      obtain ⟨-, rfl⟩ : fault₁ = fault ∧ st₁ = st' := by simpa [hrun] using h
      exact perform_error hst hrun
    | ok nodes st₁ =>
      obtain ⟨talk, htalk, -, -⟩ := perform_ok hst hrun
      rw [hrun] at h
      dsimp only at h
      cases hmerge : merge nodes with
      | ok merged => simp [hmerge] at h
      | error fault₁ =>
        obtain ⟨-, rfl⟩ : fault₁ = fault ∧ st₁ = st' := by simpa [hmerge] using h
        exact ⟨_, htalk.brokeOff (.nil rfl rfl)⟩

/-! ## Where nodes come from -/

/-- The step for a group keeps nothing but the group with its delimiters, which become new texts. -/
theorem mem_kept_ofGroup {g : Link.Group} {n : Node} (h : n ∈ (Step.ofGroup g).kept) :
    n ∈ g.nodes ∨ ∃ s, n = text s := by
  have hrestore : n ∈ g.restore := by
    unfold Step.ofGroup at h
    split at h
    · simp [Step.kept] at h
    · simp [Step.kept] at h
    · split at h
      · simp [Step.kept] at h
      · exact h
      · exact h
  unfold Link.Group.restore at hrestore
  rw [List.mem_append, List.mem_append] at hrestore
  rcases hrestore with (h | h) | h
  · split at h
    · exact .inr ⟨_, List.mem_singleton.mp h⟩
    · simp at h
  · exact .inl h
  · split at h
    · exact .inr ⟨_, List.mem_singleton.mp h⟩
    · simp at h

/-- The children that a container is given at its end are those it has, texts, and nodes of
answers. -/
theorem sourced_mergeText_outputs {ns : List Node} {answers : List (List Node)} :
    ∀ n ∈ mergeText (Step.outputs (linkSteps ns) answers), Sourced answers ns n := by
  intro n hn
  rcases mem_mergeText hn with hn | ⟨s, rfl⟩
  · rcases Step.mem_outputs hn with ⟨step, hstep, hkept⟩ | hanswer
    · obtain ⟨g, hg, rfl⟩ := List.mem_map.mp hstep
      rcases mem_kept_ofGroup hkept with hnode | ⟨s, rfl⟩
      · have hitem := Link.mem_of_mem_groups hg hnode
        rcases Link.mem_items hitem with hmem | ⟨s, rfl⟩
        · rcases mem_mergeText hmem with hmem | ⟨s, rfl⟩
          · exact .inl hmem
          · exact .inr (.inl (isText_text s))
        · exact .inr (.inl (isText_text s))
      · exact .inr (.inl (isText_text s))
    · exact .inr (.inr hanswer)
  · exact .inr (.inl (isText_text s))

/-- The nodes that a text is expanded to are texts and nodes of answers. -/
theorem sourced_outputs_templateSteps {m : Node} {answers : List (List Node)} {own : List Node} :
    ∀ n ∈ Step.outputs m.templateSteps answers, Sourced answers own n := by
  intro n hn
  rcases Step.mem_outputs hn with ⟨step, hstep, hkept⟩ | hanswer
  · obtain ⟨piece, -, rfl⟩ := List.mem_map.mp hstep
    cases piece with
    | literal s =>
      obtain rfl : n = text s := List.mem_singleton.mp hkept
      exact .inr (.inl (isText_text s))
    | call call => simp [Step.ofPiece, Step.kept] at hkept
  · exact .inr (.inr hanswer)

/-! ## The beginning of a run -/

/-- The state in which a run begins: the messages about the document before are forgotten, and no
container is open. -/
def fresh (st : State σ) : State σ := { st with messages := {}, stack := [] }

/-- A well-formed tree is processed by a walk. -/
theorem process_of_wellFormed {t : Node} (h : t.wellFormed = true) (st : State σ) :
    ctx.process t st = ctx.visit t (fresh st) := by
  obtain ⟨head, info, children, rfl, -⟩ := exists_of_wellFormed h
  rfl

/-- No container is open when a run begins. -/
theorem isRegular_of_mem_fresh (st : State σ) :
    ∀ head ∈ (fresh st).stack, head.isRegular = true := by
  simp [fresh]

end Context

end Transclude
