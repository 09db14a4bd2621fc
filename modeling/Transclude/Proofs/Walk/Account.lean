import Transclude.Proofs.Walk.Visit

/-!
# Accounts of walks

An account tells which containers a walk through a well-formed tree finishes, with the children that
they are given, and in which container it fails, if it does. `visit_ok` and `visit_error` tie it to
what the resolvers answer: a walk that comes to its end has the outcome of the answers that it heard,
and one that fails has finished containers as that outcome does, up to the container that it fails
in.
-/

namespace Transclude

open Node

variable {σ : Type}

/-- What a walk does to a tree. -/
structure Account where
  /-- The containers that are finished, in order. -/
  finished : List Finish := []
  /-- The place of the container that is being processed when the walk fails, if it does. -/
  failedIn : Option Place := none

/-- An account of the child at an index, as seen from the parent. -/
def Account.under (i : Nat) (a : Account) : Account :=
  ⟨a.finished.map (Finish.under i), a.failedIn.map (i :: ·)⟩

namespace Context

mutual

/-- The account of a walk through a well-formed tree. -/
def account (ctx : Context σ) : Node → State σ → Account
  | .stray _, _ => {}
  | .node head info children, st =>
    if ctx.excluded.admits (.node head info children) then
      let below := ctx.visitChildren children (st.push head)
      let inner := accountFrom ctx 0 children (st.push head)
      match below.fault with
      | some _ => inner
      | none =>
        match ctx.finish below.value.spliced below.state with
        | .ok given _ => ⟨inner.finished ++ [([], given)], none⟩
        | .error _ _ => ⟨inner.finished, some []⟩
    else {}

/-- The account of a walk through children from an index on. -/
def accountFrom (ctx : Context σ) (i : Nat) : List Node → State σ → Account
  | [], _ => {}
  | child :: rest, st =>
    if child.templates.isEmpty then
      let first := (account ctx child st).under i
      match (ctx.visit child st).fault with
      | some _ => first
      | none =>
        let others := accountFrom ctx (i + 1) rest (ctx.visit child st).state
        ⟨first.finished ++ others.finished, others.failedIn⟩
    else
      match ctx.perform child.templateSteps st with
      | .ok _ st => accountFrom ctx (i + 1) rest st
      | .error _ _ => ⟨[], some []⟩

end

variable {ctx : Context σ}

/-- What a walk does not go into has nothing to tell. -/
theorem account_of_not_admits {n : Node} (h : ctx.excluded.admits n = false) (st : State σ) :
    ctx.account n st = {} := by
  cases n with
  | stray value => rw [account]
  | node head info children =>
    rw [account, h]
    rfl

section Equations

variable {child : Node} {st st₁ : State σ}

/-- Children are told of after a child that is walked through. -/
theorem accountFrom_of_no_templates (ht : child.templates = [])
    (hfault : (ctx.visit child st).fault = none) (i : Nat) (rest : List Node) :
    ctx.accountFrom i (child :: rest) st =
      ⟨(ctx.account child st).finished.map (Finish.under i) ++
          (ctx.accountFrom (i + 1) rest (ctx.visit child st).state).finished,
        (ctx.accountFrom (i + 1) rest (ctx.visit child st).state).failedIn⟩ := by
  rw [accountFrom, ht, hfault]
  rfl

/-- There is nothing to tell of a child that is expanded. -/
theorem accountFrom_of_templates (ht : child.templates ≠ []) {nodes : List Node}
    (hrun : ctx.perform child.templateSteps st = .ok nodes st₁) (i : Nat) (rest : List Node) :
    ctx.accountFrom i (child :: rest) st = ctx.accountFrom (i + 1) rest st₁ := by
  rw [accountFrom, if_neg (by simpa using ht), hrun]

/-- There are as many answers in a talk as calls. -/
theorem length_answers {talk : List (Call × List Node)} {calls : List Call}
    (h : talk.map Prod.fst = calls) : (talk.map Prod.snd).length = calls.length := by
  rw [← h, List.length_map, List.length_map]

end Equations

/-! ## Walks that end and walks that fail -/

/-- A walk through a node comes to its end after a talk with the resolvers. -/
structure Ends (ctx : Context σ) (n : Node) (st : State σ) (talk : List (Call × List Node)) :
    Prop where
  /-- The talk is the one that was had. -/
  talked : ctx.Talked st talk (ctx.visit n st).state
  /-- The walk has the outcome of the answers, and takes no others. -/
  outcome : ∀ more, n.outcome ctx.excluded (talk.map Prod.snd ++ more) =
    ⟨(ctx.visit n st).value, (ctx.account n st).finished, more⟩
  /-- The tree changes as the account says. -/
  becomes : Becomes (talk.map Prod.snd) n (ctx.account n st).finished (ctx.visit n st).value

/-- A walk through a node fails in the container at a place, after it heard some answers. -/
structure Fails (ctx : Context σ) (n : Node) (st : State σ) (answers : List (List Node))
    (p : Place) : Prop where
  /-- The answers are those that were heard. -/
  brokeOff : ctx.BrokeOff st answers (ctx.visit n st).state
  /-- The account names the place. -/
  failedIn : (ctx.account n st).failedIn = some p
  /-- The place is one that the walk goes to. -/
  reached : p ∈ n.reached ctx.excluded
  /-- The containers that are finished are the first of those in any outcome of the answers. -/
  finished : ∀ more, (ctx.account n st).finished <+:
    (n.outcome ctx.excluded (answers ++ more)).finished
  /-- The tree changes as the account says. -/
  becomes : Becomes answers n (ctx.account n st).finished (ctx.visit n st).value
  /-- No container around the place is finished, nor is the one at the place. -/
  around : ∀ f ∈ (ctx.account n st).finished, ¬ f.1 <+: p

/-- A walk through children from an index on comes to its end after a talk with the resolvers. -/
structure ChildrenEnd (ctx : Context σ) (i : Nat) (ns : List Node) (st : State σ)
    (talk : List (Call × List Node)) : Prop where
  /-- The talk is the one that was had. -/
  talked : ctx.Talked st talk (ctx.visitChildren ns st).state
  /-- The walk has the outcome of the answers, and takes no others. -/
  outcome : ∀ more, outcomes ctx.excluded i ns (talk.map Prod.snd ++ more) =
    ⟨(ctx.visitChildren ns st).value.spliced, (ctx.accountFrom i ns st).finished, more⟩
  /-- The parent changes as the account says. -/
  becomes : ∀ (head : Head) (info : Info) (front : List Node), front.length = i →
    Becomes (talk.map Prod.snd) (.node head info (front ++ ns)) (ctx.accountFrom i ns st).finished
      (.node head info (front ++ (ctx.visitChildren ns st).value.standing))
  /-- What the children become is what stands there, texts, and nodes of answers. -/
  sourced : ∀ n ∈ (ctx.visitChildren ns st).value.spliced,
    Sourced (talk.map Prod.snd) (ctx.visitChildren ns st).value.standing n

/-- A walk through children from an index on fails, in the parent or in a container among the
children, after it heard some answers. -/
structure ChildrenFail (ctx : Context σ) (i : Nat) (ns : List Node) (st : State σ)
    (answers : List (List Node)) (p : Place) : Prop where
  /-- The answers are those that were heard. -/
  brokeOff : ctx.BrokeOff st answers (ctx.visitChildren ns st).state
  /-- The account names the place. -/
  failedIn : (ctx.accountFrom i ns st).failedIn = some p
  /-- The place is the parent's or one that the walk goes to. -/
  reached : p = [] ∨ p ∈ reachedFrom ctx.excluded i ns
  /-- The containers that are finished are the first of those in any outcome of the answers. -/
  finished : ∀ more, (ctx.accountFrom i ns st).finished <+:
    (outcomes ctx.excluded i ns (answers ++ more)).finished
  /-- The parent changes as the account says. -/
  becomes : ∀ (head : Head) (info : Info) (front : List Node), front.length = i →
    Becomes answers (.node head info (front ++ ns)) (ctx.accountFrom i ns st).finished
      (.node head info (front ++ (ctx.visitChildren ns st).value.standing))
  /-- No container around the place is finished, nor is the one at the place. -/
  around : ∀ f ∈ (ctx.accountFrom i ns st).finished, ¬ f.1 <+: p

/-! ## Walks that end -/

section Ends

variable {n child : Node} {rest : List Node} {st : State σ} {i : Nat}

/-- A walk that does not go into a node ends with it. -/
theorem ends_of_not_admits (hn : n.wellFormed = true) (h : ctx.excluded.admits n = false) :
    ctx.Ends n st [] := by
  have hvisit := visit_of_not_admits hn h st
  have haccount := account_of_not_admits h st
  refine ⟨?_, fun more => ?_, ?_⟩
  · rw [hvisit]
    exact .nil rfl rfl rfl
  · rw [hvisit, haccount, outcome_of_not_admits h]
    rfl
  · rw [hvisit, haccount]
    exact .nil n

/-- No children are walked through without a word. -/
theorem childrenEnd_nil : ctx.ChildrenEnd i [] st [] := by
  have hvisit : ctx.visitChildren [] st = ⟨{}, none, st⟩ := by rw [visitChildren]
  have haccount : ctx.accountFrom i [] st = {} := by rw [accountFrom]
  refine ⟨?_, fun more => ?_, fun head info front _ => ?_, ?_⟩
  · rw [hvisit]
    exact .nil rfl rfl rfl
  · rw [hvisit, haccount, outcomes]
    rfl
  · rw [hvisit, haccount]
    exact .nil _
  · simp [hvisit]

/-- Children are walked through after a child that is walked through. -/
theorem ChildrenEnd.cons_visit {talk more : List (Call × List Node)}
    (hchild : child.wellFormed = true) (ht : child.templates = [])
    (hfault : (ctx.visit child st).fault = none) (hfirst : ctx.Ends child st talk)
    (hrest : ctx.ChildrenEnd (i + 1) rest (ctx.visit child st).state more) :
    ctx.ChildrenEnd i (child :: rest) st (talk ++ more) := by
  have hvisit := visitChildren_of_no_templates ctx hchild ht rest st
  have haccount := accountFrom_of_no_templates ht hfault i rest
  simp only [hfault] at hvisit
  refine ⟨?_, fun answers => ?_, fun head info front hfront => ?_, fun n hn => ?_⟩
  · rw [hvisit]
    exact hfirst.talked.append hrest.talked
  · rw [hvisit, haccount, outcomes_of_no_templates ht, List.map_append, List.append_assoc,
      hfirst.outcome]
    dsimp only
    rw [hrest.outcome]
  · rw [hvisit, haccount, List.map_append]
    exact hfirst.becomes.cons_children hrest.becomes head info hfront
  · rw [hvisit] at hn ⊢
    rw [List.map_append]
    rcases List.mem_cons.mp hn with rfl | hn
    · exact .inl List.mem_cons_self
    · exact ((hrest.sourced n hn).of_back _).imp_left (List.mem_cons_of_mem _)

/-- Children are walked through after a child that is expanded. -/
theorem ChildrenEnd.cons_expand {talk more : List (Call × List Node)} {nodes : List Node}
    {st₁ : State σ} (hchild : child.wellFormed = true) (ht : child.templates ≠ [])
    (hrun : ctx.perform child.templateSteps st = .ok nodes st₁)
    (htalked : ctx.Talked st talk st₁) (hcalls : talk.map Prod.fst = Step.calls child.templateSteps)
    (hnodes : nodes = Step.outputs child.templateSteps (talk.map Prod.snd))
    (hrest : ctx.ChildrenEnd (i + 1) rest st₁ more) :
    ctx.ChildrenEnd i (child :: rest) st (talk ++ more) := by
  have hvisit := visitChildren_of_templates ctx hchild ht rest st
  have haccount := accountFrom_of_templates ht hrun i rest
  have hlength := length_answers hcalls
  simp only [hrun] at hvisit
  refine ⟨?_, fun answers => ?_, fun head info front hfront => ?_, fun n hn => ?_⟩
  · rw [hvisit]
    exact htalked.append hrest.talked
  · rw [hvisit, haccount, outcomes_of_templates ht, List.map_append, List.append_assoc,
      ← hlength, List.drop_left, hrest.outcome, Step.outputs_append hlength, ← hnodes]
  · rw [hvisit, haccount, List.map_append]
    exact .stay_children hrest.becomes _ child head info hfront
  · rw [hvisit] at hn ⊢
    rw [List.map_append]
    rcases List.mem_append.mp hn with hn | hn
    · rw [hnodes] at hn
      exact (sourced_outputs_templateSteps n hn).of_front _
    · exact ((hrest.sourced n hn).of_back _).imp_left (List.mem_cons_of_mem _)

/-- A container is finished after a walk through its children. -/
theorem Ends.node {head : Head} {info : Info} {children given : List Node}
    {talk more : List (Call × List Node)} {st₁ : State σ} (hr : head.isRegular = true)
    (hadmits : ctx.excluded.admits (.node head info children) = true)
    (hfault : (ctx.visitChildren children (st.push head)).fault = none)
    (hrun : ctx.finish (ctx.visitChildren children (st.push head)).value.spliced
      (ctx.visitChildren children (st.push head)).state = .ok given st₁)
    (hchildren : ctx.ChildrenEnd 0 children (st.push head) talk)
    (htalked : ctx.Talked (ctx.visitChildren children (st.push head)).state more st₁)
    (hcalls : more.map Prod.fst =
      Step.calls (linkSteps (ctx.visitChildren children (st.push head)).value.spliced))
    (hgiven : given = mergeText (Step.outputs
      (linkSteps (ctx.visitChildren children (st.push head)).value.spliced)
      (more.map Prod.snd))) :
    ctx.Ends (.node head info children) st (talk ++ more) := by
  have hvisit := visit_of_admits hr hadmits st
  have haccount : ctx.account (.node head info children) st =
      ⟨(ctx.accountFrom 0 children (st.push head)).finished ++ [([], given)], none⟩ := by
    rw [account, if_pos hadmits]
    simp only [hfault, hrun]
  have hlength := length_answers hcalls
  simp only [hfault, hrun] at hvisit
  refine ⟨?_, fun answers => ?_, ?_⟩
  · -- The container that was opened is closed.
    have hall := hchildren.talked.append htalked
    rw [hvisit]
    refine ⟨hall.hears, hall.calls, ?_⟩
    exact stack_pop hall.stack
  · rw [hvisit, haccount, outcome_of_admits hadmits, List.map_append, List.append_assoc,
      hchildren.outcome]
    -- The links take the answers that the children left.
    dsimp only
    rw [Step.outputs_append hlength, ← hlength, List.drop_left, ← hgiven]
  · rw [hvisit, haccount, List.map_append]
    have hinner := hchildren.becomes head info [] rfl
    simp only [List.nil_append] at hinner
    -- The container is finished last, after all that is below it.
    refine (hinner.of_front _).append (.single rfl fun child hmem => ?_)
    rw [hgiven] at hmem
    rcases sourced_mergeText_outputs child hmem with hown | htext | hanswer
    · exact (hchildren.sourced child hown).of_front _
    · exact .inr (.inl htext)
    · exact (Sourced.of_back (.inr (.inr hanswer)) _)

end Ends

mutual

/-- A walk through a well-formed tree that does not fail comes to its end. -/
theorem visit_ok : ∀ {n : Node}, n.wellFormed = true → ∀ {st : State σ},
    (∀ head ∈ st.stack, head.isRegular = true) → (ctx.visit n st).fault = none →
    ∃ talk, ctx.Ends n st talk
  | .stray value, hn, _, _, _ => by simp [wellFormed] at hn
  | .node head info children, hn, st, hst, hfault => by
    cases hadmits : ctx.excluded.admits (.node head info children) with
    | false => exact ⟨[], ends_of_not_admits hn hadmits⟩
    | true =>
      obtain ⟨hr, -, hchildren⟩ := wellFormed_node.mp hn
      have hpush := isRegular_of_mem_push hr hst
      have hvisit := visit_of_admits hr hadmits st
      cases hbelow : (ctx.visitChildren children (st.push head)).fault with
      | some fault => simp [hvisit, hbelow] at hfault
      | none =>
        obtain ⟨talk, hends⟩ := visitChildren_ok (i := 0) hchildren hpush hbelow
        cases hrun : ctx.finish (ctx.visitChildren children (st.push head)).value.spliced
            (ctx.visitChildren children (st.push head)).state with
        | error fault st₁ => simp [hvisit, hbelow, hrun] at hfault
        | ok given st₁ =>
          obtain ⟨more, htalked, hcalls, hgiven⟩ := finish_ok (hends.talked.stack ▸ hpush) hrun
          exact ⟨talk ++ more, .node hr hadmits hbelow hrun hends htalked hcalls hgiven⟩

/-- A walk through well-formed children that does not fail comes to its end. -/
theorem visitChildren_ok {i : Nat} : ∀ {ns : List Node}, allWellFormed ns = true →
    ∀ {st : State σ}, (∀ head ∈ st.stack, head.isRegular = true) →
    (ctx.visitChildren ns st).fault = none → ∃ talk, ctx.ChildrenEnd i ns st talk
  | [], _, _, _, _ => ⟨[], childrenEnd_nil⟩
  | child :: rest, hns, st, hst, hfault => by
    rw [allWellFormed, Bool.and_eq_true] at hns
    by_cases ht : child.templates = []
    · have hvisit := visitChildren_of_no_templates ctx hns.1 ht rest st
      cases hfirst : (ctx.visit child st).fault with
      | some fault => simp [hvisit, hfirst] at hfault
      | none =>
        obtain ⟨talk, hends⟩ := visit_ok hns.1 hst hfirst
        simp only [hvisit, hfirst] at hfault
        obtain ⟨more, hmore⟩ := visitChildren_ok (i := i + 1) hns.2
          (hends.talked.stack ▸ hst) hfault
        exact ⟨talk ++ more, .cons_visit hns.1 ht hfirst hends hmore⟩
    · have hvisit := visitChildren_of_templates ctx hns.1 ht rest st
      cases hrun : ctx.perform child.templateSteps st with
      | error fault st₁ => simp [hvisit, hrun] at hfault
      | ok nodes st₁ =>
        obtain ⟨talk, htalked, hcalls, hnodes⟩ := perform_ok hst hrun
        simp only [hvisit, hrun] at hfault
        obtain ⟨more, hmore⟩ := visitChildren_ok (i := i + 1) hns.2
          (htalked.stack ▸ hst) hfault
        exact ⟨talk ++ more, .cons_expand hns.1 ht hrun htalked hcalls hnodes hmore⟩

end

/-! ## Walks that fail -/

section Fails

variable {child : Node} {rest : List Node} {st st₁ : State σ} {i : Nat}
  {answers : List (List Node)} {talk : List (Call × List Node)} {p : Place} {fault : Fault}

/-- A place in a later child is not in an earlier one. -/
theorem not_prefix_of_reachedFrom {tags : Tags} (hp : p = [] ∨ p ∈ reachedFrom tags (i + 1) rest)
    (q : Place) : ¬ i :: q <+: p := by
  rcases hp with rfl | hp
  · simp
  · obtain ⟨j, p', rfl, hij⟩ := exists_of_mem_reachedFrom hp
    rw [List.cons_prefix_cons]
    omega

/-- A walk through children fails in a child. -/
theorem ChildrenFail.here (hchild : child.wellFormed = true) (ht : child.templates = [])
    (hfault : (ctx.visit child st).fault = some fault) (hfails : ctx.Fails child st answers p) :
    ctx.ChildrenFail i (child :: rest) st answers (i :: p) := by
  have hvisit := visitChildren_of_no_templates ctx hchild ht rest st
  have haccount : ctx.accountFrom i (child :: rest) st = (ctx.account child st).under i := by
    rw [accountFrom, ht, hfault]
    rfl
  simp only [hfault] at hvisit
  refine ⟨?_, ?_, .inr ?_, fun more => ?_, fun head info front hfront => ?_, fun f hf => ?_⟩
  · rw [hvisit]
    exact hfails.brokeOff
  · rw [haccount, Account.under, hfails.failedIn]
    rfl
  · rw [reachedFrom]
    exact List.mem_append_left _ (List.mem_map.mpr ⟨p, hfails.reached, rfl⟩)
  · rw [haccount, outcomes_of_no_templates ht]
    exact ((hfails.finished more).map _).trans (List.prefix_append _ _)
  · rw [hvisit, haccount]
    have hunder := hfails.becomes.under head info front rest
    rw [hfront] at hunder
    exact hunder
  · rw [haccount] at hf
    obtain ⟨g, hg, rfl⟩ := List.mem_map.mp hf
    rw [Finish.under, List.cons_prefix_cons]
    exact fun h => hfails.around g hg h.2

/-- A walk through children fails after a child that is walked through. -/
theorem ChildrenFail.cons_visit (hchild : child.wellFormed = true) (ht : child.templates = [])
    (hfault : (ctx.visit child st).fault = none) (hfirst : ctx.Ends child st talk)
    (hrest : ctx.ChildrenFail (i + 1) rest (ctx.visit child st).state answers p) :
    ctx.ChildrenFail i (child :: rest) st (talk.map Prod.snd ++ answers) p := by
  have hvisit := visitChildren_of_no_templates ctx hchild ht rest st
  have haccount := accountFrom_of_no_templates ht hfault i rest
  simp only [hfault] at hvisit
  refine ⟨?_, ?_, ?_, fun more => ?_, fun head info front hfront => ?_, fun f hf => ?_⟩
  · rw [hvisit]
    exact hfirst.talked.brokeOff hrest.brokeOff
  · rw [haccount]
    exact hrest.failedIn
  · rw [reachedFrom]
    exact hrest.reached.imp_right (List.mem_append_right _)
  · rw [haccount, outcomes_of_no_templates ht, List.append_assoc, hfirst.outcome]
    dsimp only
    rw [List.prefix_append_right_inj]
    exact hrest.finished more
  · rw [hvisit, haccount]
    exact hfirst.becomes.cons_children hrest.becomes head info hfront
  · rw [haccount] at hf
    rcases List.mem_append.mp hf with hf | hf
    · obtain ⟨g, -, rfl⟩ := List.mem_map.mp hf
      exact not_prefix_of_reachedFrom hrest.reached g.1
    · exact hrest.around f hf

/-- A walk through children fails when a child is expanded. -/
theorem ChildrenFail.here_expand (hchild : child.wellFormed = true) (ht : child.templates ≠ [])
    (hrun : ctx.perform child.templateSteps st = .error fault st₁)
    (hbroke : ctx.BrokeOff st answers st₁) :
    ctx.ChildrenFail i (child :: rest) st answers [] := by
  have hvisit := visitChildren_of_templates ctx hchild ht rest st
  have haccount : ctx.accountFrom i (child :: rest) st = ⟨[], some []⟩ := by
    rw [accountFrom, if_neg (by simpa using ht), hrun]
  simp only [hrun] at hvisit
  refine ⟨?_, ?_, .inl rfl, fun more => ?_, fun head info front hfront => ?_, ?_⟩
  · rw [hvisit]
    exact hbroke
  · rw [haccount]
  · rw [haccount]
    exact List.nil_prefix
  · rw [hvisit, haccount]
    exact .nil _
  · simp [haccount]

/-- A walk through children fails after a child that is expanded. -/
theorem ChildrenFail.cons_expand {nodes : List Node} (hchild : child.wellFormed = true)
    (ht : child.templates ≠ []) (hrun : ctx.perform child.templateSteps st = .ok nodes st₁)
    (htalked : ctx.Talked st talk st₁) (hcalls : talk.map Prod.fst = Step.calls child.templateSteps)
    (hrest : ctx.ChildrenFail (i + 1) rest st₁ answers p) :
    ctx.ChildrenFail i (child :: rest) st (talk.map Prod.snd ++ answers) p := by
  have hvisit := visitChildren_of_templates ctx hchild ht rest st
  have haccount := accountFrom_of_templates ht hrun i rest
  have hlength := length_answers hcalls
  simp only [hrun] at hvisit
  refine ⟨?_, ?_, ?_, fun more => ?_, fun head info front hfront => ?_, fun f hf => ?_⟩
  · rw [hvisit]
    exact htalked.brokeOff hrest.brokeOff
  · rw [haccount]
    exact hrest.failedIn
  · rw [reachedFrom]
    exact hrest.reached.imp_right (List.mem_append_right _)
  · rw [haccount, outcomes_of_templates ht, List.append_assoc, ← hlength, List.drop_left]
    exact hrest.finished more
  · rw [hvisit, haccount]
    exact .stay_children hrest.becomes _ child head info hfront
  · rw [haccount] at hf
    exact hrest.around f hf

variable {head : Head} {info : Info} {children : List Node}

/-- A walk into a container fails among its children. -/
theorem Fails.inside (hr : head.isRegular = true)
    (hadmits : ctx.excluded.admits (.node head info children) = true)
    (hfault : (ctx.visitChildren children (st.push head)).fault = some fault)
    (hfails : ctx.ChildrenFail 0 children (st.push head) answers p) :
    ctx.Fails (.node head info children) st answers p := by
  have hvisit := visit_of_admits hr hadmits st
  have haccount : ctx.account (.node head info children) st =
      ctx.accountFrom 0 children (st.push head) := by
    rw [account, if_pos hadmits]
    simp only [hfault]
  simp only [hfault] at hvisit
  refine ⟨⟨?_, ?_⟩, ?_, ?_, fun more => ?_, ?_, ?_⟩
  · rw [hvisit]
    exact hfails.brokeOff.calls
  · rw [hvisit]
    exact stack_pop hfails.brokeOff.stack
  · rw [haccount]
    exact hfails.failedIn
  · rw [Node.reached, if_pos hadmits]
    rcases hfails.reached with rfl | hp
    · simp
    · exact List.mem_append_left _ hp
  · rw [haccount, outcome_of_admits hadmits]
    exact (hfails.finished more).trans (List.prefix_append _ _)
  · rw [hvisit, haccount]
    exact hfails.becomes head info [] rfl
  · rw [haccount]
    exact hfails.around

/-- A walk into a container fails when the container is finished. -/
theorem Fails.atEnd (hr : head.isRegular = true)
    (hadmits : ctx.excluded.admits (.node head info children) = true)
    (hfault : (ctx.visitChildren children (st.push head)).fault = none)
    (hrun : ctx.finish (ctx.visitChildren children (st.push head)).value.spliced
      (ctx.visitChildren children (st.push head)).state = .error fault st₁)
    (hchildren : ctx.ChildrenEnd 0 children (st.push head) talk)
    (hbroke : ctx.BrokeOff (ctx.visitChildren children (st.push head)).state answers st₁) :
    ctx.Fails (.node head info children) st (talk.map Prod.snd ++ answers) [] := by
  have hvisit := visit_of_admits hr hadmits st
  have haccount : ctx.account (.node head info children) st =
      ⟨(ctx.accountFrom 0 children (st.push head)).finished, some []⟩ := by
    rw [account, if_pos hadmits]
    simp only [hfault, hrun]
  have hall := hchildren.talked.brokeOff hbroke
  simp only [hfault, hrun] at hvisit
  refine ⟨⟨?_, ?_⟩, ?_, ?_, fun more => ?_, ?_, fun f hf => ?_⟩
  · rw [hvisit]
    exact hall.calls
  · rw [hvisit]
    exact stack_pop hall.stack
  · rw [haccount]
  · rw [Node.reached, if_pos hadmits]
    simp
  · rw [haccount, outcome_of_admits hadmits, List.append_assoc, hchildren.outcome]
    exact List.prefix_append _ _
  · rw [hvisit, haccount]
    exact (hchildren.becomes head info [] rfl).of_front _
  · -- All that is finished is below the container.
    rw [haccount] at hf
    have hplace := List.mem_map_of_mem (f := Prod.fst) hf
    have houtcome := congrArg Outcome.finished (hchildren.outcome [])
    dsimp only at houtcome
    rw [← houtcome, map_fst_finishedFrom] at hplace
    obtain ⟨j, q, hq, -⟩ := exists_of_mem_reachedFrom hplace
    simp [hq]

end Fails

mutual

/-- A walk through a well-formed tree that fails does so in one container. -/
theorem visit_error : ∀ {n : Node}, n.wellFormed = true → ∀ {st : State σ} {fault : Fault},
    (∀ head ∈ st.stack, head.isRegular = true) → (ctx.visit n st).fault = some fault →
    ∃ answers p, ctx.Fails n st answers p
  | .stray value, hn, _, _, _, _ => by simp [wellFormed] at hn
  | .node head info children, hn, st, fault, hst, hfault => by
    cases hadmits : ctx.excluded.admits (.node head info children) with
    | false => simp [visit_of_not_admits hn hadmits] at hfault
    | true =>
      obtain ⟨hr, -, hchildren⟩ := wellFormed_node.mp hn
      have hpush := isRegular_of_mem_push hr hst
      have hvisit := visit_of_admits hr hadmits st
      cases hbelow : (ctx.visitChildren children (st.push head)).fault with
      | some fault' =>
        obtain ⟨answers, p, hfails⟩ := visitChildren_error (i := 0) hchildren hpush hbelow
        exact ⟨answers, p, .inside hr hadmits hbelow hfails⟩
      | none =>
        obtain ⟨talk, hends⟩ := visitChildren_ok (i := 0) hchildren hpush hbelow
        cases hrun : ctx.finish (ctx.visitChildren children (st.push head)).value.spliced
            (ctx.visitChildren children (st.push head)).state with
        | ok given st₁ => simp [hvisit, hbelow, hrun] at hfault
        | error fault' st₁ =>
          obtain ⟨answers, hbroke⟩ := finish_error (hends.talked.stack ▸ hpush) hrun
          exact ⟨_, [], .atEnd hr hadmits hbelow hrun hends hbroke⟩

/-- A walk through well-formed children that fails does so in one container. -/
theorem visitChildren_error {i : Nat} : ∀ {ns : List Node}, allWellFormed ns = true →
    ∀ {st : State σ} {fault : Fault}, (∀ head ∈ st.stack, head.isRegular = true) →
    (ctx.visitChildren ns st).fault = some fault →
    ∃ answers p, ctx.ChildrenFail i ns st answers p
  | [], _, _, _, _, hfault => by simp [visitChildren] at hfault
  | child :: rest, hns, st, fault, hst, hfault => by
    rw [allWellFormed, Bool.and_eq_true] at hns
    by_cases ht : child.templates = []
    · have hvisit := visitChildren_of_no_templates ctx hns.1 ht rest st
      cases hfirst : (ctx.visit child st).fault with
      | some fault' =>
        obtain ⟨answers, p, hfails⟩ := visit_error hns.1 hst hfirst
        exact ⟨answers, i :: p, .here hns.1 ht hfirst hfails⟩
      | none =>
        obtain ⟨talk, hends⟩ := visit_ok hns.1 hst hfirst
        simp only [hvisit, hfirst] at hfault
        obtain ⟨answers, p, hfails⟩ := visitChildren_error (i := i + 1) hns.2
          (hends.talked.stack ▸ hst) hfault
        exact ⟨_, p, .cons_visit hns.1 ht hfirst hends hfails⟩
    · have hvisit := visitChildren_of_templates ctx hns.1 ht rest st
      cases hrun : ctx.perform child.templateSteps st with
      | error fault' st₁ =>
        obtain ⟨answers, hbroke⟩ := perform_error hst hrun
        exact ⟨answers, [], .here_expand hns.1 ht hrun hbroke⟩
      | ok nodes st₁ =>
        obtain ⟨talk, htalked, hcalls, -⟩ := perform_ok hst hrun
        simp only [hvisit, hrun] at hfault
        obtain ⟨answers, p, hfails⟩ := visitChildren_error (i := i + 1) hns.2
          (htalked.stack ▸ hst) hfault
        exact ⟨_, p, .cons_expand hns.1 ht hrun htalked hcalls hfails⟩

end

end Context

end Transclude
