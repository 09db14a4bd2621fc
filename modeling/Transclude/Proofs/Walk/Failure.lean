import Transclude.Proofs.Walk.Account

/-!
# Runs that fail

When a run fails, every container is in one of three states. The finished ones have the children that
every run with the same answers gives them, the open ones around the point of failure have their old
children, and nothing was done to the others. `process_of_fault` says so for every cause of the
failure.
-/

namespace Transclude

open Node

namespace Node

/-- A place below a place. -/
theorem at?_append (p q : Place) (n : Node) : at? (p ++ q) n = (at? p n).bind (at? q) := by
  induction p generalizing n with
  | nil => rfl
  | cons i p ih =>
    rw [List.cons_append, at?, at?]
    cases n.children[i]? with
    | none => rfl
    | some child => exact ih child

/-- There is a node at every place above a node. -/
theorem exists_at?_of_prefix {p q : Place} {n m : Node} (h : at? p n = some m) (hqp : q <+: p) :
    ∃ k, at? q n = some k := by
  obtain ⟨r, rfl⟩ := hqp
  rw [at?_append] at h
  obtain ⟨k, hk, -⟩ := Option.bind_eq_some_iff.mp h
  exact ⟨k, hk⟩

/-- There is a node at every place that a walk goes to. -/
theorem exists_at?_of_mem_reached {tags : Tags} {n : Node} {p : Place} (h : p ∈ n.reached tags) :
    ∃ m, at? p n = some m := by
  induction p generalizing n with
  | nil => exact ⟨n, rfl⟩
  | cons i p ih =>
    obtain ⟨-, hnil | ⟨j, child, q, hplace, hchild, hq⟩⟩ := mem_reached.mp h
    · exact absurd hnil (by simp)
    · obtain ⟨rfl, rfl⟩ := List.cons_eq_cons.mp hplace
      obtain ⟨m, hm⟩ := ih hq
      exact ⟨m, at?_cons.mpr ⟨child, hchild, hm⟩⟩

end Node

namespace Context

variable {σ : Type} {ctx : Context σ}

/-- The answers that were heard between two states of a run. -/
def heard (ctx : Context σ) (st st' : State σ) : List (List Node) :=
  ctx.answers (st'.calls.drop st.calls.length) st.world

/-- The answers of a talk are those that were heard. -/
theorem heard_of_talked {st st' : State σ} {talk : List (Call × List Node)}
    (h : ctx.Talked st talk st') : ctx.heard st st' = talk.map Prod.snd := by
  have hanswers := answers_of_hears h.hears []
  rw [List.append_nil, answers, List.append_nil] at hanswers
  rw [heard, h.calls, List.drop_left, hanswers]

/-- The answers before a failure are those that were heard. -/
theorem heard_of_brokeOff {st st' : State σ} {answers : List (List Node)}
    (h : ctx.BrokeOff st answers st') : ctx.heard st st' = answers := by
  obtain ⟨calls, hcalls, hanswers⟩ := h.calls
  rw [heard, hcalls, List.drop_left, hanswers]

/-- A run that fails in the container at the place `p`.

No container is open at the end. The containers on the way from the top to `p` have their old child
lists. The containers that were finished are the first of those that a run goes to, each has the
children that it was given, and a run that does not fail and begins with the same answers gives them
the same children. All other containers are as they were: the tree has changed by nothing but the
finishing of these containers, each of which was given its own children, texts, and nodes of
answers. -/
theorem process_of_fault {t : Node} (ht : t.wellFormed = true) {st : State σ}
    (hfault : (ctx.process t st).fault ≠ none) :
    (ctx.process t st).state.stack = [] ∧
    ∃ p ∈ t.reached ctx.excluded, (ctx.account t (fresh st)).failedIn = some p ∧
      (∀ q, q <+: p → ∃ n n', at? q t = some n ∧ at? q (ctx.process t st).value = some n' ∧
        n'.shell = n.shell) ∧
      (ctx.account t (fresh st)).finished.map Prod.fst <+: t.reached ctx.excluded ∧
      (∀ f ∈ (ctx.account t (fresh st)).finished,
        (∀ g ∈ (ctx.account t (fresh st)).finished, g.1 <+: f.1 → g.1 = f.1) →
        ∃ n, at? f.1 (ctx.process t st).value = some n ∧ n.children = f.2) ∧
      (∀ (τ : Type) (ctx' : Context τ) (st' : State τ), ctx'.excluded = ctx.excluded →
        (ctx'.process t st').fault = none →
        ctx.heard (fresh st) (ctx.process t st).state <+:
          ctx'.heard (fresh st') (ctx'.process t st').state →
        (ctx.account t (fresh st)).finished <+: (ctx'.account t (fresh st')).finished) ∧
      (∀ q n, at? q t = some n → (∀ f ∈ (ctx.account t (fresh st)).finished, ¬ f.1 <+: q) →
        ∃ n', at? q (ctx.process t st).value = some n' ∧ n'.shell = n.shell) ∧
      Becomes (ctx.heard (fresh st) (ctx.process t st).state) t
        (ctx.account t (fresh st)).finished (ctx.process t st).value := by
  rw [process_of_wellFormed ht] at hfault ⊢
  obtain ⟨fault, hsome⟩ := Option.ne_none_iff_exists'.mp hfault
  obtain ⟨answers, p, hfails⟩ := visit_error ht (isRegular_of_mem_fresh st) hsome
  -- Containers are finished from the inside out, so none is finished before one below it.
  have hplaces : (ctx.account t (fresh st)).finished.map Prod.fst <+: t.reached ctx.excluded := by
    rw [← map_fst_finished ctx.excluded t (answers ++ [])]
    exact (hfails.finished []).map Prod.fst
  have horder : (ctx.account t (fresh st)).finished.Pairwise fun f g => ¬ f.1 <+: g.1 :=
    List.pairwise_map.mp ((pairwise_reached ctx.excluded t).sublist hplaces.sublist)
  refine ⟨hfails.brokeOff.stack, p, hfails.reached, hfails.failedIn, fun q hqp => ?_, hplaces,
    fun f hf htop => ?_, fun τ ctx' st' hexcluded hok hheard => ?_, fun q n hn haround => ?_, ?_⟩
  · -- What is around the failure exists, and none of it is finished.
    obtain ⟨m, hm⟩ := exists_at?_of_mem_reached hfails.reached
    obtain ⟨n, hn⟩ := exists_at?_of_prefix hm hqp
    obtain ⟨n', hn', hshell⟩ := hfails.becomes.shell_at? hn
      fun f hf hfq => hfails.around f hf (hfq.trans hqp)
    exact ⟨n, n', hn, hn', hshell⟩
  · exact hfails.becomes.children_at? hf horder htop
  · -- The other run hears the same answers first, and what it does with them is their outcome.
    rw [process_of_wellFormed ht] at hok hheard
    obtain ⟨talk, hends⟩ := visit_ok ht (isRegular_of_mem_fresh st') hok
    rw [heard_of_brokeOff hfails.brokeOff, heard_of_talked hends.talked] at hheard
    obtain ⟨more, hmore⟩ := hheard
    have houtcome := hends.outcome []
    rw [List.append_nil, ← hmore, hexcluded] at houtcome
    have hfinished := hfails.finished more
    rw [houtcome] at hfinished
    exact hfinished
  · exact hfails.becomes.shell_at? hn haround
  · rw [heard_of_brokeOff hfails.brokeOff]
    exact hfails.becomes

/-- A context whose link resolver answers once and then fails. -/
def echoOnce : Context Nat where
  link := .function fun reference count =>
    { outcome := if count = 0 then .ok (.list [Node.text reference.file])
        else .error (.raised "LookupError" "no file")
      world := count + 1 }
  template := .value .null

/-- A document with a link in each of two elements, and one after them. -/
def threeLinks : Node :=
  .root [.element "p" [] [.text "[[a]]"], .element "p" [] [.text "[[b]]"], .text "[[c]]"]

/-- The first element is finished when the second fails, and nothing else is changed. -/
theorem process_of_fault_threeLinks :
    threeLinks.wellFormed = true ∧ (echoOnce.process threeLinks { world := 0 }).fault ≠ none ∧
      (echoOnce.process threeLinks { world := 0 }).state.stack = [] ∧
      ∃ p ∈ threeLinks.reached echoOnce.excluded,
        (echoOnce.account threeLinks (fresh { world := 0 })).failedIn = some p := by
  have hwell : threeLinks.wellFormed = true := by decide
  have hfault : (echoOnce.process threeLinks { world := 0 }).fault ≠ none := by decide +kernel
  obtain ⟨hstack, p, hp, hfailed, -⟩ := process_of_fault hwell hfault
  exact ⟨hwell, hfault, hstack, p, hp, hfailed⟩

end Context

end Transclude
