import Transclude.Proofs.Run.Path

/-!
# Scripts that give a value without asking

Some scripts come to a value before they ask for anything. `Script.still?` is this value. A script
that has one gives it in every run, whatever the resolvers are (`run_of_still?`), and no other script
comes to its end without a call (`still?_of_run`). Where nothing can be called, the others fail at
what they ask for first (`error_of_still?`).
-/

namespace Transclude

variable {σ α β : Type}

/-! ## Calls are never taken back -/

namespace Run

/-- Whether a step keeps the calls that were made before it, in every state. -/
def KeepsCalls (m : Run σ α) : Prop := ∀ st : State σ, match m st with
  | .ok _ st' => st.calls <+: st'.calls
  | .error _ st' => st.calls <+: st'.calls

variable {m : Run σ α} {f : α → Run σ β}

/-- Giving a value keeps the calls. -/
theorem keepsCalls_pure (a : α) : KeepsCalls (pure a : Run σ α) := fun st => List.prefix_refl st.calls

/-- A failure keeps the calls. -/
theorem keepsCalls_throw (fault : Fault) : KeepsCalls (throw fault : Run σ α) :=
  fun st => List.prefix_refl st.calls

/-- A result keeps the calls. -/
theorem keepsCalls_ofExcept (e : Except Fault α) : KeepsCalls (ofExcept e : Run σ α) := by
  cases e with
  | error fault => exact keepsCalls_throw fault
  | ok a => exact keepsCalls_pure a

/-- Reading the state keeps the calls. -/
theorem keepsCalls_get : KeepsCalls (get : Run σ (State σ)) := fun st => List.prefix_refl st.calls

/-- A change of the state keeps the calls if it does not touch them. -/
theorem keepsCalls_modify {g : State σ → State σ} (h : ∀ st, (g st).calls = st.calls) :
    KeepsCalls (modify g : Run σ PUnit) := fun st => h st ▸ List.prefix_refl st.calls

/-- Two steps keep the calls if each of them does. -/
theorem KeepsCalls.bind (h : m.KeepsCalls) (hf : ∀ a, (f a).KeepsCalls) : (m >>= f).KeepsCalls := by
  intro st
  have hfirst := h st
  rw [bind_apply]
  cases hm : m st with
  | error fault st₁ =>
    rw [hm] at hfirst
    exact hfirst
  | ok a st₁ =>
    rw [hm] at hfirst
    have hsecond := hf a st₁
    dsimp only
    cases hf' : f a st₁ with
    | error fault st₂ =>
      rw [hf'] at hsecond
      exact hfirst.trans hsecond
    | ok b st₂ =>
      rw [hf'] at hsecond
      exact hfirst.trans hsecond

/-- A step keeps the calls within containers. -/
theorem KeepsCalls.within (h : m.KeepsCalls) (inner : List Head) : (within inner m).KeepsCalls := by
  intro st
  have hinside := h { st with stack := st.stack ++ inner }
  unfold Run.within
  cases hm : m { st with stack := st.stack ++ inner } with
  | error fault st' =>
    rw [hm] at hinside
    exact hinside
  | ok a st' =>
    rw [hm] at hinside
    exact hinside

/-- Recording a message keeps the calls. -/
theorem keepsCalls_record (note : Note) : KeepsCalls (record note : Run σ Unit) := by
  unfold record
  refine keepsCalls_get.bind fun st => (keepsCalls_ofExcept _).bind fun message => ?_
  refine KeepsCalls.bind ?_ fun _ => (keepsCalls_ofExcept _).bind fun place => ?_
  · exact keepsCalls_modify fun _ => rfl
  · exact keepsCalls_modify fun _ => rfl

/-- Carrying out what a resolver does besides keeps the calls. -/
theorem keepsCalls_carryOutAll (asides : List (Aside × σ)) : KeepsCalls (carryOutAll asides) := by
  induction asides with
  | nil => exact keepsCalls_pure ()
  | cons a rest ih =>
    obtain ⟨aside, world⟩ := a
    have hfirst : KeepsCalls (carryOut aside : Run σ Unit) := by
      cases aside with
      | note said => exact keepsCalls_record said
      | threshold value => exact keepsCalls_modify fun _ => rfl
    unfold carryOutAll
    refine KeepsCalls.bind ?_ fun _ => hfirst.bind fun _ => ih
    exact keepsCalls_modify fun _ => rfl

end Run

namespace Context

variable {ctx : Context σ}

/-- A call that is answered was made. -/
theorem calls_put_ok {call : Call} {st st' : State σ} {nodes : List Node}
    (h : ctx.put call st = .ok nodes st') : st.calls ++ [call] <+: st'.calls := by
  have hask {α : Type} {role : Role} {resolver : Resolver σ α} {question : α}
      (h : Run.ask role resolver call question st = .ok nodes st') :
      st.calls ++ [call] <+: st'.calls := by
    cases resolver with
    | value given => simp [Run.ask] at h
    | function respond =>
      rw [Run.ask_function] at h
      -- The call is added first, and is kept by what the resolver does besides.
      have hasides := Run.keepsCalls_carryOutAll (respond question st.world).asides
        { st with calls := st.calls ++ [call] }
      cases hrun : Run.carryOutAll (respond question st.world).asides
          { st with calls := st.calls ++ [call] } with
      | error fault st₁ => simp [hrun] at h
      | ok _ st₁ =>
        rw [hrun] at h hasides
        dsimp only at h hasides
        cases hnodes : (respond question st.world).nodes role with
        | error fault => simp [hnodes] at h
        | ok given =>
          obtain ⟨-, rfl⟩ : given = nodes ∧
              { st₁ with world := (respond question st.world).world } = st' := by
            simpa [hnodes] using h
          exact hasides
  cases call with
  | link reference => exact hask h
  | template call => exact hask h

/-- Putting a call keeps the calls. -/
theorem keepsCalls_put (ctx : Context σ) (call : Call) : (ctx.put call).KeepsCalls := by
  have hask {α : Type} (role : Role) (resolver : Resolver σ α) (question : α) :
      (Run.ask role resolver call question).KeepsCalls := by
    cases resolver with
    | value given => exact Run.keepsCalls_throw _
    | function respond =>
      have hadds : Run.KeepsCalls
          (modify fun st => { st with calls := st.calls ++ [call] } : Run σ PUnit) :=
        fun st => List.prefix_append _ _
      refine Run.keepsCalls_get.bind fun st => hadds.bind fun _ => ?_
      refine (Run.keepsCalls_carryOutAll _).bind fun _ => Run.KeepsCalls.bind ?_ fun _ => ?_
      · exact Run.keepsCalls_modify fun _ => rfl
      · exact (Run.keepsCalls_ofExcept _).bind fun answer => Run.keepsCalls_ofExcept _
  cases call with
  | link reference => exact hask .link ctx.link reference
  | template call => exact hask .template ctx.template call

end Context

namespace Script

/-- A script keeps the calls that were made before it. -/
theorem keepsCalls_run (ctx : Context σ) (s : Script α) : (s.run ctx).KeepsCalls := by
  induction s with
  | done a => exact Run.keepsCalls_pure a
  | fail fault => exact Run.keepsCalls_throw fault
  | tell inner note next ih => exact ((Run.keepsCalls_record note).within inner).bind fun _ => ih
  | ask inner call next ih => exact ((ctx.keepsCalls_put call).within inner).bind ih

/-! ## The value of a script -/

/-- The value that a script gives without asking, if it does. -/
def still? : Script α → Option α
  | .done a => some a
  | .fail _ => none
  | .tell _ _ next => next.still?
  | .ask _ _ _ => none

variable {s : Script α}

/-- A script that goes on gives a value without asking if both its parts do. -/
theorem still?_bind (s : Script α) (f : α → Script β) :
    (s.bind f).still? = s.still?.bind fun a => (f a).still? := by
  induction s with
  | done a => rfl
  | fail fault => rfl
  | tell inner note next ih => exact ih
  | ask inner call next => rfl

/-- A script gives the same value in a container. -/
theorem still?_under (head : Head) (s : Script α) : (s.under head).still? = s.still? := by
  induction s with
  | done a => rfl
  | fail fault => rfl
  | tell inner note next ih => exact ih
  | ask inner call next => rfl

/-- A result gives its value. -/
theorem still?_ofExcept_ok (a : α) : (ofExcept (.ok a)).still? = some a := rfl

/-- Steps that do not fail give their nodes without asking if they make no call. -/
theorem still?_ofSteps {steps : List Step} (h : ∀ fault, .fail fault ∉ steps) :
    (ofSteps steps).still? =
      if Step.calls steps = [] then some (Step.outputs steps []) else none := by
  induction steps with
  | nil => rfl
  | cons step rest ih =>
    have hrest := ih fun fault hmem => h fault (by simp [hmem])
    -- The nodes of a step without a call come before those of the others.
    have hkeep (kept : List Node) :
        ((ofSteps rest).bind fun others => .done (kept ++ others)).still? =
          if Step.calls rest = [] then some (kept ++ Step.outputs rest []) else none := by
      rw [still?_bind, hrest]
      split <;> rfl
    cases step with
    | keep kept => exact hkeep kept
    | tell note kept => exact hkeep kept
    | ask call => rfl
    | fail fault => exact absurd (by simp) (h fault)

section Runs

variable (ctx : Context σ) {Good : Call → List Node → Prop} {Post : α → Prop} {a : α}

/-- A script that gives a value without asking gives it along a path without calls, on which
everything is proper if this is always so. -/
theorem exists_path_of_still? (h : s.Always Good Post) (hstill : s.still? = some a) :
    ∃ events, s.Path events a ∧ (∀ e ∈ events, e.isProper = true) ∧ Event.talk events = [] ∧
      ∀ world, ctx.Plays world events world := by
  induction s with
  | done b =>
    obtain rfl : b = a := Option.some.inj hstill
    exact ⟨[], .done b, by simp, rfl, .nil⟩
  | fail fault => exact h.elim
  | tell inner note next ih =>
    obtain ⟨hinner, hnote, hnext⟩ := h
    obtain ⟨events, hpath, hproper, htalk, hplays⟩ := ih hnext hstill
    refine ⟨_, hpath.tell, ?_, htalk, fun world => .told inner note (hplays world)⟩
    simpa [Event.isProper, hinner, hnote] using hproper
  | ask inner call next => simp [still?] at hstill

/-- A script that gives a value without asking gives it in every run, and makes no call. -/
theorem run_of_still? (h : s.Always Good Post) (hstill : s.still? = some a) (st : State σ)
    (hst : ∀ head ∈ st.stack, head.isRegular = true) :
    ∃ st', s.run ctx st = .ok a st' ∧ st'.calls = st.calls := by
  obtain ⟨events, hpath, hproper, htalk, hplays⟩ := exists_path_of_still? ctx h hstill
  refine ⟨_, run_of_path hpath hproper st hst (hplays st.world), ?_⟩
  simp [State.after, htalk]

variable {ctx}

/-- A run that comes to its end without a call gives the value that its script gives without
asking. -/
theorem still?_of_run {st st' : State σ} (hrun : s.run ctx st = .ok a st')
    (hcalls : st'.calls = st.calls) : s.still? = some a := by
  induction s generalizing st with
  | done b =>
    obtain ⟨rfl, -⟩ : b = a ∧ st = st' := by simpa [run] using hrun
    rfl
  | fail fault => simp [run] at hrun
  | tell inner note next ih =>
    rw [run, Run.bind_apply] at hrun
    have htold := (Run.keepsCalls_record note).within inner st
    cases hrecord : Run.within inner (Run.record note) st with
    | error fault st₁ => simp [hrecord] at hrun
    | ok _ st₁ =>
      rw [hrecord] at hrun htold
      dsimp only at hrun htold
      have hrest := keepsCalls_run ctx next st₁
      rw [hrun] at hrest
      -- Both parts keep the calls, so neither adds to them.
      have hshort : st₁.calls.length ≤ st.calls.length := hcalls ▸ hrest.length_le
      have hsame : st.calls = st₁.calls := htold.eq_of_length_le hshort
      exact ih hrun (hcalls.trans hsame)
  | ask inner call next =>
    rw [run, Run.bind_apply] at hrun
    cases hput : ctx.put call { st with stack := st.stack ++ inner } with
    | error fault st₁ => simp [Run.within, hput] at hrun
    | ok nodes st₁ =>
      have hmade := Context.calls_put_ok hput
      simp only [Run.within, hput] at hrun
      have hrest := keepsCalls_run ctx (next nodes) { st₁ with stack := st.stack }
      rw [hrun] at hrest
      -- The call is there in the end.
      have hlength : (st.calls ++ [call]).length ≤ st'.calls.length := (hmade.trans hrest).length_le
      rw [hcalls, List.length_append, List.length_singleton] at hlength
      omega

/-- Where nothing can be called, a script that asks for something fails at what it asks for first,
and makes no call. -/
theorem error_of_still? {l v : Value} (hl : ctx.link = .value l) (hv : ctx.template = .value v)
    (h : s.Always Good Post) (hstill : s.still? = none) (st : State σ)
    (hst : ∀ head ∈ st.stack, head.isRegular = true) :
    ∃ fault st', s.run ctx st = .error fault st' ∧ st'.calls = st.calls ∧
      (fault = .notCallable .link l ∨ fault = .notCallable .template v) := by
  induction s generalizing st with
  | done a => simp [still?] at hstill
  | fail fault => exact h.elim
  | tell inner note next ih =>
    obtain ⟨hinner, hnote, hnext⟩ := h
    have hproper : (Event.told inner note).isProper = true := by
      simp [Event.isProper, hinner, hnote]
    obtain ⟨fault, st', hrun, hcalls, hfault⟩ :=
      ih hnext hstill (st.after [.told inner note] st.world) hst
    refine ⟨fault, st', ?_, ?_, hfault⟩
    · rw [run, Run.bind_apply, within_record st hst hproper]
      exact hrun
    · rw [hcalls]
      simp [State.after, Event.talk, Event.exchange?]
  | ask inner call next =>
    cases call with
    | link reference =>
      refine ⟨.notCallable .link l, st, ?_, rfl, .inl rfl⟩
      simp [run, Run.bind_apply, Run.within, Context.put, Context.resolveLink, hl, Run.ask]
    | template call =>
      refine ⟨.notCallable .template v, st, ?_, rfl, .inr rfl⟩
      simp [run, Run.bind_apply, Run.within, Context.put, Context.resolveTemplate, hv, Run.ask]

end Runs

end Script

end Transclude
