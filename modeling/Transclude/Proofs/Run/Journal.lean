import Transclude.Proofs.Run.Path

/-!
# The journal of a run

Every run of a script follows some events, whether it comes to its end or breaks off. `Script.Leads`
says that events lead from a script to what is left of it, and `Context.Acts` that the resolvers
answer as they do in them; the last event of a run that fails may be a call without an answer.
`exists_events_of_run` gives the events of any run, and says that what the run leaves is what they
leave.
-/

namespace Transclude

variable {σ α β : Type}

/-! ## Calls without an answer -/

/-- A question that has no answer from a function makes a run fail. It leaves the marks of what the
function does before, and the call. -/
theorem Run.ask_function_eq_enter_of_no_answer {role : Role} {respond : α → σ → Reply σ} {call : Call}
    {question : α} {st : State σ} (hst : ∀ head ∈ st.stack, head.isRegular = true)
    (h : (Resolver.function respond).answer? role question st.world = none) :
    ∃ fault world, ask role (.function respond) call question st = .error fault
      { st.enter ((((Resolver.function respond).asides question st.world).takeWhile
          Aside.isProper).filterMap (Aside.mark? st.stack)) with
        calls := st.calls ++ [call]
        world := world } := by
  obtain ⟨world, hrun⟩ := carryOutAll_eq_enter (respond question st.world).asides
    { st with calls := st.calls ++ [call] } hst
  rw [ask_function, hrun]
  cases hasides : (respond question st.world).asides.all fun a => a.1.isProper with
  | false => exact ⟨.refused, world, rfl⟩
  | true =>
    -- All is carried out, and then there is no list of nodes.
    cases hnodes : (respond question st.world).nodes role with
    | ok nodes => simp [Resolver.answer?, hasides, hnodes] at h
    | error fault => exact ⟨fault, (respond question st.world).world, rfl⟩

namespace Context

variable {ctx : Context σ}

/-- A call that has no answer from a resolver that can be called makes a run fail. It leaves the
marks of what the resolver does before, and the call. -/
theorem put_eq_enter_of_no_answer {call : Call} (st : State σ)
    (hst : ∀ head ∈ st.stack, head.isRegular = true) (hput : ctx.canPut call = true)
    (h : ctx.answer? call st.world = none) :
    ∃ fault world, ctx.put call st = .error fault
      { st.enter (((ctx.asidesOf call st.world).takeWhile Aside.isProper).filterMap
          (Aside.mark? st.stack)) with
        calls := st.calls ++ [call]
        world := world } := by
  cases call with
  | link reference =>
    obtain ⟨respond, hlink⟩ := Resolver.exists_of_isFunction hput
    simp only [answer?, hlink] at h
    simp only [put, resolveLink, asidesOf, hlink]
    exact Run.ask_function_eq_enter_of_no_answer hst h
  | template call =>
    obtain ⟨respond, htemplate⟩ := Resolver.exists_of_isFunction hput
    simp only [answer?, htemplate] at h
    simp only [put, resolveTemplate, asidesOf, htemplate]
    exact Run.ask_function_eq_enter_of_no_answer hst h

/-- A call for something that cannot be called makes a run fail at once. -/
theorem put_of_not_canPut {call : Call} (st : State σ) (h : ctx.canPut call = false) :
    ∃ fault, ctx.put call st = .error fault st := by
  cases call with
  | link reference =>
    cases hlink : ctx.link with
    | value given => exact ⟨.notCallable .link given, by simp [put, resolveLink, hlink, Run.ask]⟩
    | function respond => simp [canPut, hlink, Resolver.isFunction] at h
  | template call =>
    cases htemplate : ctx.template with
    | value given =>
      exact ⟨.notCallable .template given, by simp [put, resolveTemplate, htemplate, Run.ask]⟩
    | function respond => simp [canPut, htemplate, Resolver.isFunction] at h

end Context

/-! ## What an event is about -/

/-- What an event or a step of an expansion is about: a message is made, or a resolver is asked. -/
inductive Matter where
  /-- A message. -/
  | note (note : Note)
  /-- A call. -/
  | call (call : Call)

namespace Event

/-- The containers of an event, besides those that are open at the beginning of the run. -/
def inner : Event → List Head
  | .told inner _ => inner
  | .asked inner _ _ _ => inner

/-- What an event is about. -/
def matter : Event → Matter
  | .told _ note => .note note
  | .asked _ call _ _ => .call call

/-- An event in a container has it around its own containers. -/
theorem inner_under (head : Head) (e : Event) : (e.under head).inner = head :: e.inner := by
  cases e <;> rfl

/-- An event in a container is about the same. -/
theorem matter_under (head : Head) (e : Event) : (e.under head).matter = e.matter := by
  cases e <;> rfl

/-- The entries of an event are about its containers. -/
theorem stack_of_mem_entries {outer : List Head} {e : Event} {entry : Entry}
    (h : entry ∈ e.entries outer) : entry.stack = outer ++ e.inner := by
  cases e with
  | told inner note => exact (note.level_of_entry? (Option.mem_toList.mp h)).2
  | asked inner call asides answer =>
    obtain ⟨note, -, hentry⟩ := List.mem_filterMap.mp h
    exact (note.level_of_entry? hentry).2

end Event

/-- What a step is about, if anything is said or asked in it. -/
def Step.matter? : Step → Option Matter
  | .keep _ => none
  | .tell note _ => some (.note note)
  | .ask call => some (.call call)
  | .fail _ => none

/-! ## What is left of a script -/

namespace Script

/-- Events that lead from a script to what is left of it. -/
inductive Leads : Script α → List Event → Script α → Prop
  /-- All is left. -/
  | here (s : Script α) : Leads s [] s
  /-- A message is made. -/
  | tell {inner : List Head} {note : Note} {next left : Script α} {events : List Event} :
      Leads next events left → Leads (.tell inner note next) (.told inner note :: events) left
  /-- A resolver is asked, and the script goes on with an answer. -/
  | ask {inner : List Head} {call : Call} {next : List Node → Script α} {left : Script α}
      {events : List Event} (asides : List Aside) {answer : List Node} :
      Leads (next answer) events left →
      Leads (.ask inner call next) (.asked inner call asides answer :: events) left

variable {s left : Script α} {events : List Event}

/-- A path leads to its value. -/
theorem leads_done_iff {a : α} : s.Leads events (.done a) ↔ s.Path events a := by
  constructor
  · intro h
    generalize hleft : Script.done a = left at h
    induction h with
    | here s => exact hleft ▸ .done a
    | tell _ ih => exact (ih hleft).tell
    | ask asides _ ih => exact (ih hleft).ask asides
  · intro h
    induction h with
    | done a => exact .here _
    | tell _ ih => exact ih.tell
    | ask asides _ ih => exact ih.ask asides

/-- What leads through a script that goes on ends in its first part, where it does not come to a
value, or goes along a path through that and leads into the other. -/
theorem leads_bind {f : α → Script β} {left : Script β} (h : (s.bind f).Leads events left) :
    ((∃ first, s.Leads events first) ∧ ∀ b, left ≠ .done b) ∨
      ∃ es fs a, events = es ++ fs ∧ s.Path es a ∧ (f a).Leads fs left := by
  induction s generalizing events with
  | done a => exact .inr ⟨[], events, a, rfl, .done a, h⟩
  | fail fault =>
    cases h
    exact .inl ⟨⟨_, .here _⟩, fun b => nofun⟩
  | tell inner note next ih =>
    cases h with
    | here => exact .inl ⟨⟨_, .here _⟩, fun b => nofun⟩
    | tell h =>
      rcases ih h with ⟨⟨first, hfirst⟩, hleft⟩ | ⟨es, fs, a, rfl, hpath, hrest⟩
      · exact .inl ⟨⟨first, hfirst.tell⟩, hleft⟩
      · exact .inr ⟨_, fs, a, rfl, hpath.tell, hrest⟩
  | ask inner call next ih =>
    cases h with
    | here => exact .inl ⟨⟨_, .here _⟩, fun b => nofun⟩
    | ask asides h =>
      rcases ih _ h with ⟨⟨first, hfirst⟩, hleft⟩ | ⟨es, fs, a, rfl, hpath, hrest⟩
      · exact .inl ⟨⟨first, hfirst.ask asides⟩, hleft⟩
      · exact .inr ⟨_, fs, a, rfl, hpath.ask asides, hrest⟩

/-- What leads through a script in a container leads through the script, with its events in the
container, and to a value if it comes to one. -/
theorem leads_under {head : Head} (h : (s.under head).Leads events left) :
    ∃ es inside, events = es.map (Event.under head) ∧ s.Leads es inside ∧
      ∀ a, left = .done a → inside = .done a := by
  induction s generalizing events with
  | done a =>
    cases h
    exact ⟨[], .done a, rfl, .here _, fun b heq => heq⟩
  | fail fault =>
    cases h
    exact ⟨[], .fail fault, rfl, .here _, fun b => nofun⟩
  | tell inner note next ih =>
    cases h with
    | here => exact ⟨[], .tell inner note next, rfl, .here _, fun b => nofun⟩
    | tell h =>
      obtain ⟨es, inside, rfl, hnext, hdone⟩ := ih h
      exact ⟨_, inside, rfl, hnext.tell, hdone⟩
  | ask inner call next ih =>
    cases h with
    | here => exact ⟨[], .ask inner call next, rfl, .here _, fun b => nofun⟩
    | ask asides h =>
      obtain ⟨es, inside, rfl, hnext, hdone⟩ := ih _ h
      exact ⟨_, inside, rfl, hnext.ask asides, hdone⟩

/-- Nothing happens in a result. -/
theorem leads_ofExcept {e : Except Fault α} (h : (ofExcept e).Leads events left) : events = [] := by
  cases e with
  | error fault =>
    cases h
    rfl
  | ok a =>
    cases h
    rfl

/-- Steps lead to what they are about, one after the other. -/
theorem leads_ofSteps {steps : List Step} {left : Script (List Node)}
    (h : (ofSteps steps).Leads events left) :
    events.map Event.matter <+: steps.filterMap Step.matter? ∧ ∀ e ∈ events, e.inner = [] := by
  induction steps generalizing events left with
  | nil =>
    cases h
    exact ⟨List.nil_prefix, by simp⟩
  | cons step rest ih =>
    -- After the step come the others, and then nothing happens any more.
    have hrest {kept : List Node} {events : List Event} {left : Script (List Node)}
        (h : ((ofSteps rest).bind fun others => .done (kept ++ others)).Leads events left) :
        events.map Event.matter <+: rest.filterMap Step.matter? ∧ ∀ e ∈ events, e.inner = [] := by
      rcases leads_bind h with ⟨⟨first, hfirst⟩, -⟩ | ⟨es, fs, others, rfl, hpath, hdone⟩
      · exact ih hfirst
      · cases hdone
        rw [List.append_nil]
        exact ih (leads_done_iff.mpr hpath)
    cases step with
    | keep kept => exact hrest h
    | fail fault =>
      cases h
      exact ⟨List.nil_prefix, by simp⟩
    | tell note kept =>
      cases h with
      | here => exact ⟨List.nil_prefix, by simp⟩
      | tell h =>
        obtain ⟨hmatters, hinner⟩ := hrest h
        exact ⟨List.cons_prefix_cons.mpr ⟨rfl, hmatters⟩, List.forall_mem_cons.mpr ⟨rfl, hinner⟩⟩
    | ask call =>
      cases h with
      | here => exact ⟨List.nil_prefix, by simp⟩
      | ask asides h =>
        obtain ⟨hmatters, hinner⟩ := hrest h
        exact ⟨List.cons_prefix_cons.mpr ⟨rfl, hmatters⟩, List.forall_mem_cons.mpr ⟨rfl, hinner⟩⟩

/-- What a script asks for whatever is answered, it asks for in all that it leads to. -/
theorem able_of_leads {Able : Call → Prop} (hs : s.AsksOnly (fun _ _ => True) Able)
    (h : s.Leads events left) : ∀ x ∈ Event.talk events, Able x.1 := by
  induction h with
  | here s => simp [Event.talk]
  | tell _ ih => exact ih hs
  | ask asides _ ih =>
    rw [Event.talk_cons]
    exact List.forall_mem_cons.mpr ⟨hs.1, ih (hs.2 _ trivial)⟩

/-! ## Scripts in containers that fit together -/

/-- Whether all containers that a script is carried out in fit together. -/
def Regular : Script α → Prop
  | .done _ => True
  | .fail _ => True
  | .tell inner _ next => inner.all Head.isRegular = true ∧ next.Regular
  | .ask inner _ next => inner.all Head.isRegular = true ∧ ∀ nodes, (next nodes).Regular

/-- The containers of a script that goes on are those of its parts. -/
theorem Regular.bind {f : α → Script β} (h : s.Regular) (hf : ∀ a, (f a).Regular) :
    (s.bind f).Regular := by
  induction s with
  | done a => exact hf a
  | fail fault => trivial
  | tell inner note next ih => exact ⟨h.1, ih h.2⟩
  | ask inner call next ih => exact ⟨h.1, fun nodes => ih nodes (h.2 nodes)⟩

/-- A script may be carried out in a container that fits together. -/
theorem Regular.under {head : Head} (hr : head.isRegular = true) (h : s.Regular) :
    (s.under head).Regular := by
  induction s with
  | done a => trivial
  | fail fault => trivial
  | tell inner note next ih => exact ⟨by simpa [hr] using h.1, ih h.2⟩
  | ask inner call next ih => exact ⟨by simpa [hr] using h.1, fun nodes => ih nodes (h.2 nodes)⟩

/-- A result is in no container. -/
theorem regular_ofExcept (e : Except Fault α) : (ofExcept e).Regular := by
  cases e <;> trivial

/-- Steps are in no container. -/
theorem regular_ofSteps (steps : List Step) : (ofSteps steps).Regular := by
  induction steps with
  | nil => trivial
  | cons step rest ih =>
    have hrest {nodes : List Node} :
        ((ofSteps rest).bind fun others => .done (nodes ++ others)).Regular :=
      ih.bind fun others => trivial
    cases step with
    | keep nodes => exact hrest
    | tell note nodes => exact ⟨rfl, hrest⟩
    | ask call => exact ⟨rfl, fun nodes => hrest⟩
    | fail fault => trivial

end Script

/-! ## Every run -/

namespace Context

variable {ctx : Context σ}

/-- The resolvers, from the state `world` on, answer as they do in some events, with the same asides,
after which they are in the state `after`. The last event may be a call that a resolver fails to
answer, with what the resolver did before it failed. -/
inductive Acts (ctx : Context σ) : σ → List Event → σ → Prop
  /-- Nothing happens. -/
  | nil (world : σ) : Acts ctx world [] world
  /-- A message is made. -/
  | told {world after : σ} {events : List Event} (inner : List Head) {note : Note} :
      note.isProper = true → Acts ctx world events after →
      Acts ctx world (.told inner note :: events) after
  /-- A resolver is asked, and answers. -/
  | asked {world next after : σ} {events : List Event} {call : Call} {answer : List Node}
      (inner : List Head) : ctx.answer? call world = some (answer, next) →
      Acts ctx next events after →
      Acts ctx world (.asked inner call (ctx.asidesOf call world) answer :: events) after
  /-- A resolver is asked, and fails to answer. -/
  | failed {world : σ} {call : Call} (inner : List Head) (after : σ) : ctx.canPut call = true →
      ctx.answer? call world = none →
      Acts ctx world [.asked inner call ((ctx.asidesOf call world).takeWhile Aside.isProper) []] after

end Context

namespace State

/-- No events leave nothing. -/
theorem eq_after_nil (st : State σ) : st = st.after [] st.world := by
  simp [State.after, Event.talk, State.enter_nil]

/-- What a run leaves that follows one event and then others. -/
theorem eq_after_cons {st st' : State σ} {e : Event} {events : List Event} {next after : σ}
    (h : st' = (st.after [e] next).after events after) : st' = st.after (e :: events) after :=
  h.trans (after_cons st e events next after).symm

end State

namespace Script

variable {s : Script α}

/-- Every run follows some events, and what it leaves is what these leave. If it comes to its end, they
are a path to its value on which every call is answered. -/
theorem exists_events_of_run (ctx : Context σ) (hs : s.Regular) (st : State σ)
    (hst : ∀ head ∈ st.stack, head.isRegular = true) :
    ∃ events left after, s.Leads events left ∧ ctx.Acts st.world events after ∧
      match s.run ctx st with
      | .ok a st' => left = .done a ∧ ctx.Plays st.world events after ∧ st' = st.after events after
      | .error _ st' => st' = st.after events after := by
  induction s generalizing st with
  | done a => exact ⟨[], .done a, st.world, .here _, .nil _, rfl, .nil _, st.eq_after_nil⟩
  | fail fault => exact ⟨[], .fail fault, st.world, .here _, .nil _, st.eq_after_nil⟩
  | tell inner note next ih =>
    obtain ⟨hinner, hnext⟩ := hs
    rw [run, Run.bind_apply]
    by_cases hnote : note.isProper = true
    · have hproper : (Event.told inner note).isProper = true := by
        simp [Event.isProper, hinner, hnote]
      obtain ⟨events, left, after, hleads, hacts, hrun⟩ :=
        ih hnext (st.after [.told inner note] st.world) hst
      refine ⟨_, left, after, hleads.tell, .told inner hnote hacts, ?_⟩
      rw [within_record st hst hproper]
      dsimp only
      cases hnextrun : next.run ctx (st.after [.told inner note] st.world) with
      | error fault st' =>
        rw [hnextrun] at hrun
        exact State.eq_after_cons hrun
      | ok a st' =>
        rw [hnextrun] at hrun
        exact ⟨hrun.1, .told inner note hrun.2.1, State.eq_after_cons hrun.2.2⟩
    · -- The message cannot be made, so the run ends here.
      have hmessage : note.message? (titles (st.stack ++ inner)) = none := by
        rw [← Option.not_isSome_iff_eq_none, note.isSome_message?]
        exact hnote
      have hrecord := Run.record_of_isRegular note { st with stack := st.stack ++ inner }
        (isRegular_of_mem_append hst hinner)
      refine ⟨[], .tell inner note next, st.world, .here _, .nil _, ?_⟩
      rw [Run.within, hrecord]
      simp only [hmessage]
      exact st.eq_after_nil
  | ask inner call next ih =>
    obtain ⟨hinner, hnext⟩ := hs
    have hopen := isRegular_of_mem_append hst hinner
    rw [run, Run.bind_apply]
    cases hanswer : ctx.answer? call st.world with
    | some given =>
      obtain ⟨answer, world⟩ := given
      obtain ⟨events, left, after, hleads, hacts, hrun⟩ := ih answer (hnext answer)
        (st.after [.asked inner call (ctx.asidesOf call st.world) answer] world) hst
      refine ⟨_, left, after, hleads.ask _, .asked inner hanswer hacts, ?_⟩
      rw [within_put st hst hinner hanswer]
      dsimp only
      cases hnextrun : (next answer).run ctx
          (st.after [.asked inner call (ctx.asidesOf call st.world) answer] world) with
      | error fault st' =>
        rw [hnextrun] at hrun
        exact State.eq_after_cons hrun
      | ok a st' =>
        rw [hnextrun] at hrun
        exact ⟨hrun.1, .asked inner hanswer hrun.2.1, State.eq_after_cons hrun.2.2⟩
    | none =>
      cases hput : ctx.canPut call with
      | false =>
        -- Nothing is called, so the run ends here.
        obtain ⟨fault, hrun⟩ := Context.put_of_not_canPut { st with stack := st.stack ++ inner } hput
        refine ⟨[], .ask inner call next, st.world, .here _, .nil _, ?_⟩
        rw [Run.within, hrun]
        exact st.eq_after_nil
      | true =>
        obtain ⟨fault, world, hrun⟩ := Context.put_eq_enter_of_no_answer
          { st with stack := st.stack ++ inner } hopen hput hanswer
        refine ⟨_, next [], world, (Leads.here _).ask _, .failed inner world hput hanswer, ?_⟩
        rw [Run.within, hrun]
        simp [State.after, Event.talk, Event.exchange?, Event.marks, State.enter]

end Script

end Transclude
