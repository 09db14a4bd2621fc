import Transclude.Proofs.Run.Entry
import Transclude.Proofs.Run.Steps

/-!
# Scripts

A script says what a run does, with whatever the resolvers answer: what it tells, what it asks, and
how it goes on with each answer. `Script.run` carries a script out. A path is one way through a
script, as a list of events. `run_of_path` gives the state in which a run along a path ends, and
`error_of_path` the calls of a run that fails on its way.
-/

namespace Transclude

variable {σ α β : Type}

/-- What is done until a value is given. Each part says which containers are open then, besides those
that are open at the beginning. -/
inductive Script (α : Type) where
  /-- A value is given. -/
  | done (a : α)
  /-- Nothing more can be done. -/
  | fail (fault : Fault)
  /-- A message is made. -/
  | tell (inner : List Head) (note : Note) (next : Script α)
  /-- A resolver is asked. -/
  | ask (inner : List Head) (call : Call) (next : List Node → Script α)

namespace Script

/-- Goes on with the value that a script gives. -/
def bind : Script α → (α → Script β) → Script β
  | .done a, f => f a
  | .fail fault, _ => .fail fault
  | .tell inner note next, f => .tell inner note (next.bind f)
  | .ask inner call next, f => .ask inner call fun nodes => (next nodes).bind f

/-- A result as a script. -/
def ofExcept : Except Fault α → Script α
  | .ok a => .done a
  | .error fault => .fail fault

/-- A script that is carried out in a container. -/
def under (head : Head) : Script α → Script α
  | .done a => .done a
  | .fail fault => .fail fault
  | .tell inner note next => .tell (head :: inner) note (next.under head)
  | .ask inner call next => .ask (head :: inner) call fun nodes => (next nodes).under head

/-- The script of the steps of an expansion. -/
def ofSteps : List Step → Script (List Node)
  | [] => .done []
  | .keep nodes :: rest => (ofSteps rest).bind fun others => .done (nodes ++ others)
  | .tell note nodes :: rest =>
    .tell [] note ((ofSteps rest).bind fun others => .done (nodes ++ others))
  | .ask call :: rest =>
    .ask [] call fun nodes => (ofSteps rest).bind fun others => .done (nodes ++ others)
  | .fail fault :: _ => .fail fault

end Script

/-! ## Carrying out a script -/

namespace Run

/-- Carries out a step within containers, which are closed afterwards in any case. -/
def within (inner : List Head) (m : Run σ α) : Run σ α := fun st =>
  match m { st with stack := st.stack ++ inner } with
  | .ok a st' => .ok a { st' with stack := st.stack }
  | .error fault st' => .error fault { st' with stack := st.stack }

/-- A step that is followed by another is carried out within more containers. -/
theorem within_within_bind (outer inner : List Head) (m : Run σ α) (f : α → Run σ β) :
    within outer (within inner m >>= f) =
      within (outer ++ inner) m >>= fun a => within outer (f a) := by
  funext st
  simp only [within, bind_apply, List.append_assoc]
  cases m { st with stack := st.stack ++ (outer ++ inner) } <;> rfl

/-- A step that leaves the open containers alone is the same within none. -/
theorem within_nil_apply {m : Run σ α} {st : State σ}
    (h : match m st with
      | .ok _ st' => st'.stack = st.stack
      | .error _ st' => st'.stack = st.stack) : within [] m st = m st := by
  simp only [within, List.append_nil]
  cases hm : m st with
  | ok a st' =>
    rw [hm] at h
    rw [← h]
  | error fault st' =>
    rw [hm] at h
    rw [← h]

end Run

namespace Script

/-- Carries out a script. -/
def run (ctx : Context σ) : Script α → Run σ α
  | .done a => pure a
  | .fail fault => throw fault
  | .tell inner note next => do
    Run.within inner (Run.record note)
    next.run ctx
  | .ask inner call next => do
    let nodes ← Run.within inner (ctx.put call)
    (next nodes).run ctx

variable {ctx : Context σ}

/-- A script that goes on is carried out one part after the other. -/
theorem run_bind (s : Script α) (f : α → Script β) :
    (s.bind f).run ctx = s.run ctx >>= fun a => (f a).run ctx := by
  induction s with
  | done a => simp [bind, run]
  | fail fault => rfl
  | tell inner note next ih => simp [bind, run, ih]
  | ask inner call next ih => simp [bind, run, ih]

/-- A result is given as a step gives it. -/
theorem run_ofExcept (e : Except Fault α) : (ofExcept e).run ctx = Run.ofExcept e := by
  cases e <;> rfl

/-- A script in a container is carried out within it. -/
theorem run_under (head : Head) (s : Script α) :
    (s.under head).run ctx = Run.within [head] (s.run ctx) := by
  induction s with
  | done a => rfl
  | fail fault => rfl
  | tell inner note next ih =>
    rw [under, run, run, Run.within_within_bind, ih]
    rfl
  | ask inner call next ih =>
    simp only [under, run, Run.within_within_bind, ih]
    rfl

/-- What is done after a step of an expansion. -/
theorem run_ofSteps_bind (rest : List Step) (nodes : List Node) :
    ((ofSteps rest).bind fun others => .done (nodes ++ others)).run ctx =
      (ofSteps rest).run ctx >>= fun others => pure (nodes ++ others) :=
  run_bind _ _

/-- The steps of an expansion are carried out by their script. -/
theorem run_ofSteps (steps : List Step) (st : State σ)
    (hst : ∀ head ∈ st.stack, head.isRegular = true) :
    (ofSteps steps).run ctx st = ctx.perform steps st := by
  induction steps generalizing st with
  | nil => rfl
  | cons step rest ih =>
    rw [Context.perform, Run.bind_apply]
    cases step with
    | keep nodes =>
      rw [ofSteps, run_ofSteps_bind, Run.bind_apply, ih st hst, Context.take, Run.pure_apply]
      dsimp only
      rw [Run.bind_apply]
    | tell note nodes =>
      -- Scripts make every step within containers of their own; an expansion has none of its own.
      have hrecord : Run.within [] (Run.record note) st = Run.record note st := by
        refine Run.within_nil_apply ?_
        rw [Run.record_of_isRegular note st hst]
        cases note.message? (titles st.stack) <;> rfl
      rw [ofSteps, run, Run.bind_apply, hrecord, Context.take, Run.bind_apply,
        Run.record_of_isRegular note st hst]
      cases note.message? (titles st.stack) with
      | none => rfl
      | some m =>
        have hrest := ih (st.keep note.level m) hst
        dsimp only
        rw [run_ofSteps_bind, Run.bind_apply, hrest, Run.pure_apply]
        dsimp only
        rw [Run.bind_apply]
    | ask call =>
      rw [ofSteps, run, Run.bind_apply, Context.take]
      cases hanswer : ctx.answer? call st.world with
      | none =>
        obtain ⟨fault, st', -, hput, -, -, hstack⟩ := Context.put_of_no_answer hst hanswer
        rw [Run.within_nil_apply (by rw [hput]; exact hstack), hput]
      | some answer =>
        obtain ⟨nodes, world⟩ := answer
        obtain ⟨st', hput, -, hstack, -⟩ := Context.put_of_answer hst hanswer
        rw [Run.within_nil_apply (by rw [hput]; exact hstack), hput]
        dsimp only
        rw [run_ofSteps_bind, Run.bind_apply, ih st' (hstack ▸ hst), Run.bind_apply]
    | fail fault => rfl

/-- The containers that are open at the beginning are open at the end. -/
theorem stack_run (ctx : Context σ) (s : Script α) (st : State σ) :
    match s.run ctx st with
    | .ok _ st' => st'.stack = st.stack
    | .error _ st' => st'.stack = st.stack := by
  induction s generalizing st with
  | done a => rfl
  | fail fault => rfl
  | tell inner note next ih =>
    rw [run, Run.bind_apply, Run.within]
    cases Run.record note { st with stack := st.stack ++ inner } with
    | error fault st' => rfl
    | ok _ st' => exact ih { st' with stack := st.stack }
  | ask inner call next ih =>
    rw [run, Run.bind_apply, Run.within]
    cases ctx.put call { st with stack := st.stack ++ inner } with
    | error fault st' => rfl
    | ok nodes st' => exact ih nodes { st' with stack := st.stack }

end Script

/-! ## What happens in a run -/

/-- What happens in a run, each time in some containers besides those that are open at its
beginning. -/
inductive Event where
  /-- A message is made. -/
  | told (inner : List Head) (note : Note)
  /-- A resolver is asked. It does something besides, and answers. -/
  | asked (inner : List Head) (call : Call) (asides : List Aside) (answer : List Node)

namespace Event

/-- The call of an event with its answer, if there is one. -/
def exchange? : Event → Option (Call × List Node)
  | .told _ _ => none
  | .asked _ call _ answer => some (call, answer)

/-- The marks of an event, in the containers that are open at the beginning of the run. -/
def marks (outer : List Head) : Event → List Mark
  | .told inner note => ((Aside.note note).mark? (outer ++ inner)).toList
  | .asked inner _ asides _ => asides.filterMap (Aside.mark? (outer ++ inner))

/-- The entries of an event, in the containers that are open at the beginning of the run. -/
def entries (outer : List Head) : Event → List Entry
  | .told inner note => (note.entry? (outer ++ inner)).toList
  | .asked inner _ asides _ => (Aside.notes asides).filterMap (Note.entry? (outer ++ inner))

/-- The entries of an event are those among its marks. -/
theorem entries_marks (outer : List Head) (e : Event) :
    Mark.entries (e.marks outer) = e.entries outer := by
  cases e with
  | told inner note =>
    rw [marks, entries, Aside.mark?]
    cases note.entry? (outer ++ inner) <;> rfl
  | asked inner call asides answer => exact Aside.entries_filterMap_mark? (outer ++ inner) asides

/-- The entries of events are those among their marks. -/
theorem entries_flatMap_marks (outer : List Head) (events : List Event) :
    Mark.entries (events.flatMap (marks outer)) = events.flatMap (entries outer) := by
  unfold Mark.entries
  rw [List.filterMap_flatMap]
  exact congrArg (events.flatMap ·) (funext (entries_marks outer))

/-- The entries of an event within containers. -/
theorem entries_eq_map (outer : List Head) (e : Event) :
    e.entries outer = (e.entries []).map (Entry.within outer) := by
  cases e with
  | told inner note =>
    rw [entries, entries, Note.entry?_append, List.nil_append]
    cases note.entry? inner <;> rfl
  | asked inner call asides answer =>
    have h : Note.entry? (outer ++ inner) =
        fun note => (note.entry? inner).map (Entry.within outer) :=
      funext (Note.entry?_append outer inner)
    rw [entries, entries, h, List.map_filterMap, List.nil_append]

/-- An event in a container. -/
def under (head : Head) : Event → Event
  | .told inner note => .told (head :: inner) note
  | .asked inner call asides answer => .asked (head :: inner) call asides answer

/-- Whether the containers of an event fit together, and its message can be made. -/
def isProper : Event → Bool
  | .told inner note => inner.all Head.isRegular && note.isProper
  | .asked inner _ _ _ => inner.all Head.isRegular

/-- The talk of some events. -/
def talk (events : List Event) : List (Call × List Node) := events.filterMap exchange?

/-- The exchange of an event comes before those of the events after it. -/
theorem talk_cons (e : Event) (events : List Event) :
    talk (e :: events) = talk [e] ++ talk events := by
  cases e <;> rfl

end Event

/-- The state after some events, with the resolvers in a given state. -/
def State.after (st : State σ) (events : List Event) (world : σ) : State σ :=
  { st.enter (events.flatMap (Event.marks st.stack)) with
    calls := st.calls ++ (Event.talk events).map Prod.fst
    world := world }

namespace State

/-- Events happen one after the other. -/
theorem after_cons (st : State σ) (e : Event) (events : List Event) (next world : σ) :
    st.after (e :: events) world = (st.after [e] next).after events world := by
  simp only [after, enter, List.flatMap_cons, List.flatMap_nil, List.append_nil,
    Mark.entries_append, Messages.enter_append, Log.enter_append]
  rw [Event.talk_cons, List.map_append, List.append_assoc]

/-- The messages of events come after those that were there, each among those of its level. -/
theorem ofLevel_after (st : State σ) (events : List Event) (world : σ) (level : Level) :
    (st.after events world).messages.ofLevel level = st.messages.ofLevel level ++
      ((events.flatMap (Event.entries st.stack)).filter (·.level = level)).map Entry.message := by
  change (st.messages.enter _).ofLevel level = _
  rw [Messages.ofLevel_enter, Event.entries_flatMap_marks]

end State

namespace Context

variable {ctx : Context σ}

/-- The resolvers, in the state `world`, answer as they do in some events, with the same asides, and are
then in the state `after`. -/
inductive Plays (ctx : Context σ) : σ → List Event → σ → Prop
  /-- Nothing happens. -/
  | nil (world : σ) : Plays ctx world [] world
  /-- A message is made. -/
  | told {world after : σ} {events : List Event} (inner : List Head) (note : Note) :
      Plays ctx world events after → Plays ctx world (.told inner note :: events) after
  /-- A resolver is asked. -/
  | asked {world next after : σ} {events : List Event} {call : Call} {answer : List Node}
      (inner : List Head) : ctx.answer? call world = some (answer, next) →
      Plays ctx next events after →
      Plays ctx world (.asked inner call (ctx.asidesOf call world) answer :: events) after

/-- The resolvers give the answers of a talk that they have in some events. -/
theorem Plays.hears {world after : σ} {events : List Event} (h : ctx.Plays world events after) :
    ctx.Hears world (Event.talk events) after := by
  induction h with
  | nil world => exact .nil world
  | told inner note _ ih => exact ih
  | asked inner hanswer _ ih => exact .cons hanswer ih

/-- The thresholds of the log that the resolvers set while they answer calls one after the other. -/
def thresholdsSet (ctx : Context σ) : List Call → σ → List Nat
  | [], _ => []
  | call :: rest, world =>
    match ctx.answer? call world with
    | some (_, next) => Aside.thresholds (ctx.asidesOf call world) ++ ctx.thresholdsSet rest next
    | none => []

/-- Only resolvers set the threshold of the log. -/
theorem Plays.thresholds_marks {world after : σ} {events : List Event}
    (h : ctx.Plays world events after) (outer : List Head) :
    Mark.thresholds (events.flatMap (Event.marks outer)) =
      ctx.thresholdsSet ((Event.talk events).map Prod.fst) world := by
  induction h with
  | nil world => rfl
  | told inner note _ ih =>
    have hnone : Mark.thresholds (Event.marks outer (.told inner note)) = [] := by
      rw [Event.marks, Aside.mark?]
      cases note.entry? (outer ++ inner) <;> rfl
    rw [List.flatMap_cons, Mark.thresholds_append, hnone, ih]
    rfl
  | @asked world next after events call answer inner hanswer _ ih =>
    have hcalls : (Event.talk (.asked inner call (ctx.asidesOf call world) answer :: events)).map
        Prod.fst = call :: (Event.talk events).map Prod.fst := rfl
    rw [List.flatMap_cons, Mark.thresholds_append, Event.marks, Aside.thresholds_filterMap_mark?,
      ih, hcalls, thresholdsSet, hanswer]

end Context

namespace Script

/-- A way through a script to a value, with the events on the way. -/
inductive Path : Script α → List Event → α → Prop
  /-- A value is given. -/
  | done (a : α) : Path (.done a) [] a
  /-- A message is made. -/
  | tell {inner : List Head} {note : Note} {next : Script α} {events : List Event} {a : α} :
      Path next events a → Path (.tell inner note next) (.told inner note :: events) a
  /-- A resolver is asked, and the script goes on with its answer. -/
  | ask {inner : List Head} {call : Call} {next : List Node → Script α} {events : List Event}
      {a : α} (asides : List Aside) {answer : List Node} : Path (next answer) events a →
      Path (.ask inner call next) (.asked inner call asides answer :: events) a

variable {ctx : Context σ} {s : Script α} {events : List Event} {a : α}

/-- Containers that fit together are open within others that do. -/
theorem isRegular_of_mem_append {st : State σ} {inner : List Head}
    (hst : ∀ head ∈ st.stack, head.isRegular = true) (hinner : inner.all Head.isRegular = true) :
    ∀ head ∈ st.stack ++ inner, head.isRegular = true := by
  intro head hhead
  rcases List.mem_append.mp hhead with hhead | hhead
  · exact hst head hhead
  · exact List.all_eq_true.mp hinner head hhead

/-- A message that is proper can be made. -/
theorem within_record {inner : List Head} {note : Note} (st : State σ)
    (hst : ∀ head ∈ st.stack, head.isRegular = true)
    (h : (Event.told inner note).isProper = true) :
    Run.within inner (Run.record note) st = .ok () (st.after [.told inner note] st.world) := by
  obtain ⟨hinner, hnote⟩ : inner.all Head.isRegular = true ∧ note.isProper = true := by
    simpa [Event.isProper] using h
  have hrecord := Run.record_eq_enter { st with stack := st.stack ++ inner }
    (isRegular_of_mem_append hst hinner) hnote
  rw [Run.within, hrecord]
  simp [State.after, Event.talk, Event.exchange?, Event.marks, State.enter]

/-- A call that has an answer gets it in containers that fit together. -/
theorem within_put {inner : List Head} {call : Call} {answer : List Node} {next : σ} (st : State σ)
    (hst : ∀ head ∈ st.stack, head.isRegular = true) (hinner : inner.all Head.isRegular = true)
    (h : ctx.answer? call st.world = some (answer, next)) :
    Run.within inner (ctx.put call) st =
      .ok answer (st.after [.asked inner call (ctx.asidesOf call st.world) answer] next) := by
  have hput := Context.put_eq_enter { st with stack := st.stack ++ inner }
    (isRegular_of_mem_append hst hinner) h
  rw [Run.within, hput]
  simp [State.after, Event.talk, Event.exchange?, Event.marks, State.enter]

/-- A run along a path on which everything is proper gives the value at its end, and leaves the
marks and calls of the events and the resolvers' new state. -/
theorem run_of_path (h : s.Path events a) (hproper : ∀ e ∈ events, e.isProper = true)
    (st : State σ) {world : σ} (hst : ∀ head ∈ st.stack, head.isRegular = true)
    (hplays : ctx.Plays st.world events world) :
    s.run ctx st = .ok a (st.after events world) := by
  -- The induction is on the path: each event leaves the state in which the rest of it begins.
  induction h generalizing st with
  | done a =>
    cases hplays
    simp [run, State.after, Event.talk, State.enter_nil]
  | @tell inner note next events a _ ih =>
    have hrest : ∀ e ∈ events, e.isProper = true := fun e he => hproper e (by simp [he])
    cases hplays with
    | told _ _ hplays =>
      rw [run, Run.bind_apply, within_record st hst (hproper _ (by simp))]
      exact (ih hrest (st.after [.told inner note] st.world) hst hplays).trans
        (by rw [← State.after_cons])
  | @ask inner call next events a asides answer _ ih =>
    have hrest : ∀ e ∈ events, e.isProper = true := fun e he => hproper e (by simp [he])
    have hinner : inner.all Head.isRegular = true :=
      hproper (.asked inner call asides answer) (by simp)
    cases hplays with
    | asked _ hanswer hplays =>
      rw [run, Run.bind_apply, within_put st hst hinner hanswer]
      exact (ih hrest (st.after [.asked inner call _ answer] _) hst hplays).trans
        (by rw [← State.after_cons])

/-- A run in which a resolver gives no answer to a call on a path, after the answers of the path to
the calls before it, fails with this call. -/
theorem error_of_path (h : s.Path events a) (hproper : ∀ e ∈ events, e.isProper = true)
    (st : State σ) (hst : ∀ head ∈ st.stack, head.isRegular = true) {front : List (Call × List Node)}
    {call : Call} {answer : List Node} {back : List (Call × List Node)} {next : σ}
    (htalk : Event.talk events = front ++ (call, answer) :: back)
    (hhears : ctx.Hears st.world front next) (hput : ctx.canPut call = true)
    (hnone : ctx.answer? call next = none) :
    ∃ fault st', s.run ctx st = .error fault st' ∧
      st'.calls = st.calls ++ front.map Prod.fst ++ [call] := by
  induction h generalizing st front with
  | done a => simp [Event.talk] at htalk
  | @tell inner note next events a _ ih =>
    have hrest : ∀ e ∈ events, e.isProper = true := fun e he => hproper e (by simp [he])
    obtain ⟨fault, st', hrun, hcalls⟩ :=
      ih hrest (st.after [.told inner note] st.world) hst htalk hhears
    refine ⟨fault, st', ?_, ?_⟩
    · rw [run, Run.bind_apply, within_record st hst (hproper _ (by simp))]
      exact hrun
    · rw [hcalls]
      simp [State.after, Event.talk, Event.exchange?]
  | @ask inner asked next events a asides given _ ih =>
    have hrest : ∀ e ∈ events, e.isProper = true := fun e he => hproper e (by simp [he])
    have hinner : inner.all Head.isRegular = true :=
      hproper (.asked inner asked asides given) (by simp)
    rw [Event.talk_cons] at htalk
    cases front with
    | nil =>
      -- This is the call that gets no answer.
      obtain ⟨⟨rfl, -⟩, -⟩ : (asked = call ∧ given = answer) ∧ Event.talk events = back := by
        simpa [Event.talk, Event.exchange?] using htalk
      cases hhears
      obtain ⟨fault, st', hrun, hcalls, -⟩ :=
        Context.put_of_canPut { st with stack := st.stack ++ inner }
          (isRegular_of_mem_append hst hinner) hput hnone
      refine ⟨fault, { st' with stack := st.stack }, ?_, by simpa using hcalls⟩
      rw [run, Run.bind_apply, Run.within, hrun]
    | cons first others =>
      obtain ⟨rfl, hothers⟩ : (asked, given) = first ∧
          Event.talk events = others ++ (call, answer) :: back := by
        simpa [Event.talk, Event.exchange?] using htalk
      cases hhears with
      | cons hanswer hhears =>
        obtain ⟨fault, st', hrun, hcalls⟩ :=
          ih hrest (st.after [.asked inner asked (ctx.asidesOf asked st.world) given] _) hst
            hothers hhears
        refine ⟨fault, st', ?_, ?_⟩
        · rw [run, Run.bind_apply, within_put st hst hinner hanswer]
          exact hrun
        · rw [hcalls]
          simp [State.after, Event.talk, Event.exchange?]

end Script

end Transclude
