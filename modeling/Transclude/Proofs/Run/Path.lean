import Transclude.Proofs.Run.Script

/-!
# Paths through scripts

The paths through a script that is put together from others are put together from theirs. Whatever
a script does in every case is said by `Script.Always`, and `exists_path_of_always` gives the path
that resolvers take which answer every call. `path_unique` says that it is the only one if what they
say and answer depends on the call and on nothing else.
-/

namespace Transclude

variable {σ α β : Type}

namespace Event

/-- The talk of events is that of the first of them and then that of the others. -/
theorem talk_append (es fs : List Event) : talk (es ++ fs) = talk es ++ talk fs :=
  List.filterMap_append

/-- An event in a container has the same talk. -/
theorem talk_map_under (head : Head) (es : List Event) :
    talk (es.map (under head)) = talk es := by
  unfold talk
  rw [List.filterMap_map]
  congr 1
  funext e
  cases e <;> rfl

/-- The note of an event in which a message is made. -/
def note? : Event → Option Note
  | .told _ note => some note
  | .asked _ _ _ _ => none

/-- An event in a container has the same note. -/
theorem filterMap_note?_map_under (head : Head) (es : List Event) :
    (es.map (under head)).filterMap note? = es.filterMap note? := by
  rw [List.filterMap_map]
  congr 1
  funext e
  cases e <;> rfl

end Event

namespace Script

variable {s : Script α}

/-! ## Paths through parts -/

/-- A path through a script that goes on is a path through its first part and one through what
follows. -/
theorem path_bind {f : α → Script β} {events : List Event} {b : β} :
    (s.bind f).Path events b ↔
      ∃ es fs a, events = es ++ fs ∧ s.Path es a ∧ (f a).Path fs b := by
  constructor
  · intro h
    induction s generalizing events with
    | done a => exact ⟨[], events, a, rfl, .done a, h⟩
    | fail fault => cases h
    | tell inner note next ih =>
      cases h with
      | tell h =>
        obtain ⟨es, fs, a, rfl, hfirst, hrest⟩ := ih h
        exact ⟨_, fs, a, rfl, hfirst.tell, hrest⟩
    | ask inner call next ih =>
      cases h with
      | ask asides h =>
        obtain ⟨es, fs, a, rfl, hfirst, hrest⟩ := ih _ h
        exact ⟨_, fs, a, rfl, hfirst.ask asides, hrest⟩
  · rintro ⟨es, fs, a, rfl, hfirst, hrest⟩
    induction hfirst with
    | done a => exact hrest
    | tell _ ih => exact (ih hrest).tell
    | ask asides _ ih => exact (ih hrest).ask asides

/-- A path through a script in a container is a path through the script, with its events in the
container. -/
theorem path_under {head : Head} {events : List Event} {a : α} (h : (s.under head).Path events a) :
    ∃ es, events = es.map (Event.under head) ∧ s.Path es a := by
  induction s generalizing events with
  | done b =>
    cases h
    exact ⟨[], rfl, .done _⟩
  | fail fault => cases h
  | tell inner note next ih =>
    cases h with
    | tell h =>
      obtain ⟨es, rfl, hnext⟩ := ih h
      exact ⟨_, rfl, hnext.tell⟩
  | ask inner call next ih =>
    cases h with
    | ask asides h =>
      obtain ⟨es, rfl, hnext⟩ := ih _ h
      exact ⟨_, rfl, hnext.ask asides⟩

/-- A path through a result leads to it at once. -/
theorem path_done {events : List Event} {a b : α} (h : (done a).Path events b) :
    events = [] ∧ b = a := by
  cases h
  exact ⟨rfl, rfl⟩

/-- A path through the value that a result gives. -/
theorem path_ofExcept {e : Except Fault α} {events : List Event} {a : α}
    (h : (ofExcept e).Path events a) : events = [] ∧ e = .ok a := by
  cases e with
  | error fault => cases h
  | ok b =>
    obtain ⟨rfl, rfl⟩ := path_done h
    exact ⟨rfl, rfl⟩

/-- A path through the steps of an expansion has their calls and messages in order, and gives their
nodes with the answers. No step fails. -/
theorem path_ofSteps {steps : List Step} {events : List Event} {nodes : List Node}
    (h : (ofSteps steps).Path events nodes) :
    (Event.talk events).map Prod.fst = Step.calls steps ∧
      events.filterMap Event.note? = Step.notes steps ∧
      nodes = Step.outputs steps ((Event.talk events).map Prod.snd) ∧
      ∀ fault, .fail fault ∉ steps := by
  induction steps generalizing events nodes with
  | nil =>
    obtain ⟨rfl, rfl⟩ := path_done h
    exact ⟨rfl, rfl, rfl, by simp⟩
  | cons step rest ih =>
    -- What comes after the step is a path through the others.
    have hrest {kept : List Node} {events : List Event} {nodes : List Node}
        (h : ((ofSteps rest).bind fun others => .done (kept ++ others)).Path events nodes) :
        ∃ others, (ofSteps rest).Path events others ∧ nodes = kept ++ others := by
      obtain ⟨es, fs, others, rfl, hothers, hdone⟩ := path_bind.mp h
      obtain ⟨rfl, rfl⟩ := path_done hdone
      exact ⟨others, by simpa using hothers, rfl⟩
    cases step with
    | keep kept =>
      obtain ⟨others, hothers, rfl⟩ := hrest h
      obtain ⟨hcalls, hnotes, rfl, hfail⟩ := ih hothers
      exact ⟨hcalls, hnotes, rfl, by simpa using hfail⟩
    | tell note kept =>
      cases h with
      | tell h =>
        obtain ⟨others, hothers, rfl⟩ := hrest h
        obtain ⟨hcalls, hnotes, rfl, hfail⟩ := ih hothers
        exact ⟨hcalls, congrArg (note :: ·) hnotes, rfl, by simpa using hfail⟩
    | ask call =>
      cases h with
      | ask asides h =>
        obtain ⟨others, hothers, rfl⟩ := hrest h
        obtain ⟨hcalls, hnotes, rfl, hfail⟩ := ih hothers
        exact ⟨congrArg (call :: ·) hcalls, hnotes, rfl, by simpa using hfail⟩
    | fail fault => cases h

/-! ## What is always so -/

/-- Whatever good answers are heard, the script does not fail, all that happens is proper, and the
value at the end has a property. -/
def Always (Good : Call → List Node → Prop) (Post : α → Prop) : Script α → Prop
  | .done a => Post a
  | .fail _ => False
  | .tell inner note next =>
    inner.all Head.isRegular = true ∧ note.isProper = true ∧ next.Always Good Post
  | .ask inner call next =>
    inner.all Head.isRegular = true ∧ ∀ nodes, Good call nodes → (next nodes).Always Good Post

section Always

variable {Good : Call → List Node → Prop} {Post Mid : α → Prop} {Last : β → Prop}

/-- What is always so of the parts is always so of a script that goes on. -/
theorem Always.bind {f : α → Script β} (h : s.Always Good Mid)
    (hrest : ∀ a, Mid a → (f a).Always Good Last) : (s.bind f).Always Good Last := by
  induction s with
  | done a => exact hrest a h
  | fail fault => exact h
  | tell inner note next ih => exact ⟨h.1, h.2.1, ih h.2.2⟩
  | ask inner call next ih => exact ⟨h.1, fun nodes hgood => ih nodes (h.2 nodes hgood)⟩

/-- What is always so of a script is so of it in a container. -/
theorem Always.under {head : Head} (hr : head.isRegular = true) (h : s.Always Good Post) :
    (s.under head).Always Good Post := by
  induction s with
  | done a => exact h
  | fail fault => exact h
  | tell inner note next ih => exact ⟨by simpa [hr] using h.1, h.2.1, ih h.2.2⟩
  | ask inner call next ih =>
    exact ⟨by simpa [hr] using h.1, fun nodes hgood => ih nodes (h.2 nodes hgood)⟩

/-- Steps that cannot fail and keep nodes of a kind give nodes of this kind, if all answers do. -/
theorem always_ofSteps {P : Node → Prop} {steps : List Step}
    (hgood : ∀ call nodes, Good call nodes → ∀ n ∈ nodes, P n)
    (hfail : ∀ fault, .fail fault ∉ steps)
    (hproper : ∀ note ∈ Step.notes steps, note.isProper = true)
    (hkept : ∀ step ∈ steps, ∀ n ∈ step.kept, P n) :
    (ofSteps steps).Always Good fun nodes => ∀ n ∈ nodes, P n := by
  induction steps with
  | nil => simp [ofSteps, Always]
  | cons step rest ih =>
    have hnotes : ∀ note ∈ Step.notes rest, note.isProper = true := by
      intro note h
      obtain ⟨other, hmem, hnote⟩ := List.mem_filterMap.mp h
      exact hproper note (List.mem_filterMap.mpr ⟨other, by simp [hmem], hnote⟩)
    have hothers := ih (fun fault h => hfail fault (by simp [h])) hnotes
      fun step h => hkept step (by simp [h])
    have hafter {nodes : List Node} (hnodes : ∀ n ∈ nodes, P n) :
        ((ofSteps rest).bind fun others => .done (nodes ++ others)).Always Good
          fun nodes => ∀ n ∈ nodes, P n := by
      refine hothers.bind fun others h n hn => ?_
      exact (List.mem_append.mp hn).elim (hnodes n) (h n)
    cases step with
    | keep nodes => exact hafter (hkept (.keep nodes) (by simp))
    | tell note nodes =>
      exact ⟨rfl, hproper note (by simp [Step.notes, Step.note?]),
        hafter (hkept (.tell note nodes) (by simp))⟩
    | ask call => exact ⟨rfl, fun nodes h => hafter (hgood call nodes h)⟩
    | fail fault => exact absurd (by simp) (hfail fault)

end Always

/-! ## What is asked for -/

/-- Whatever good answers are heard, only calls of a kind are made. -/
def AsksOnly (Good : Call → List Node → Prop) (Able : Call → Prop) : Script α → Prop
  | .done _ => True
  | .fail _ => True
  | .tell _ _ next => next.AsksOnly Good Able
  | .ask _ call next => Able call ∧ ∀ nodes, Good call nodes → (next nodes).AsksOnly Good Able

section AsksOnly

variable {Good : Call → List Node → Prop} {Able : Call → Prop} {Post Mid : α → Prop}

/-- A script that goes on asks for what its parts ask for. -/
theorem AsksOnly.bind {f : α → Script β} (h : s.AsksOnly Good Able) (hmid : s.Always Good Mid)
    (hrest : ∀ a, Mid a → (f a).AsksOnly Good Able) : (s.bind f).AsksOnly Good Able := by
  induction s with
  | done a => exact hrest a hmid
  | fail fault => trivial
  | tell inner note next ih => exact ih h hmid.2.2
  | ask inner call next ih =>
    exact ⟨h.1, fun nodes hgood => ih nodes (h.2 nodes hgood) (hmid.2 nodes hgood)⟩

/-- A script asks for the same in a container. -/
theorem AsksOnly.under {head : Head} (h : s.AsksOnly Good Able) :
    (s.under head).AsksOnly Good Able := by
  induction s with
  | done a => trivial
  | fail fault => trivial
  | tell inner note next ih => exact ih h
  | ask inner call next ih => exact ⟨h.1, fun nodes hgood => ih nodes (h.2 nodes hgood)⟩

/-- A script that goes on asks for calls of a kind if its last part does for whatever value. -/
theorem AsksOnly.bind_of_forall {f : α → Script β} (h : s.AsksOnly Good Able)
    (hrest : ∀ a, (f a).AsksOnly Good Able) : (s.bind f).AsksOnly Good Able := by
  induction s with
  | done a => exact hrest a
  | fail fault => trivial
  | tell inner note next ih => exact ih h
  | ask inner call next ih => exact ⟨h.1, fun nodes hgood => ih nodes (h.2 nodes hgood)⟩

/-- A script asks for calls of whatever kind. -/
theorem asksOnly_true : s.AsksOnly Good fun _ => True := by
  induction s with
  | done a => trivial
  | fail fault => trivial
  | tell inner note next ih => exact ih
  | ask inner call next ih => exact ⟨trivial, fun nodes _ => ih nodes⟩

/-- A result asks for nothing. -/
theorem asksOnly_ofExcept (e : Except Fault α) : (ofExcept e).AsksOnly Good Able := by
  cases e <;> trivial

/-- Steps ask for their calls. -/
theorem asksOnly_ofSteps {steps : List Step} (h : ∀ call ∈ Step.calls steps, Able call) :
    (ofSteps steps).AsksOnly Good Able := by
  induction steps with
  | nil => trivial
  | cons step rest ih =>
    cases step with
    | keep nodes => exact (ih h).bind_of_forall fun others => trivial
    | tell note nodes => exact (ih h).bind_of_forall fun others => trivial
    | ask call =>
      obtain ⟨hcall, hrest⟩ : Able call ∧ ∀ call ∈ Step.calls rest, Able call :=
        List.forall_mem_cons.mp h
      exact ⟨hcall, fun nodes _ => (ih hrest).bind_of_forall fun others => trivial⟩
    | fail fault => trivial

/-- Resolvers that give a good answer to every call of a kind take a script that always comes to its
end, and asks for such calls only, along a path. Everything on it is proper. -/
theorem exists_path_of_asksOnly {ctx : Context σ}
    (hctx : ∀ call, Able call → ∀ world, ∃ nodes next,
      ctx.answer? call world = some (nodes, next) ∧ Good call nodes)
    (h : s.Always Good Post) (hasks : s.AsksOnly Good Able) (world : σ) :
    ∃ events a after, s.Path events a ∧ ctx.Plays world events after ∧ Post a ∧
      (∀ e ∈ events, e.isProper = true) ∧
      ∀ x ∈ Event.talk events, Able x.1 ∧ Good x.1 x.2 := by
  induction s generalizing world with
  | done a => exact ⟨[], a, world, .done a, .nil world, h, by simp, by simp [Event.talk]⟩
  | fail fault => exact h.elim
  | tell inner note next ih =>
    obtain ⟨hinner, hnote, hnext⟩ := h
    obtain ⟨events, a, after, hpath, hplays, hpost, hproper, hgood⟩ := ih hnext hasks world
    refine ⟨_, a, after, hpath.tell, .told inner note hplays, hpost, ?_, hgood⟩
    simpa [Event.isProper, hinner, hnote] using hproper
  | ask inner call next ih =>
    obtain ⟨hinner, hnext⟩ := h
    obtain ⟨hable, hafter⟩ := hasks
    obtain ⟨nodes, mid, hanswer, hnodes⟩ := hctx call hable world
    obtain ⟨events, a, after, hpath, hplays, hpost, hproper, hgood⟩ :=
      ih nodes (hnext nodes hnodes) (hafter nodes hnodes) mid
    refine ⟨_, a, after, hpath.ask _, .asked inner hanswer hplays, hpost, ?_, ?_⟩
    · simpa [Event.isProper, hinner] using hproper
    · rw [Event.talk_cons]
      intro x hx
      rcases List.mem_cons.mp hx with rfl | hx
      · exact ⟨hable, hnodes⟩
      · exact hgood x hx

/-- Resolvers that give a good answer to every call take a script that always comes to its end along
a path, on which everything is proper. -/
theorem exists_path_of_always {ctx : Context σ}
    (hctx : ∀ call world, ∃ nodes next, ctx.answer? call world = some (nodes, next) ∧
      Good call nodes)
    (h : s.Always Good Post) (world : σ) :
    ∃ events a after, s.Path events a ∧ ctx.Plays world events after ∧ Post a ∧
      (∀ e ∈ events, e.isProper = true) ∧ ∀ x ∈ Event.talk events, Good x.1 x.2 := by
  obtain ⟨events, a, after, hpath, hplays, hpost, hproper, hgood⟩ :=
    exists_path_of_asksOnly (fun call _ => hctx call) h asksOnly_true world
  exact ⟨events, a, after, hpath, hplays, hpost, hproper, fun x hx => (hgood x hx).2⟩

end AsksOnly

end Script

/-! ## Resolvers that go by the call -/

namespace Context

variable {ctx : Context σ}

/-- What the resolvers answer depends on the call and not on their state. -/
def AnswersByCall (ctx : Context σ) : Prop := ∀ call world other,
  (ctx.answer? call world).map Prod.fst = (ctx.answer? call other).map Prod.fst

/-- What the resolvers say while they answer depends on the call and not on their state. -/
def SpeaksByCall (ctx : Context σ) : Prop := ∀ call world other,
  ctx.notesOf call world = ctx.notesOf call other

/-- The resolvers say nothing while they answer. -/
def Silent (ctx : Context σ) : Prop := ∀ call world, ctx.notesOf call world = []

/-- Events without messages leave no entries if the resolvers say nothing. -/
theorem Plays.entries_eq_nil (hctx : ctx.Silent) {world after : σ} {events : List Event}
    (h : ctx.Plays world events after) (hnotes : events.filterMap Event.note? = [])
    (outer : List Head) : events.flatMap (Event.entries outer) = [] := by
  induction h with
  | nil world => rfl
  | told inner note _ ih => simp [Event.note?] at hnotes
  | @asked world next after events call answer inner _ _ ih =>
    have hsaid : Aside.notes (ctx.asidesOf call world) = [] := hctx call world
    rw [List.flatMap_cons, Event.entries, hsaid, ih hnotes]
    rfl

/-- Resolvers that go by the call give the same answer in every state. -/
theorem AnswersByCall.eq (h : ctx.AnswersByCall) {call : Call} {world other next after : σ}
    {nodes nodes' : List Node} (hanswer : ctx.answer? call world = some (nodes, next))
    (hanswer' : ctx.answer? call other = some (nodes', after)) : nodes = nodes' := by
  have hsame := h call world other
  rw [hanswer, hanswer', Option.map_some, Option.map_some] at hsame
  exact Option.some.inj hsame

/-- Resolvers that go by the call give the same answers to calls in every state. -/
theorem AnswersByCall.answers_eq (h : ctx.AnswersByCall) (calls : List Call) (world other : σ) :
    ctx.answers calls world = ctx.answers calls other := by
  induction calls generalizing world other with
  | nil => rfl
  | cons call rest ih =>
    have hsame := h call world other
    unfold answers
    cases hanswer : ctx.answer? call world with
    | none =>
      rw [hanswer] at hsame
      rw [Option.map_eq_none_iff.mp hsame.symm]
    | some answer =>
      rw [hanswer] at hsame
      obtain ⟨answer', hanswer', heq⟩ := Option.map_eq_some_iff.mp hsame.symm
      rw [hanswer']
      dsimp only
      rw [heq, ih answer.2 answer'.2]

/-- The resolvers play their part in some events and then in those that follow. -/
theorem plays_append {world after : σ} {es fs : List Event} :
    ctx.Plays world (es ++ fs) after ↔
      ∃ next, ctx.Plays world es next ∧ ctx.Plays next fs after := by
  constructor
  · intro h
    induction es generalizing world with
    | nil => exact ⟨world, .nil world, h⟩
    | cons e es ih =>
      cases h with
      | told inner note h =>
        obtain ⟨next, hes, hfs⟩ := ih h
        exact ⟨next, .told inner note hes, hfs⟩
      | asked inner hanswer h =>
        obtain ⟨next, hes, hfs⟩ := ih h
        exact ⟨next, .asked inner hanswer hes, hfs⟩
  · rintro ⟨next, hes, hfs⟩
    induction hes with
    | nil world => exact hfs
    | told inner note _ ih => exact .told inner note (ih hfs)
    | asked inner hanswer _ ih => exact .asked inner hanswer (ih hfs)

/-- The resolvers play the same part in events in a container. -/
theorem plays_of_map_under {world after : σ} {head : Head} {es : List Event}
    (h : ctx.Plays world (es.map (Event.under head)) after) : ctx.Plays world es after := by
  induction es generalizing world with
  | nil => exact h
  | cons e es ih =>
    cases e with
    | told inner note =>
      cases h with
      | told _ _ h => exact .told inner note (ih h)
    | asked inner call asides answer =>
      cases h with
      | asked _ hanswer h => exact .asked inner hanswer (ih h)

end Context

namespace Script

/-- Resolvers whose answers go by the call take a script along one path, whatever their state is,
but for what they do besides. If what they say goes by the call as well, the path has the same
entries. -/
theorem path_unique {ctx : Context σ} {s : Script α} {es fs : List Event} {a b : α}
    {world after other last : σ} (hctx : ctx.AnswersByCall) (h : s.Path es a)
    (hplays : ctx.Plays world es after) (h' : s.Path fs b) (hplays' : ctx.Plays other fs last) :
    a = b ∧ Event.talk es = Event.talk fs ∧ (ctx.SpeaksByCall → ∀ outer,
      es.flatMap (Event.entries outer) = fs.flatMap (Event.entries outer)) := by
  induction h generalizing fs world other with
  | done a =>
    obtain ⟨rfl, rfl⟩ := path_done h'
    exact ⟨rfl, rfl, fun _ outer => rfl⟩
  | @tell inner note next es a _ ih =>
    cases h' with
    | tell h' =>
      cases hplays with
      | told _ _ hplays =>
        cases hplays' with
        | told _ _ hplays' =>
          obtain ⟨rfl, htalk, hentries⟩ := ih hplays h' hplays'
          refine ⟨rfl, htalk, fun hnotes outer => ?_⟩
          rw [List.flatMap_cons, List.flatMap_cons, hentries hnotes outer]
  | @ask inner call next es a asides answer _ ih =>
    cases h' with
    | ask asides' h' =>
      cases hplays with
      | asked _ hanswer hplays =>
        cases hplays' with
        | asked _ hanswer' hplays' =>
          -- Both go on with the same answer.
          obtain rfl := hctx.eq hanswer hanswer'
          obtain ⟨rfl, htalk, hentries⟩ := ih hplays h' hplays'
          refine ⟨rfl, congrArg (_ :: ·) htalk, fun hnotes outer => ?_⟩
          have hsaid : Aside.notes (ctx.asidesOf call world) =
              Aside.notes (ctx.asidesOf call other) := hnotes call world other
          rw [List.flatMap_cons, List.flatMap_cons, hentries hnotes outer, Event.entries,
            Event.entries, hsaid]

end Script

end Transclude
