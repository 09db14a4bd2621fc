import Transclude.Proofs.Run.Ask
import Mathlib.Data.List.TakeWhile

/-!
# What recordings leave

An entry is a message with the containers that it is about, and a mark is an entry or a new threshold
of the log. `State.enter` keeps the messages of marks and writes to the log those that it takes at
their time (`Log.records_enter`). `put_eq_enter` says that a call which is answered leaves the marks of
what the resolver does besides answering, the call, and the resolvers' new state, and nothing else.
-/

namespace Transclude

variable {σ α : Type}

/-! ## Entries -/

/-- A message with the containers that it is about. -/
structure Entry where
  /-- How important it is. -/
  level : Level
  /-- The containers, from the outside in. -/
  stack : List Head
  /-- What it says. -/
  text : String
  /-- More detail, or nothing. -/
  trace : String
  /-- Where in the program it was made. -/
  calledFrom : String
deriving Repr, Inhabited

namespace Entry

/-- The message of an entry, with the path through its containers. -/
def message (e : Entry) : Message := ⟨e.text, e.trace, e.calledFrom, titles e.stack⟩

/-- The line of the log for an entry. -/
def line (e : Entry) : String := logLine (placeOf e.stack) e.text e.trace

/-- An entry made within other containers. -/
def within (outer : List Head) (e : Entry) : Entry := { e with stack := outer ++ e.stack }

end Entry

/-- A message with a path in front of its own. -/
def Message.within (path : List Value) (m : Message) : Message := { m with path := path ++ m.path }

/-- The message of an entry within other containers has their path in front. -/
theorem Entry.message_within (outer : List Head) (e : Entry) :
    (e.within outer).message = e.message.within (titles outer) := by
  simp [within, message, Message.within, titles]

/-- The entry that a note asks for among open containers. There is none if a part of the note is not
a text. -/
def Note.entry? (stack : List Head) (note : Note) : Option Entry :=
  (note.message? []).map fun m => ⟨note.level, stack, m.text, m.trace, m.calledFrom⟩

namespace Note

/-- The message of a note at a path is that of its entry. -/
theorem message?_titles (stack : List Head) (note : Note) :
    note.message? (titles stack) = (note.entry? stack).map Entry.message := by
  obtain ⟨level, text, trace, calledFrom⟩ := note
  unfold entry? message?
  dsimp only
  split <;> rfl

/-- A note has its entry within other containers. -/
theorem entry?_append (outer stack : List Head) (note : Note) :
    note.entry? (outer ++ stack) = (note.entry? stack).map (Entry.within outer) := by
  unfold entry?
  rw [Option.map_map]
  rfl

/-- An entry is as important as its note, and about the same containers. -/
theorem level_of_entry? {stack : List Head} {note : Note} {e : Entry}
    (h : note.entry? stack = some e) : e.level = note.level ∧ e.stack = stack := by
  obtain ⟨m, -, rfl⟩ := Option.map_eq_some_iff.mp h
  exact ⟨rfl, rfl⟩

/-- A proper note has an entry. -/
theorem exists_entry? {note : Note} (h : note.isProper = true) (stack : List Head) :
    ∃ e, note.entry? stack = some e := by
  obtain ⟨m, hm⟩ := Option.isSome_iff_exists.mp h
  exact ⟨_, Option.map_eq_some_iff.mpr ⟨m, hm, rfl⟩⟩

end Note

/-! ## Marks -/

/-- What a resolver or the walk does at one moment besides asking and answering. -/
inductive Mark where
  /-- A message is made. -/
  | entry (e : Entry)
  /-- The threshold of the log is set. -/
  | threshold (value : Nat)
deriving Repr, Inhabited

namespace Mark

/-- The entry of a mark, if it is one. -/
def entry? : Mark → Option Entry
  | .entry e => some e
  | .threshold _ => none

/-- The threshold that a mark sets, if it sets one. -/
def threshold? : Mark → Option Nat
  | .entry _ => none
  | .threshold value => some value

/-- The entries of marks, in order. -/
def entries (marks : List Mark) : List Entry := marks.filterMap entry?

/-- The entries of marks, each with the threshold that the log has at its time: the last that was set
before, or the one from the beginning. -/
def weighed : Nat → List Mark → List (Entry × Nat)
  | _, [] => []
  | least, .entry e :: rest => (e, least) :: weighed least rest
  | _, .threshold value :: rest => weighed value rest

/-- The thresholds that marks set, in order. -/
def thresholds (marks : List Mark) : List Nat := marks.filterMap threshold?

/-- Each entry is weighed, in order. -/
theorem map_fst_weighed (least : Nat) (marks : List Mark) :
    (weighed least marks).map Prod.fst = entries marks := by
  induction marks generalizing least with
  | nil => rfl
  | cons mark rest ih =>
    cases mark with
    | entry e => exact congrArg (e :: ·) (ih least)
    | threshold value => exact ih value

/-- The entries of marks are those of the first of them and then those of the others. -/
theorem entries_append (marks more : List Mark) :
    entries (marks ++ more) = entries marks ++ entries more := List.filterMap_append

/-- The thresholds of marks are those of the first of them and then those of the others. -/
theorem thresholds_append (marks more : List Mark) :
    thresholds (marks ++ more) = thresholds marks ++ thresholds more := List.filterMap_append

end Mark

/-- The mark of an aside among open containers. There is none for a message that cannot be made. -/
def Aside.mark? (stack : List Head) : Aside → Option Mark
  | .note said => (said.entry? stack).map .entry
  | .threshold value => some (.threshold value)

/-- The messages of asides, in order. -/
def Aside.notes (asides : List Aside) : List Note := asides.filterMap note?

/-- The entries of asides are those of their messages. -/
theorem Aside.entries_filterMap_mark? (stack : List Head) (asides : List Aside) :
    Mark.entries (asides.filterMap (mark? stack)) =
      (notes asides).filterMap (Note.entry? stack) := by
  unfold Mark.entries notes
  rw [List.filterMap_filterMap, List.filterMap_filterMap]
  congr 1
  funext aside
  cases aside with
  | note said =>
    change ((said.entry? stack).map Mark.entry).bind Mark.entry? = said.entry? stack
    cases said.entry? stack <;> rfl
  | threshold value => rfl

/-- The thresholds that asides set, in order. -/
def Aside.thresholds (asides : List Aside) : List Nat := asides.filterMap threshold?

/-- The marks of asides set the thresholds that the asides set. -/
theorem Aside.thresholds_filterMap_mark? (stack : List Head) (asides : List Aside) :
    Mark.thresholds (asides.filterMap (mark? stack)) = thresholds asides := by
  unfold Mark.thresholds thresholds
  rw [List.filterMap_filterMap]
  congr 1
  funext aside
  cases aside with
  | note said =>
    change ((said.entry? stack).map Mark.entry).bind Mark.threshold? = none
    cases said.entry? stack <;> rfl
  | threshold value => rfl

/-- An aside that can be carried out has a mark. -/
theorem Aside.exists_mark? {aside : Aside} (h : aside.isProper = true) (stack : List Head) :
    ∃ mark, aside.mark? stack = some mark := by
  cases aside with
  | note said =>
    obtain ⟨e, he⟩ := said.exists_entry? h stack
    exact ⟨.entry e, by rw [mark?, he]; rfl⟩
  | threshold value => exact ⟨.threshold value, rfl⟩

/-! ## Keeping entries -/

/-- Adds the messages of entries. -/
def Messages.enter (messages : Messages) (entries : List Entry) : Messages :=
  entries.foldl (fun messages e => messages.add e.level e.message) messages

/-- The messages of a level. -/
def Messages.ofLevel (messages : Messages) : Level → List Message
  | .error => messages.errors
  | .warning => messages.warnings
  | .debug => messages.debugs

/-- Writes the line of an entry to a log, or sets its threshold. -/
def Log.mark (log : Log) : Mark → Log
  | .entry e => log.add e.level e.line
  | .threshold value => { log with threshold := value }

/-- Writes the lines of marks to a log, and sets its threshold where they do. -/
def Log.enter (log : Log) (marks : List Mark) : Log := marks.foldl mark log

/-- The messages of entries are added one after the other. -/
theorem Messages.enter_append (messages : Messages) (es fs : List Entry) :
    messages.enter (es ++ fs) = (messages.enter es).enter fs := List.foldl_append

/-- A message is added to those of its level. -/
theorem Messages.ofLevel_add (messages : Messages) (level other : Level) (message : Message) :
    (messages.add level message).ofLevel other =
      messages.ofLevel other ++ if level = other then [message] else [] := by
  cases level <;> cases other <;> simp [add, ofLevel]

/-- The messages of entries come after those that were there, each among those of its level. -/
theorem Messages.ofLevel_enter (messages : Messages) (entries : List Entry) (level : Level) :
    (messages.enter entries).ofLevel level =
      messages.ofLevel level ++ (entries.filter (·.level = level)).map Entry.message := by
  induction entries generalizing messages with
  | nil => simp [enter]
  | cons e rest ih =>
    have hrest := ih (messages.add e.level e.message)
    unfold enter at hrest ⊢
    rw [List.foldl_cons, hrest, ofLevel_add, List.filter_cons]
    by_cases h : e.level = level <;> simp [h]

/-- Marks are made in the log one after the other. -/
theorem Log.enter_append (log : Log) (marks more : List Mark) :
    log.enter (marks ++ more) = (log.enter marks).enter more := List.foldl_append

/-- The threshold of a log after marks is the last that they set. -/
theorem Log.threshold_enter (log : Log) (marks : List Mark) :
    (log.enter marks).threshold = (Mark.thresholds marks).getLastD log.threshold := by
  induction marks generalizing log with
  | nil => rfl
  | cons m rest ih =>
    have hrest : ((log.mark m).enter rest).threshold =
        (Mark.thresholds rest).getLastD (log.mark m).threshold := ih (log.mark m)
    cases m with
    | entry e =>
      have hsame : (log.mark (.entry e)).threshold = log.threshold := by
        unfold mark add
        dsimp only
        split <;> rfl
      rw [hsame] at hrest
      exact hrest
    | threshold value => exact hrest.trans (List.getLastD_cons ..).symm

/-- The lines of the entries that weigh enough at their time come after what was written. -/
theorem Log.records_enter (log : Log) (marks : List Mark) :
    (log.enter marks).records = log.records ++
      ((Mark.weighed log.threshold marks).filter fun x => x.2 ≤ x.1.level.weight).map
        fun x => (x.1.level, x.1.line) := by
  induction marks generalizing log with
  | nil => simp [enter, Mark.weighed]
  | cons m rest ih =>
    have hrest := ih (log.mark m)
    unfold enter at hrest ⊢
    rw [List.foldl_cons, hrest]
    cases m with
    | threshold value => rfl
    | entry e =>
      rw [mark, Mark.weighed, List.filter_cons]
      unfold add admits
      by_cases h : log.threshold ≤ e.level.weight <;> simp [h]

namespace State

/-- Keeps the messages of marks and makes the marks in the log. -/
def enter (st : State σ) (marks : List Mark) : State σ :=
  { st with messages := st.messages.enter (Mark.entries marks), log := st.log.enter marks }

/-- No marks leave nothing. -/
theorem enter_nil (st : State σ) : st.enter [] = st := rfl

/-- Marks without entries only set the threshold of the log. -/
theorem enter_of_no_entries (st : State σ) {marks : List Mark} (h : Mark.entries marks = []) :
    st.enter marks = { st with
      log := { st.log with threshold := (Mark.thresholds marks).getLastD st.log.threshold } } := by
  have hweighed : Mark.weighed st.log.threshold marks = [] :=
    List.map_eq_nil_iff.mp ((Mark.map_fst_weighed _ marks).trans h)
  have hrecords : (st.log.enter marks).records = st.log.records := by
    rw [Log.records_enter, hweighed]
    exact List.append_nil _
  unfold enter
  rw [h, ← Log.threshold_enter]
  dsimp only
  rw [← hrecords]
  rfl

/-- Making one entry is keeping its message. -/
theorem keep_eq_enter (st : State σ) {e : Entry} (h : e.stack = st.stack) :
    st.keep e.level e.message = st.enter [.entry e] := by
  unfold keep enter Messages.enter Log.enter
  rw [← h]
  rfl

end State

namespace Run

/-- A proper note leaves its entry. -/
theorem record_eq_enter {note : Note} (st : State σ) (hst : ∀ head ∈ st.stack, head.isRegular = true)
    (h : note.isProper = true) :
    record note st = .ok () (st.enter ((Aside.note note).mark? st.stack).toList) := by
  obtain ⟨e, he⟩ := note.exists_entry? h st.stack
  obtain ⟨hlevel, hstack⟩ := note.level_of_entry? he
  have hkeep : record note st = .ok () (st.keep e.level e.message) := by
    rw [record_of_isRegular note st hst, note.message?_titles, he, hlevel]
    rfl
  rw [hkeep, Aside.mark?, he, State.keep_eq_enter st hstack]
  rfl

/-- An aside that can be carried out leaves its mark. -/
theorem carryOut_eq_enter {aside : Aside} (st : State σ)
    (hst : ∀ head ∈ st.stack, head.isRegular = true) (h : aside.isProper = true) :
    carryOut aside st = .ok () (st.enter (aside.mark? st.stack).toList) := by
  cases aside with
  | note said => exact record_eq_enter st hst h
  | threshold value => rfl

/-- Asides leave their marks up to the first that cannot be carried out. There carrying out stops. -/
theorem carryOutAll_eq_enter (asides : List (Aside × σ)) (st : State σ)
    (hst : ∀ head ∈ st.stack, head.isRegular = true) :
    ∃ world,
      let after : State σ := { st.enter (((asides.map Prod.fst).takeWhile
        Aside.isProper).filterMap (Aside.mark? st.stack)) with world := world }
      carryOutAll asides st =
        if asides.all fun a => a.1.isProper then .ok () after else .error .refused after := by
  induction asides generalizing st with
  | nil => exact ⟨st.world, rfl⟩
  | cons a rest ih =>
    obtain ⟨aside, world⟩ := a
    rw [carryOutAll, modify_bind, bind_apply, List.map_cons, List.all_cons]
    cases hfirst : aside.isProper with
    | false =>
      refine ⟨world, ?_⟩
      rw [carryOut_error { st with world := world } hst hfirst,
        List.takeWhile_cons_of_neg (by simp [hfirst])]
      rfl
    | true =>
      obtain ⟨mark, hmark⟩ := aside.exists_mark? hfirst st.stack
      obtain ⟨after, hafter⟩ := ih (State.enter { st with world := world } [mark]) hst
      refine ⟨after, ?_⟩
      rw [carryOut_eq_enter { st with world := world } hst hfirst,
        List.takeWhile_cons_of_pos hfirst, List.filterMap_cons]
      simp only [hmark, Option.toList_some, Bool.true_and]
      rw [hafter]
      simp only [State.enter, ← Messages.enter_append, ← Log.enter_append, ← Mark.entries_append,
        List.singleton_append]

end Run

/-! ## Calls -/

/-- What a resolver does besides answering a question. -/
def Resolver.asides (resolver : Resolver σ α) (question : α) (world : σ) : List Aside :=
  match resolver with
  | .value _ => []
  | .function respond => (respond question world).asides.map Prod.fst

/-- What a resolver says while it answers a question. -/
def Resolver.notes (resolver : Resolver σ α) (question : α) (world : σ) : List Note :=
  Aside.notes (resolver.asides question world)

/-- What a resolver says is in its reply. -/
theorem Resolver.notes_function (respond : α → σ → Reply σ) (question : α) (world : σ) :
    (Resolver.function respond).notes question world = (respond question world).notes :=
  List.filterMap_map

/-- Whether a resolver can be called. -/
def Resolver.isFunction : Resolver σ α → Bool
  | .value _ => false
  | .function _ => true

/-- A resolver that can be called is a function. -/
theorem Resolver.exists_of_isFunction {resolver : Resolver σ α} (h : resolver.isFunction = true) :
    ∃ respond, resolver = .function respond := by
  cases resolver with
  | value given => simp [isFunction] at h
  | function respond => exact ⟨respond, rfl⟩

/-- A question that has an answer gets it. It leaves the marks of what the resolver does besides, the
call, and the resolvers' new state. -/
theorem Run.ask_eq_enter {role : Role} {resolver : Resolver σ α} {call : Call} {question : α}
    {st : State σ} {nodes : List Node} {world : σ}
    (hst : ∀ head ∈ st.stack, head.isRegular = true)
    (h : resolver.answer? role question st.world = some (nodes, world)) :
    ask role resolver call question st = .ok nodes
      { st.enter ((resolver.asides question st.world).filterMap (Aside.mark? st.stack)) with
        calls := st.calls ++ [call]
        world := world } := by
  cases resolver with
  | value given => simp [Resolver.answer?] at h
  | function respond =>
    simp only [Resolver.answer?] at h
    split at h
    · next nodes' hasides hnodes =>
      obtain ⟨rfl, rfl⟩ : nodes' = nodes ∧ (respond question st.world).world = world := by
        simpa using h
      obtain ⟨last, hrun⟩ := carryOutAll_eq_enter (respond question st.world).asides
        { st with calls := st.calls ++ [call] } hst
      have hall : ((respond question st.world).asides.map Prod.fst).takeWhile Aside.isProper =
          (respond question st.world).asides.map Prod.fst :=
        List.takeWhile_eq_self_iff.mpr (by simpa using hasides)
      rw [ask_function, hrun, hasides, hall, if_pos rfl]
      dsimp only
      rw [hnodes]
      rfl
    · simp at h

namespace Context

variable {ctx : Context σ}

/-- What a resolver does besides answering a call. -/
def asidesOf (ctx : Context σ) (call : Call) (world : σ) : List Aside :=
  match call with
  | .link reference => ctx.link.asides reference world
  | .template call => ctx.template.asides call world

/-- What a resolver says while it answers a call. -/
def notesOf (ctx : Context σ) (call : Call) (world : σ) : List Note :=
  Aside.notes (ctx.asidesOf call world)

/-- A call that has an answer gets it. It leaves the marks of what the resolver does besides, the call,
and the resolvers' new state. -/
theorem put_eq_enter {call : Call} {nodes : List Node} {world : σ} (st : State σ)
    (hst : ∀ head ∈ st.stack, head.isRegular = true)
    (h : ctx.answer? call st.world = some (nodes, world)) :
    ctx.put call st = .ok nodes
      { st.enter ((ctx.asidesOf call st.world).filterMap (Aside.mark? st.stack)) with
        calls := st.calls ++ [call]
        world := world } := by
  cases call with
  | link reference => exact Run.ask_eq_enter hst h
  | template call => exact Run.ask_eq_enter hst h

/-- Whether the resolver that a call is for can be called. -/
def canPut (ctx : Context σ) : Call → Bool
  | .link _ => ctx.link.isFunction
  | .template _ => ctx.template.isFunction

/-- A call that has no answer from a resolver that can be called makes a run fail, with this one
call more. -/
theorem put_of_canPut {call : Call} (st : State σ)
    (hst : ∀ head ∈ st.stack, head.isRegular = true) (hput : ctx.canPut call = true)
    (h : ctx.answer? call st.world = none) :
    ∃ fault st', ctx.put call st = .error fault st' ∧ st'.calls = st.calls ++ [call] ∧
      st'.stack = st.stack := by
  cases call with
  | link reference =>
    obtain ⟨respond, hlink⟩ := Resolver.exists_of_isFunction hput
    simp only [answer?, hlink] at h
    rw [put, resolveLink, hlink]
    exact Run.ask_function_of_no_answer hst h
  | template call =>
    obtain ⟨respond, htemplate⟩ := Resolver.exists_of_isFunction hput
    simp only [answer?, htemplate] at h
    rw [put, resolveTemplate, htemplate]
    exact Run.ask_function_of_no_answer hst h

end Context

end Transclude
