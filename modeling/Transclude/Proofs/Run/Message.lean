import Transclude.Run.State
import Transclude.Proofs.Tree.Regular

/-!
# Recording messages

Among containers whose heads fit together every path has names: `titles` gives them, and `placeOf`
shows them as the log does. `record_of_isRegular` says what recording a note then does. It fails only
for a note with a part that is not a text, and it leaves the calls, the open containers, and the
resolvers' own state alone in any case. So does all that a resolver does besides answering
(`carryOutAll_ok`, `carryOutAll_error`), but for its own state.
-/

namespace Transclude

/-! ## The names of containers -/

/-- What a container whose head fits together is called in a path. -/
def Head.title : Head → String
  | .element tag _ => tag
  | .other type _ => type
  | .root => Kind.root.name
  | .text _ => Kind.text.name
  | .comment _ => Kind.comment.name
  | .doctype => Kind.doctype.name
  | .irregular _ => ""

/-- A head that fits together has its title as its name in a path. -/
theorem Head.pathName_of_isRegular {head : Head} (h : head.isRegular = true) :
    head.pathName = .ok (.str head.title) := by
  unfold Head.pathName
  cases head with
  | irregular traits => simp [Head.isRegular] at h
  | _ =>
    simp [Head.isKind, Head.kinds, Head.traits, Kinds.single_beq_single, Kinds.name?_single,
      Head.title, Head.tag, Head.typeName?]

/-- The path through containers whose heads fit together. -/
def titles (stack : List Head) : List Value := stack.map fun head => .str head.title

/-- Containers whose heads fit together have a path. -/
theorem pathOf_of_isRegular {stack : List Head} (h : ∀ head ∈ stack, head.isRegular = true) :
    pathOf stack = .ok (titles stack) := by
  induction stack with
  | nil => rfl
  | cons head rest ih =>
    have hhead := Head.pathName_of_isRegular (h head (by simp))
    have hrest := ih fun other hmem => h other (by simp [hmem])
    unfold pathOf at hrest ⊢
    rw [List.mapM_cons, hhead, hrest]
    rfl

/-- The names in a path of titles are texts. -/
theorem pathTexts_titles (stack : List Head) :
    pathTexts (titles stack) = .ok (stack.map Head.title) := by
  induction stack with
  | nil => rfl
  | cons head rest ih =>
    unfold titles at ih ⊢
    rw [List.map_cons, pathTexts, ih]
    rfl

/-- How the log shows the path through containers whose heads fit together. -/
def placeOf (stack : List Head) : String :=
  let place := "/".intercalate (stack.map Head.title)
  if place = "" then "ROOT" else place

/-- The log can show every path of titles. -/
theorem location_titles (stack : List Head) : location (titles stack) = .ok (placeOf stack) := by
  unfold location
  rw [pathTexts_titles]
  rfl

/-! ## Notes -/

namespace Note

/-- The message that a note asks for at a path. There is none if a part of it is not a text. -/
def message? (path : List Value) (note : Note) : Option Message :=
  match note.text, note.trace, note.calledFrom with
  | .str text, .str trace, .str calledFrom => some ⟨text, trace, calledFrom, path⟩
  | .str text, .null, .str calledFrom => some ⟨text, "", calledFrom, path⟩
  | _, _, _ => none

/-- Whether a note asks for a message that can be made. -/
def isProper (note : Note) : Bool := (note.message? []).isSome

/-- Whether a message can be made does not depend on the path. -/
theorem isSome_message? (note : Note) (path : List Value) :
    (note.message? path).isSome = note.isProper := by
  unfold isProper message?
  split <;> rfl

/-- A message is about the path that it was made for. -/
theorem path_of_message? {note : Note} {path : List Value} {m : Message}
    (h : note.message? path = some m) : m.path = path := by
  unfold message? at h
  split at h
  · rw [← Option.some.inj h]
  · rw [← Option.some.inj h]
  · simp at h

end Note

/-- Whether what a resolver does besides answering can be carried out: a message must be one that can
be made. -/
def Aside.isProper : Aside → Bool
  | .note said => said.isProper
  | .threshold _ => true

/-! ## Steps of a run -/

namespace Run

variable {σ α β : Type}

/-- A step that gives a value leaves the state as it is. -/
@[simp] theorem pure_apply (a : α) (st : State σ) : (pure a : Run σ α) st = .ok a st := rfl

/-- A step that fails leaves the state as it is. -/
@[simp] theorem throw_apply (fault : Fault) (st : State σ) :
    (throw fault : Run σ α) st = .error fault st := rfl

/-- A result as a step. -/
@[simp] theorem ofExcept_ok (a : α) : (ofExcept (.ok a) : Run σ α) = pure a := rfl

/-- A fault as a step. -/
@[simp] theorem ofExcept_error (fault : Fault) :
    (ofExcept (.error fault) : Run σ α) = throw fault := rfl

/-- A step that is followed by another. -/
theorem bind_apply (m : Run σ α) (f : α → Run σ β) (st : State σ) :
    (m >>= f) st = match m st with
      | .ok a st' => f a st'
      | .error fault st' => .error fault st' := by
  change EStateM.bind m f st = _
  unfold EStateM.bind
  cases m st <;> rfl

/-- A step that goes by the state. -/
theorem get_bind (f : State σ → Run σ β) (st : State σ) : (get >>= f) st = f st st := rfl

/-- A step from a changed state. -/
theorem modify_bind (g : State σ → State σ) (f : PUnit → Run σ β) (st : State σ) :
    (modify g >>= f) st = f ⟨⟩ (g st) := rfl

/-- The message for a note among containers whose heads fit together. -/
theorem message_of_isRegular {note : Note} {stack : List Head}
    (h : ∀ head ∈ stack, head.isRegular = true) :
    message note stack = match note.message? (titles stack) with
      | some m => .ok m
      | none => .error .refused := by
  unfold message
  rw [pathOf_of_isRegular h]
  split
  · next htext htrace hfrom =>
    rw [Note.message?, htext, htrace, hfrom]
    rfl
  · next htext htrace hfrom =>
    rw [Note.message?, htext, htrace, hfrom]
    rfl
  · next hgiven hmissing =>
    have hnone : note.message? (titles stack) = none := by
      unfold Note.message?
      split
      · next htext htrace hfrom => exact (hgiven _ _ _ htext htrace hfrom).elim
      · next htext htrace hfrom => exact (hmissing _ _ htext htrace hfrom).elim
      · rfl
    rw [hnone]

end Run

/-! ## Recording -/

namespace State

variable {σ : Type}

/-- The state in which a message is kept and the log has its line. -/
def keep (st : State σ) (level : Level) (message : Message) : State σ :=
  { st with
    messages := st.messages.add level message
    log := st.log.add level (logLine (placeOf st.stack) message.text message.trace) }

end State

namespace Run

variable {σ : Type}

/-- Recording a note keeps its message, or fails if there is none. -/
theorem record_of_isRegular (note : Note) (st : State σ)
    (h : ∀ head ∈ st.stack, head.isRegular = true) :
    record note st = match note.message? (titles st.stack) with
      | some m => .ok () (st.keep note.level m)
      | none => .error .refused st := by
  unfold record
  rw [get_bind, message_of_isRegular h]
  cases hm : note.message? (titles st.stack) with
  | none => rfl
  | some m =>
    simp only [ofExcept_ok, pure_bind, modify_bind, Note.path_of_message? hm, location_titles]
    rfl

/-- What a resolver does besides answering is carried out if its messages can be made. -/
theorem carryOut_ok {aside : Aside} (st : State σ) (hst : ∀ head ∈ st.stack, head.isRegular = true)
    (h : aside.isProper = true) :
    ∃ st', carryOut aside st = .ok () st' ∧ st'.calls = st.calls ∧ st'.stack = st.stack := by
  cases aside with
  | threshold value => exact ⟨_, rfl, rfl, rfl⟩
  | note note =>
    have hnote : (note.message? (titles st.stack)).isSome = true :=
      (note.isSome_message? (titles st.stack)).trans h
    obtain ⟨m, hm⟩ := Option.isSome_iff_exists.mp hnote
    refine ⟨st.keep note.level m, ?_, rfl, rfl⟩
    rw [carryOut, record_of_isRegular note st hst, hm]

/-- A message that cannot be made is the only thing that cannot be carried out. -/
theorem carryOut_error {aside : Aside} (st : State σ)
    (hst : ∀ head ∈ st.stack, head.isRegular = true) (h : aside.isProper = false) :
    carryOut aside st = .error .refused st := by
  cases aside with
  | threshold value => simp [Aside.isProper] at h
  | note note =>
    have hmessage : note.message? (titles st.stack) = none := by
      rw [← Option.not_isSome_iff_eq_none, note.isSome_message?]
      exact Bool.eq_false_iff.mp h
    rw [carryOut, record_of_isRegular note st hst, hmessage]

/-- All is carried out if all messages can be made. -/
theorem carryOutAll_ok {asides : List (Aside × σ)} (st : State σ)
    (hst : ∀ head ∈ st.stack, head.isRegular = true) (h : ∀ a ∈ asides, a.1.isProper = true) :
    ∃ st', carryOutAll asides st = .ok () st' ∧ st'.calls = st.calls ∧ st'.stack = st.stack := by
  induction asides generalizing st with
  | nil => exact ⟨st, rfl, rfl, rfl⟩
  | cons a rest ih =>
    obtain ⟨aside, world⟩ := a
    obtain ⟨hfirst, hrest⟩ := List.forall_mem_cons.mp h
    obtain ⟨st₁, hrun, hcalls, hstack⟩ := carryOut_ok { st with world := world } hst hfirst
    obtain ⟨st₂, hrun', hcalls', hstack'⟩ := ih st₁ (hstack ▸ hst) hrest
    refine ⟨st₂, ?_, hcalls'.trans hcalls, hstack'.trans hstack⟩
    rw [carryOutAll, modify_bind, bind_apply, hrun]
    exact hrun'

/-- Carrying out stops at the first message that cannot be made. -/
theorem carryOutAll_error {asides : List (Aside × σ)} (st : State σ)
    (hst : ∀ head ∈ st.stack, head.isRegular = true) (h : ¬ ∀ a ∈ asides, a.1.isProper = true) :
    ∃ fault st', carryOutAll asides st = .error fault st' ∧ st'.calls = st.calls ∧
      st'.stack = st.stack := by
  induction asides generalizing st with
  | nil => simp at h
  | cons a rest ih =>
    obtain ⟨aside, world⟩ := a
    rw [carryOutAll, modify_bind, bind_apply]
    cases hfirst : aside.isProper with
    | false =>
      rw [carryOut_error { st with world := world } hst hfirst]
      exact ⟨_, _, rfl, rfl, rfl⟩
    | true =>
      have hrest : ¬ ∀ a ∈ rest, a.1.isProper = true := fun hall =>
        h (List.forall_mem_cons.mpr ⟨hfirst, hall⟩)
      obtain ⟨st₁, hrun, hcalls, hstack⟩ := carryOut_ok { st with world := world } hst hfirst
      obtain ⟨fault, st₂, hrun', hcalls', hstack'⟩ := ih st₁ (hstack ▸ hst) hrest
      rw [hrun]
      exact ⟨fault, st₂, hrun', hcalls'.trans hcalls, hstack'.trans hstack⟩

end Run

end Transclude
