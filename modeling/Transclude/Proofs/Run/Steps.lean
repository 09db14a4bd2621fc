import Transclude.Proofs.Run.Ask
import Transclude.Run.Expansion

/-!
# The steps of an expansion

The templates of a text and the links of a list of nodes are expanded alike: one after the other,
nodes are kept, nodes are kept with a message about them, or a resolver is asked. `Step` is one such
part and `Context.perform` carries out a list of them. Which steps there are does not depend on the
resolvers. `resolveGroups_eq_perform` and `expandPieces_eq_perform` say that both expansions are
performances, and `perform_ok` and `perform_error` what a performance tells about the talk with the
resolvers.
-/

namespace Transclude

/-- One part of an expansion. -/
inductive Step where
  /-- Nodes are kept. -/
  | keep (nodes : List Node)
  /-- Nodes are kept, and a message about them is made. -/
  | tell (note : Note) (nodes : List Node)
  /-- A resolver is asked. -/
  | ask (call : Call)
  /-- It cannot be said what is to be done. -/
  | fail (fault : Fault)

namespace Step

/-- The call that a step makes, if it makes one. -/
def call? : Step → Option Call
  | .ask call => some call
  | _ => none

/-- The message that a step asks for, if it does. -/
def note? : Step → Option Note
  | .tell note _ => some note
  | _ => none

/-- The calls of steps, in order. -/
def calls (steps : List Step) : List Call := steps.filterMap call?

/-- The messages that steps ask for, in order. -/
def notes (steps : List Step) : List Note := steps.filterMap note?

/-- The nodes that steps give, with the answers to their calls. -/
def outputs : List Step → List (List Node) → List Node
  | [], _ => []
  | .keep nodes :: rest, answers => nodes ++ outputs rest answers
  | .tell _ nodes :: rest, answers => nodes ++ outputs rest answers
  | .ask _ :: rest, answers => answers.headD [] ++ outputs rest answers.tail
  | .fail _ :: rest, answers => outputs rest answers

/-- The nodes that a step keeps. -/
def kept : Step → List Node
  | .keep nodes => nodes
  | .tell _ nodes => nodes
  | _ => []

/-- What steps give is kept by one of them or is in an answer. -/
theorem mem_outputs {steps : List Step} {answers : List (List Node)} {n : Node}
    (h : n ∈ outputs steps answers) :
    (∃ step ∈ steps, n ∈ step.kept) ∨ ∃ answer ∈ answers, n ∈ answer := by
  induction steps generalizing answers with
  | nil => simp [outputs] at h
  | cons step rest ih =>
    cases step with
    | keep nodes =>
      rcases List.mem_append.mp h with hn | hn
      · exact .inl ⟨.keep nodes, by simp, hn⟩
      · exact (ih hn).imp_left fun ⟨step, hstep, hkept⟩ => ⟨step, by simp [hstep], hkept⟩
    | tell note nodes =>
      rcases List.mem_append.mp h with hn | hn
      · exact .inl ⟨.tell note nodes, by simp, hn⟩
      · exact (ih hn).imp_left fun ⟨step, hstep, hkept⟩ => ⟨step, by simp [hstep], hkept⟩
    | ask call =>
      rcases List.mem_append.mp h with hn | hn
      · cases answers with
        | nil => simp at hn
        | cons answer others => exact .inr ⟨answer, by simp, hn⟩
      · rcases ih hn with ⟨step, hstep, hkept⟩ | ⟨answer, hanswer, hn⟩
        · exact .inl ⟨step, by simp [hstep], hkept⟩
        · exact .inr ⟨answer, List.mem_of_mem_tail hanswer, hn⟩
    | fail fault =>
      exact (ih h).imp_left fun ⟨step, hstep, hkept⟩ => ⟨step, by simp [hstep], hkept⟩

/-- What a step keeps is in the outputs. -/
theorem mem_outputs_of_kept {steps : List Step} {step : Step} {n : Node} (hstep : step ∈ steps)
    (h : n ∈ step.kept) (answers : List (List Node)) : n ∈ outputs steps answers := by
  induction steps generalizing answers with
  | nil => simp at hstep
  | cons first rest ih =>
    rcases List.mem_cons.mp hstep with rfl | hlater
    · cases step with
      | keep nodes => exact List.mem_append_left _ h
      | tell note nodes => exact List.mem_append_left _ h
      | ask call => simp [kept] at h
      | fail fault => simp [kept] at h
    · cases first with
      | keep nodes => exact List.mem_append_right _ (ih hlater answers)
      | tell note nodes => exact List.mem_append_right _ (ih hlater answers)
      | ask call => exact List.mem_append_right _ (ih hlater answers.tail)
      | fail fault => exact ih hlater answers

/-- Steps take as many answers as they have calls. -/
theorem outputs_append {steps : List Step} {answers : List (List Node)}
    (h : answers.length = (calls steps).length) (more : List (List Node)) :
    outputs steps (answers ++ more) = outputs steps answers := by
  induction steps generalizing answers with
  | nil => rfl
  | cons step rest ih =>
    cases step with
    | keep nodes => rw [outputs, outputs, ih h]
    | tell note nodes => rw [outputs, outputs, ih h]
    | fail fault => rw [outputs, outputs, ih h]
    | ask call =>
      have hcalls : calls (.ask call :: rest) = call :: calls rest := rfl
      cases answers with
      | nil => simp [hcalls] at h
      | cons answer others =>
        have hothers : others.length = (calls rest).length := by simpa [hcalls] using h
        rw [List.cons_append, outputs, outputs, List.tail_cons, List.tail_cons, ih hothers]
        rfl

/-- What becomes of a piece of a text. -/
def ofPiece : Template.Piece → Step
  | .literal text => .keep [Node.text text]
  | .call call => .ask (.template call)

/-- What becomes of a group. -/
def ofGroup (g : Link.Group) : Step :=
  match g.link with
  | .error fault => .fail fault
  | .ok (some reference) => .ask (.link reference)
  | .ok none =>
    match Context.groupNote g with
    | .error fault => .fail fault
    | .ok (some note) => .tell note g.restore
    | .ok none => .keep g.restore

end Step

namespace Context

variable {σ : Type} {ctx : Context σ}

/-- Carries out one step. -/
def take (ctx : Context σ) : Step → Run σ (List Node)
  | .keep nodes => pure nodes
  | .tell note nodes => do
    Run.record note
    return nodes
  | .ask call => ctx.put call
  | .fail fault => throw fault

/-- Carries out steps one after the other and gives all their nodes. -/
def perform (ctx : Context σ) : List Step → Run σ (List Node)
  | [] => pure []
  | step :: rest => do
    let nodes ← ctx.take step
    return nodes ++ (← ctx.perform rest)

/-- The pieces of a text are expanded by steps. -/
theorem expandPieces_eq_perform (ctx : Context σ) (pieces : List Template.Piece) :
    ctx.expandPieces pieces = ctx.perform (pieces.map Step.ofPiece) := by
  induction pieces with
  | nil => rfl
  | cons piece rest ih =>
    cases piece with
    | literal text =>
      rw [expandPieces, ih]
      simp [perform, take, Step.ofPiece]
    | call call =>
      rw [expandPieces, ih]
      rfl

/-- A group is resolved by one step. -/
theorem resolveGroup_eq_take (ctx : Context σ) (g : Link.Group) :
    ctx.resolveGroup g = ctx.take (Step.ofGroup g) := by
  unfold resolveGroup Step.ofGroup
  cases hlink : g.link with
  | error fault => rfl
  | ok reference? =>
    cases reference? with
    | some reference => simp [take, put]
    | none =>
      simp only [Run.ofExcept_ok, pure_bind]
      cases hnote : groupNote g with
      | error fault => rfl
      | ok note? => cases note? <;> rfl

/-- Groups are resolved by steps. -/
theorem resolveGroups_eq_perform (ctx : Context σ) (gs : List Link.Group) :
    ctx.resolveGroups gs = ctx.perform (gs.map Step.ofGroup) := by
  induction gs with
  | nil => rfl
  | cons g rest ih =>
    rw [resolveGroups, resolveGroup_eq_take, ih]
    rfl

/-! ## What a performance tells -/

/-- A run from `st` to `st'` in which the resolvers were talked with, and the open containers are
the same at the end. -/
structure Talked (ctx : Context σ) (st : State σ) (talk : List (Call × List Node))
    (st' : State σ) : Prop where
  /-- The resolvers give the answers of the talk. -/
  hears : ctx.Hears st.world talk st'.world
  /-- The calls of the talk are those that were made. -/
  calls : st'.calls = st.calls ++ talk.map Prod.fst
  /-- The open containers are the same. -/
  stack : st'.stack = st.stack

/-- A run from `st` to a failure in `st'`, with the answers that it got before. -/
structure BrokeOff (ctx : Context σ) (st : State σ) (answers : List (List Node))
    (st' : State σ) : Prop where
  /-- The answers are those to the calls that were made. -/
  calls : ∃ calls, st'.calls = st.calls ++ calls ∧ ctx.answers calls st.world = answers
  /-- The open containers are the same. -/
  stack : st'.stack = st.stack

namespace Talked

variable {st st₁ st₂ : State σ} {talk more : List (Call × List Node)}

/-- Nothing is asked in a run that leaves the calls, the open containers, and the resolvers alone. -/
theorem nil (hworld : st₁.world = st.world) (hcalls : st₁.calls = st.calls)
    (hstack : st₁.stack = st.stack) : ctx.Talked st [] st₁ :=
  ⟨by rw [hworld]; exact .nil st.world, by simpa using hcalls, hstack⟩

/-- A run goes on with another. -/
theorem append (h : ctx.Talked st talk st₁) (hmore : ctx.Talked st₁ more st₂) :
    ctx.Talked st (talk ++ more) st₂ where
  hears := h.hears.append hmore.hears
  calls := by rw [hmore.calls, h.calls]; simp
  stack := hmore.stack.trans h.stack

/-- A run goes on until it fails. -/
theorem brokeOff (h : ctx.Talked st talk st₁) {answers : List (List Node)}
    (hmore : ctx.BrokeOff st₁ answers st₂) :
    ctx.BrokeOff st (talk.map Prod.snd ++ answers) st₂ := by
  obtain ⟨calls, hcalls, hanswers⟩ := hmore.calls
  refine ⟨⟨talk.map Prod.fst ++ calls, ?_, ?_⟩, hmore.stack.trans h.stack⟩
  · rw [hcalls, h.calls, List.append_assoc]
  · rw [answers_of_hears h.hears, hanswers]

/-- A run that makes no call hears nothing. -/
theorem eq_nil (h : ctx.Talked st talk st₁) (hcalls : st₁.calls = st.calls) : talk = [] := by
  have hlen := congrArg List.length (h.calls.symm.trans hcalls)
  simp only [List.length_append, List.length_map] at hlen
  exact List.length_eq_zero_iff.mp (by omega)

end Talked

/-- A failure before anything is asked. -/
theorem BrokeOff.nil {st st₁ : State σ} (hcalls : st₁.calls = st.calls)
    (hstack : st₁.stack = st.stack) : ctx.BrokeOff st [] st₁ :=
  ⟨⟨[], by simpa using hcalls, rfl⟩, hstack⟩

/-- A step that is carried out makes its call, if it has one, and gives its nodes. -/
theorem take_ok {step : Step} {st st' : State σ} {nodes : List Node}
    (hst : ∀ head ∈ st.stack, head.isRegular = true) (h : ctx.take step st = .ok nodes st') :
    ∃ talk, ctx.Talked st talk st' ∧ talk.map Prod.fst = step.call?.toList ∧
      ∀ rest answers, Step.outputs (step :: rest) (talk.map Prod.snd ++ answers) =
        nodes ++ Step.outputs rest answers := by
  cases step with
  | keep kept =>
    obtain ⟨rfl, rfl⟩ : kept = nodes ∧ st = st' := by simpa [take] using h
    exact ⟨[], .nil rfl rfl rfl, rfl, fun rest answers => rfl⟩
  | tell note kept =>
    simp only [take, Run.bind_apply, Run.record_of_isRegular note st hst] at h
    -- Making a message asks nothing.
    cases hm : note.message? (titles st.stack) with
    | none => simp [hm] at h
    | some m =>
      obtain ⟨rfl, rfl⟩ : kept = nodes ∧ st.keep note.level m = st' := by simpa [hm] using h
      exact ⟨[], .nil rfl rfl rfl, rfl, fun rest answers => rfl⟩
  | ask call =>
    cases hanswer : ctx.answer? call st.world with
    | none =>
      obtain ⟨fault, st₁, tail, hrun, -⟩ := put_of_no_answer hst hanswer
      simp [take, hrun] at h
    | some answer =>
      obtain ⟨given, world⟩ := answer
      obtain ⟨st₁, hrun, hcalls, hstack, hworld⟩ := put_of_answer hst hanswer
      obtain ⟨rfl, rfl⟩ : given = nodes ∧ st₁ = st' := by simpa [take, hrun] using h
      exact ⟨[(call, given)], ⟨.single (hworld ▸ hanswer), hcalls, hstack⟩, rfl,
        fun rest answers => rfl⟩
  | fail fault => simp [take] at h

/-- A step that fails gets no answer. -/
theorem take_error {step : Step} {st st' : State σ} {fault : Fault}
    (hst : ∀ head ∈ st.stack, head.isRegular = true) (h : ctx.take step st = .error fault st') :
    ctx.BrokeOff st [] st' := by
  cases step with
  | keep kept => simp [take] at h
  | tell note kept =>
    simp only [take, Run.bind_apply, Run.record_of_isRegular note st hst] at h
    cases hm : note.message? (titles st.stack) with
    | none =>
      obtain ⟨-, rfl⟩ : Fault.refused = fault ∧ st = st' := by simpa [hm] using h
      exact .nil rfl rfl
    | some m => simp [hm] at h
  | ask call =>
    cases hanswer : ctx.answer? call st.world with
    | none =>
      obtain ⟨fault', st₁, tail, hrun, hcalls, htail, hstack⟩ := put_of_no_answer hst hanswer
      obtain ⟨-, rfl⟩ : fault' = fault ∧ st₁ = st' := by simpa [take, hrun] using h
      refine ⟨⟨tail, hcalls, ?_⟩, hstack⟩
      -- The call may have been made, but it has no answer.
      rcases List.prefix_cons_iff.mp htail with rfl | ⟨tail', rfl, htail'⟩
      · rfl
      · simp [answers, hanswer]
    | some answer =>
      obtain ⟨given, world⟩ := answer
      obtain ⟨st₁, hrun, -⟩ := put_of_answer hst hanswer
      simp [take, hrun] at h
  | fail fault' =>
    obtain ⟨-, rfl⟩ : fault' = fault ∧ st = st' := by simpa [take] using h
    exact .nil rfl rfl

/-- Steps that are carried out make their calls in order, and give their nodes with the answers. -/
theorem perform_ok {steps : List Step} {st st' : State σ} {nodes : List Node}
    (hst : ∀ head ∈ st.stack, head.isRegular = true)
    (h : ctx.perform steps st = .ok nodes st') :
    ∃ talk, ctx.Talked st talk st' ∧ talk.map Prod.fst = Step.calls steps ∧
      nodes = Step.outputs steps (talk.map Prod.snd) := by
  induction steps generalizing st nodes with
  | nil =>
    obtain ⟨rfl, rfl⟩ : [] = nodes ∧ st = st' := by simpa [perform] using h
    exact ⟨[], .nil rfl rfl rfl, rfl, rfl⟩
  | cons step rest ih =>
    rw [perform, Run.bind_apply] at h
    cases htake : ctx.take step st with
    | error fault st₁ => simp [htake] at h
    | ok first st₁ =>
      obtain ⟨talk, htalk, hcall, hout⟩ := take_ok hst htake
      simp only [htake, Run.bind_apply] at h
      cases hrest : ctx.perform rest st₁ with
      | error fault st₂ => simp [hrest] at h
      | ok others st₂ =>
        -- The talk of the first step comes before that of the others.
        obtain ⟨rfl, rfl⟩ : first ++ others = nodes ∧ st₂ = st' := by simpa [hrest] using h
        obtain ⟨more, hmore, hcalls, rfl⟩ := ih (htalk.stack ▸ hst) hrest
        refine ⟨talk ++ more, htalk.append hmore, ?_, ?_⟩
        · rw [List.map_append, hcall, hcalls]
          cases step <;> rfl
        · rw [List.map_append, hout]

/-- Steps that fail may have got answers before. -/
theorem perform_error {steps : List Step} {st st' : State σ} {fault : Fault}
    (hst : ∀ head ∈ st.stack, head.isRegular = true)
    (h : ctx.perform steps st = .error fault st') :
    ∃ answers, ctx.BrokeOff st answers st' := by
  induction steps generalizing st with
  | nil => simp [perform] at h
  | cons step rest ih =>
    rw [perform, Run.bind_apply] at h
    cases htake : ctx.take step st with
    | error fault₁ st₁ =>
      obtain ⟨-, rfl⟩ : fault₁ = fault ∧ st₁ = st' := by simpa [htake] using h
      exact ⟨[], take_error hst htake⟩
    | ok first st₁ =>
      obtain ⟨talk, htalk, -, -⟩ := take_ok hst htake
      simp only [htake, Run.bind_apply] at h
      cases hrest : ctx.perform rest st₁ with
      | ok others st₂ => simp [hrest] at h
      | error fault₂ st₂ =>
        obtain ⟨rfl, rfl⟩ : fault₂ = fault ∧ st₂ = st' := by simpa [hrest] using h
        obtain ⟨answers, hanswers⟩ := ih (htalk.stack ▸ hst) hrest
        exact ⟨_, htalk.brokeOff hanswers⟩

end Context

end Transclude
