import Transclude.Proofs.Run.Message

/-!
# Asking resolvers

What comes of a call depends on the resolvers and on their own state only: `Context.answer?` is the
nodes of the answer, if the call comes to an end. `put_of_answer` and `put_of_no_answer` tie it to a
run. A talk is a list of calls with their answers, and `Hears` says that the resolvers give these
answers when the calls are put one after the other; `answers` computes them.
-/

namespace Transclude

variable {σ α : Type}

/-! ## One call -/

namespace Reply

/-- The nodes of a reply. -/
def nodes (role : Role) (reply : Reply σ) : Except Fault (List Node) :=
  reply.outcome.bind fun answer => answer.nodes role

end Reply

namespace Resolver

/-- The nodes that a resolver gives in answer to a question, with its state afterwards. There are
none if the resolver cannot be called, fails, or asks for a message that cannot be made, or if its
answer is not a list of nodes. -/
def answer? (role : Role) (resolver : Resolver σ α) (question : α) (world : σ) :
    Option (List Node × σ) :=
  match resolver with
  | .value _ => none
  | .function respond =>
    match (respond question world).asides.all fun a => a.1.isProper,
      (respond question world).nodes role with
    | true, .ok nodes => some (nodes, (respond question world).world)
    | _, _ => none

end Resolver

namespace Run

/-- Asking a function makes the call, carries out what the function does besides answering, and takes
its answer. -/
theorem ask_function (role : Role) (respond : α → σ → Reply σ) (call : Call) (question : α)
    (st : State σ) :
    ask role (.function respond) call question st =
      match carryOutAll (respond question st.world).asides
          { st with calls := st.calls ++ [call] } with
      | .ok _ st' =>
        ofExcept ((respond question st.world).nodes role)
          { st' with world := (respond question st.world).world }
      | .error fault st' => .error fault st' := by
  unfold ask
  dsimp only
  rw [get_bind, modify_bind, bind_apply]
  cases carryOutAll (respond question st.world).asides { st with calls := st.calls ++ [call] } with
  | error fault st' => rfl
  | ok _ st' =>
    dsimp only
    rw [modify_bind]
    unfold Reply.nodes
    cases (respond question st.world).outcome with
    | error fault => rfl
    | ok answer => rfl

/-- A question that has an answer gets it. -/
theorem ask_of_answer {role : Role} {resolver : Resolver σ α} {call : Call} {question : α}
    {st : State σ} {nodes : List Node} {world : σ}
    (hst : ∀ head ∈ st.stack, head.isRegular = true)
    (h : resolver.answer? role question st.world = some (nodes, world)) :
    ∃ st', ask role resolver call question st = .ok nodes st' ∧ st'.calls = st.calls ++ [call] ∧
      st'.stack = st.stack ∧ st'.world = world := by
  cases resolver with
  | value given => simp [Resolver.answer?] at h
  | function respond =>
    simp only [Resolver.answer?] at h
    split at h
    · next nodes' hasides hnodes =>
      obtain ⟨rfl, rfl⟩ : nodes' = nodes ∧ (respond question st.world).world = world := by
        simpa using h
      obtain ⟨st', hrun, hcalls, hstack⟩ :=
        carryOutAll_ok { st with calls := st.calls ++ [call] } hst (by simpa using hasides)
      refine ⟨{ st' with world := (respond question st.world).world }, ?_, hcalls, hstack, rfl⟩
      rw [ask_function, hrun, hnodes]
      rfl
    · simp at h

/-- A question that has no answer from a function makes a run fail, with this one call more. -/
theorem ask_function_of_no_answer {role : Role} {respond : α → σ → Reply σ} {call : Call}
    {question : α} {st : State σ} (hst : ∀ head ∈ st.stack, head.isRegular = true)
    (h : (Resolver.function respond).answer? role question st.world = none) :
    ∃ fault st', ask role (.function respond) call question st = .error fault st' ∧
      st'.calls = st.calls ++ [call] ∧ st'.stack = st.stack := by
  rw [ask_function]
  by_cases hasides : ∀ a ∈ (respond question st.world).asides, a.1.isProper = true
  · obtain ⟨st', hrun, hcalls, hstack⟩ :=
      carryOutAll_ok { st with calls := st.calls ++ [call] } hst hasides
    have hall : ((respond question st.world).asides.all fun a => a.1.isProper) = true := by
      simpa using hasides
    cases hnodes : (respond question st.world).nodes role with
    | ok nodes => simp [Resolver.answer?, hall, hnodes] at h
    | error fault =>
      rw [hrun]
      exact ⟨fault, _, rfl, hcalls, hstack⟩
  · -- A message of the resolver cannot be made, after the call was noted.
    obtain ⟨fault, st', hrun, hcalls, hstack⟩ :=
      carryOutAll_error { st with calls := st.calls ++ [call] } hst hasides
    rw [hrun]
    exact ⟨fault, st', rfl, hcalls, hstack⟩

/-- A question that has no answer makes a run fail, with at most this one call more. -/
theorem ask_of_no_answer {role : Role} {resolver : Resolver σ α} {call : Call} {question : α}
    {st : State σ} (hst : ∀ head ∈ st.stack, head.isRegular = true)
    (h : resolver.answer? role question st.world = none) :
    ∃ fault st' tail, ask role resolver call question st = .error fault st' ∧
      st'.calls = st.calls ++ tail ∧ tail <+: [call] ∧ st'.stack = st.stack := by
  cases resolver with
  | value given => exact ⟨_, st, [], rfl, by simp, List.nil_prefix, rfl⟩
  | function respond =>
    obtain ⟨fault, st', hrun, hcalls, hstack⟩ := ask_function_of_no_answer hst h
    exact ⟨fault, st', [call], hrun, hcalls, List.prefix_refl _, hstack⟩

end Run

/-! ## The calls of a context -/

namespace Context

variable {ctx : Context σ}

/-- Puts a call to the resolver that it is for. -/
def put (ctx : Context σ) : Call → Run σ (List Node)
  | .link reference => ctx.resolveLink reference
  | .template call => ctx.resolveTemplate call

/-- The nodes that come of a call, with the resolvers' state afterwards. -/
def answer? (ctx : Context σ) (call : Call) (world : σ) : Option (List Node × σ) :=
  match call with
  | .link reference => ctx.link.answer? .link reference world
  | .template call => ctx.template.answer? .template call world

/-- A call that has an answer gets it. -/
theorem put_of_answer {call : Call} {st : State σ} {nodes : List Node} {world : σ}
    (hst : ∀ head ∈ st.stack, head.isRegular = true)
    (h : ctx.answer? call st.world = some (nodes, world)) :
    ∃ st', ctx.put call st = .ok nodes st' ∧ st'.calls = st.calls ++ [call] ∧
      st'.stack = st.stack ∧ st'.world = world := by
  cases call with
  | link reference => exact Run.ask_of_answer hst h
  | template call => exact Run.ask_of_answer hst h

/-- A call that has no answer makes a run fail, with at most this one call more. -/
theorem put_of_no_answer {call : Call} {st : State σ}
    (hst : ∀ head ∈ st.stack, head.isRegular = true) (h : ctx.answer? call st.world = none) :
    ∃ fault st' tail, ctx.put call st = .error fault st' ∧ st'.calls = st.calls ++ tail ∧
      tail <+: [call] ∧ st'.stack = st.stack := by
  cases call with
  | link reference => exact Run.ask_of_no_answer hst h
  | template call => exact Run.ask_of_no_answer hst h

/-- A context whose resolvers answer with the name of the file that they are asked for. -/
def echo : Context Unit where
  link := .function fun reference world =>
    { outcome := .ok (.list [Node.text reference.file]), world := world }
  template := .function fun call world =>
    { outcome := .ok (.list [Node.text call.file]), world := world }

/-! ## Talks -/

/-- The resolvers, in the state `world`, give the answers of a talk one after the other, and are
then in the state `after`. -/
inductive Hears (ctx : Context σ) : σ → List (Call × List Node) → σ → Prop
  /-- Nothing is asked. -/
  | nil (world : σ) : Hears ctx world [] world
  /-- A call is answered, and the rest of the talk follows. -/
  | cons {world next after : σ} {call : Call} {nodes : List Node}
      {talk : List (Call × List Node)} : ctx.answer? call world = some (nodes, next) →
      Hears ctx next talk after → Hears ctx world ((call, nodes) :: talk) after

namespace Hears

/-- A talk of one call. -/
theorem single {world after : σ} {call : Call} {nodes : List Node}
    (h : ctx.answer? call world = some (nodes, after)) :
    ctx.Hears world [(call, nodes)] after := .cons h (.nil after)

/-- A talk goes on with another. -/
theorem append {world next after : σ} {talk more : List (Call × List Node)}
    (h : ctx.Hears world talk next) (hmore : ctx.Hears next more after) :
    ctx.Hears world (talk ++ more) after := by
  induction h with
  | nil world => exact hmore
  | cons hanswer _ ih => exact .cons hanswer (ih hmore)

/-- Every answer of a talk is one that the resolvers give in some state. -/
theorem exists_answer? {world after : σ} {talk : List (Call × List Node)}
    (h : ctx.Hears world talk after) :
    ∀ x ∈ talk, ∃ during next, ctx.answer? x.1 during = some (x.2, next) := by
  induction h with
  | nil world => simp
  | cons hanswer _ ih => exact List.forall_mem_cons.mpr ⟨⟨_, _, hanswer⟩, ih⟩

end Hears

/-- The answers to calls that are put one after the other, up to the first that has none. -/
def answers (ctx : Context σ) : List Call → σ → List (List Node)
  | [], _ => []
  | call :: rest, world =>
    match ctx.answer? call world with
    | some (nodes, next) => nodes :: ctx.answers rest next
    | none => []

/-- The state of the resolvers after calls that are put one after the other. -/
def worldAfter (ctx : Context σ) : List Call → σ → σ
  | [], world => world
  | call :: rest, world =>
    match ctx.answer? call world with
    | some (_, next) => ctx.worldAfter rest next
    | none => world

/-- The answers of a talk are those to its calls. -/
theorem answers_of_hears {world after : σ} {talk : List (Call × List Node)}
    (h : ctx.Hears world talk after) (tail : List Call) :
    ctx.answers (talk.map Prod.fst ++ tail) world =
      talk.map Prod.snd ++ ctx.answers tail after := by
  induction h with
  | nil world => rfl
  | cons hanswer _ ih =>
    simp only [List.map_cons, List.cons_append, answers, hanswer]
    rw [ih]

/-- A talk leaves the resolvers in the state after its calls. -/
theorem worldAfter_of_hears {world after : σ} {talk : List (Call × List Node)}
    (h : ctx.Hears world talk after) : ctx.worldAfter (talk.map Prod.fst) world = after := by
  induction h with
  | nil world => rfl
  | cons hanswer _ ih => simpa only [List.map_cons, worldAfter, hanswer] using ih

end Context

end Transclude
