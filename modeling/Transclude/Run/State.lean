import Transclude.Run.Exclusion
import Transclude.Run.Resolver

/-!
# The state of a run

A context holds what a run is to do: the resolvers and the excluded tags. The state holds what
changes during runs: the messages about the present document, the containers that are open, the log,
the calls that were made, and the resolvers' own state. A run that fails keeps the state that it had
come to.
-/

namespace Transclude

/-- What runs are to do. -/
structure Context (σ : Type) where
  /-- The resolver for links. -/
  link : Resolver σ LinkReference
  /-- The resolver for template calls. -/
  template : Resolver σ TemplateCall
  /-- The tags of the elements whose content is left alone. -/
  excluded : Tags := Tags.code

/-- What changes during runs. -/
structure State (σ : Type) where
  /-- The messages about the present document. -/
  messages : Messages := {}
  /-- The containers that are open, from the outside in. -/
  stack : List Head := []
  /-- The log. -/
  log : Log := {}
  /-- The calls of resolvers so far. -/
  calls : List Call := []
  /-- The state of the resolvers. -/
  world : σ

/-- A step of a run. When it fails, the state is as it stood then. -/
abbrev Run (σ : Type) := EStateM Fault (State σ)

namespace State

variable {σ : Type}

/-- Opens a container. -/
def push (st : State σ) (head : Head) : State σ := { st with stack := st.stack ++ [head] }

/-- Closes the innermost container. -/
def pop (st : State σ) : State σ := { st with stack := st.stack.dropLast }

end State

namespace Run

variable {σ : Type}

/-- A step that only gives a result or fails. -/
def ofExcept {α : Type} : Except Fault α → Run σ α
  | .ok a => pure a
  | .error fault => throw fault

/-- The message that a note asks for, about the containers that are open. The parts of the note must
be texts. -/
def message (note : Note) (stack : List Head) : Except Fault Message :=
  match note.text, note.trace, note.calledFrom with
  | .str text, .str trace, .str calledFrom => do
    return ⟨text, trace, calledFrom, ← pathOf stack⟩
  | .str text, .null, .str calledFrom => do
    return ⟨text, "", calledFrom, ← pathOf stack⟩
  | _, _, _ => .error .refused

/-- Keeps a message and writes it to the log. -/
def record (note : Note) : Run σ Unit := do
  let message ← ofExcept (message note (← get).stack)
  modify fun st => { st with messages := st.messages.add note.level message }
  let place ← ofExcept (location message.path)
  modify fun st =>
    { st with log := st.log.add note.level (logLine place message.text message.trace) }

/-- Carries out what a resolver does besides answering. -/
def carryOut : Aside → Run σ Unit
  | .note note => record note
  | .threshold value => modify fun st => { st with log := { st.log with threshold := value } }

/-- Carries out what a resolver does besides answering, one thing after the other. -/
def carryOutAll : List (Aside × σ) → Run σ Unit
  | [] => pure ()
  | (aside, world) :: rest => do
    modify fun st => { st with world := world }
    carryOut aside
    carryOutAll rest

/-- Asks a resolver and gives the nodes of its answer. -/
def ask {α : Type} (role : Role) (resolver : Resolver σ α) (call : Call) (question : α) :
    Run σ (List Node) :=
  match resolver with
  | .value given => throw (.notCallable role given)
  | .function respond => do
    let reply := respond question (← get).world
    modify fun st => { st with calls := st.calls ++ [call] }
    carryOutAll reply.asides
    modify fun st => { st with world := reply.world }
    let answer ← ofExcept reply.outcome
    ofExcept (answer.nodes role)

end Run

namespace Context

variable {σ : Type}

/-- The nodes for a link. -/
def resolveLink (ctx : Context σ) (reference : LinkReference) : Run σ (List Node) :=
  Run.ask .link ctx.link (.link reference) reference

/-- The nodes for a template call. -/
def resolveTemplate (ctx : Context σ) (call : TemplateCall) : Run σ (List Node) :=
  Run.ask .template ctx.template (.template call) call

end Context

end Transclude
