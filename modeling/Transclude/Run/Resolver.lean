import Transclude.Link.Reference
import Transclude.Run.Message
import Transclude.Template.Parameter
import Transclude.Tree.Codec

/-!
# Resolvers

What the application supplies: for each link and each template call, the nodes to put in its place.
A resolver may keep a state of its own, may make messages while it works and set the threshold of the
log, and may fail.
-/

namespace Transclude

/-- What a resolver is asked for. -/
inductive Call where
  /-- The nodes for a link. -/
  | link (reference : LinkReference)
  /-- The nodes for a template call. -/
  | template (call : TemplateCall)
deriving Repr, Inhabited

/-- A message as a caller asks for it, before it is known that its parts are texts. -/
structure Note where
  /-- How important it is. -/
  level : Level
  /-- What it says. -/
  text : Value
  /-- More detail, if any. -/
  trace : Value := .null
  /-- Where in the program it was made. -/
  calledFrom : Value := .str "XYZunsorted"
deriving Repr, Inhabited

/-- What a resolver answers. -/
inductive Answer where
  /-- A list. Its members should be nodes, or objects that are encoded forms of nodes. -/
  | list (members : List Node)
  /-- A value that is not a list. -/
  | value (given : Value)
deriving Repr, Inhabited

/-- What a resolver does while it works, besides answering. -/
inductive Aside where
  /-- It makes a message. -/
  | note (note : Note)
  /-- It sets the threshold of the log. -/
  | threshold (value : Nat)
deriving Repr, Inhabited

/-- What comes of asking a resolver whose state has the type `σ`. -/
structure Reply (σ : Type) where
  /-- What it does besides answering, in order, each time with its state at that moment. -/
  asides : List (Aside × σ) := []
  /-- Its answer, or why there is none. -/
  outcome : Except Fault Answer
  /-- Its state afterwards. -/
  world : σ

/-- The message of an aside, if it makes one. -/
def Aside.note? : Aside → Option Note
  | .note said => some said
  | .threshold _ => none

/-- The threshold that an aside sets, if it sets one. -/
def Aside.threshold? : Aside → Option Nat
  | .note _ => none
  | .threshold value => some value

/-- The messages of a reply, in order. -/
def Reply.notes {σ : Type} (reply : Reply σ) : List Note :=
  reply.asides.filterMap fun aside => aside.1.note?

/-- A resolver for questions of type `α` with a state of type `σ`. -/
inductive Resolver (σ α : Type) where
  /-- Something that cannot be called. -/
  | value (given : Value)
  /-- A function. -/
  | function (respond : α → σ → Reply σ)

/-- The nodes among the members of an answer. Objects are read as encoded forms. -/
def answerNodes (role : Role) : List Node → Except Fault (List Node)
  | [] => .ok []
  | .stray (.obj fields) :: rest => do
    let n ← Node.decode (.obj fields)
    return n :: (← answerNodes role rest)
  | .stray given :: _ => .error (.notNode role given)
  | .node head info children :: rest => do
    return .node head info children :: (← answerNodes role rest)

/-- The nodes that an answer gives. -/
def Answer.nodes (role : Role) : Answer → Except Fault (List Node)
  | .list members => answerNodes role members
  | .value given => .error (.notList role given)

end Transclude
