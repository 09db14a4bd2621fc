import Transclude.Tree.Node

/-!
# Messages and the log

What is said about a document while it is processed. A message is kept with the place that it is
about, and it is also written to the log, which leaves out the messages that are less important than
its threshold.
-/

namespace Transclude

/-- How important a message is. -/
inductive Level where
  /-- Something failed. -/
  | error
  /-- Something may be wrong. -/
  | warning
  /-- Something that helps to find out what happened. -/
  | debug
deriving DecidableEq, Repr, Inhabited

/-- The name of a level in the log. -/
def Level.name : Level → String
  | .error => "ERROR"
  | .warning => "WARNING"
  | .debug => "DEBUG"

/-- A message about a document. -/
structure Message where
  /-- What it says. -/
  text : String
  /-- More detail, or nothing. -/
  trace : String
  /-- A fixed text that tells the messages of one part of a program from those of others. -/
  calledFrom : String
  /-- The names of the containers around the place that it is about, from the outside in. -/
  path : List Value
deriving Repr, Inhabited

/-- The messages about a document, in the order in which they were made. -/
structure Messages where
  /-- Those about failures. -/
  errors : List Message := []
  /-- Those about what may be wrong. -/
  warnings : List Message := []
  /-- Those that help to find out what happened. -/
  debugs : List Message := []
deriving Repr, Inhabited

/-- Adds a message to those of its level. -/
def Messages.add (messages : Messages) (level : Level) (message : Message) : Messages :=
  match level with
  | .error => { messages with errors := messages.errors ++ [message] }
  | .warning => { messages with warnings := messages.warnings ++ [message] }
  | .debug => { messages with debugs := messages.debugs ++ [message] }

/-- The weight of a level, by which it is compared with the threshold of a log. -/
def Level.weight : Level → Nat
  | .error => 40
  | .warning => 30
  | .debug => 10

/-- The log of all contexts together. The application may set its threshold to any value, at any time
that it is in control. -/
structure Log where
  /-- The least weight that a message must have to be taken. -/
  threshold : Nat := Level.warning.weight
  /-- What was written so far. -/
  records : List (Level × String) := []
deriving Repr, Inhabited

/-- The log after a context was made: it takes messages of all levels, unless the context is to be
quiet. -/
def Log.opened (log : Log) (quiet : Bool) : Log :=
  if quiet then log else { log with threshold := Level.debug.weight }

/-- Whether a log takes messages of a level. -/
def Log.admits (log : Log) (level : Level) : Bool := log.threshold ≤ level.weight

/-- Writes a line to a log, if the log takes messages of its level. -/
def Log.add (log : Log) (level : Level) (line : String) : Log :=
  if log.admits level then { log with records := log.records ++ [(level, line)] } else log

/-! ## Where a message belongs -/

/-- What a container is called in the path of a message: an element by its tag, a node of another
type by its type, every other node by its kind. -/
def Head.pathName (head : Head) : Except Fault Value :=
  if head.isKind .element then .ok head.tag
  else if head.isKind .other then
    match head.typeName? with
    | some type => .ok (.str type)
    | none => .error .nameless
  else .ok ((head.kinds.name?.map Value.str).getD .null)

/-- The path through a list of containers, given from the outside in. -/
def pathOf (heads : List Head) : Except Fault (List Value) := heads.mapM Head.pathName

/-- The names of a path that are texts, if all are. -/
def pathTexts : List Value → Except Fault (List String)
  | [] => .ok []
  | .str s :: rest => do return s :: (← pathTexts rest)
  | _ :: _ => .error .wrongType

/-- A path as the log shows it. The empty path is the root. -/
def location (path : List Value) : Except Fault String := do
  let place := "/".intercalate (← pathTexts path)
  return if place = "" then "ROOT" else place

/-- The line of the log for a message. -/
def logLine (place text trace : String) : String :=
  place ++ ": " ++ text ++ (if trace = "" then "" else "\n" ++ trace)

end Transclude
