import Transclude.Tree.Kind
import Transclude.Value.Display

/-!
# Faults

The ways in which an operation can fail, each by its cause, and the messages of those that explain
themselves.
-/

namespace Transclude

/-- What a resolver is asked for. -/
inductive Role where
  /-- The nodes for a link. -/
  | link
  /-- The nodes for a template call. -/
  | template
deriving DecidableEq, Repr, Inhabited

/-- The name of a role. -/
def Role.name : Role → String
  | .link => "link"
  | .template => "template"

/-- Why an operation failed. -/
inductive Fault where
  /-- A resolver is needed, and what is given as one cannot be called. -/
  | notCallable (role : Role) (given : Value)
  /-- A resolver answered with something other than a list of nodes. -/
  | notList (role : Role) (given : Value)
  /-- A resolver's answer has a member that is not a node. -/
  | notNode (role : Role) (given : Value)
  /-- An object that should describe a node does not state its type. -/
  | noType (fields : Fields)
  /-- A set of tags was given as a text. -/
  | tagsAsText (text : String)
  /-- A value cannot be rendered because it is not a node. -/
  | notRenderable (given : Value)
  /-- A node cannot be rendered because it is of several kinds, or of none. -/
  | notOneKind (kinds : Kinds)
  /-- A resolver failed on its own account, with an error of a given name. -/
  | raised (name message : String)
  /-- An argument is not of the kind that an operation asks for. -/
  | refused
  /-- An operation met a value of a type that it does not take. -/
  | wrongType
  /-- A list of fields has an entry that is not a name with a value. -/
  | notField
  /-- A node has no type name. -/
  | nameless
  /-- A plain value stands where a node or an object is needed. -/
  | plainValue
  /-- A node has no child at an index. -/
  | noChild
  /-- Nodes were replaced by others, and those by others again, beyond the limit. -/
  | endless
deriving Inhabited, Repr

/-- What a fault says, if it explains itself. -/
def Fault.message? : Fault → Option String
  | .notCallable role given =>
    some (role.name ++ " resolver is not callable: " ++ given.literal)
  | .notList role given =>
    some (role.name ++ " resolver must return a list of nodes, got " ++ given.literal)
  | .notNode role given =>
    some (role.name ++ " resolver returned a non-node: " ++ given.literal)
  | .noType fields => some ("node has no type: " ++ (Value.obj fields).literal)
  | .tagsAsText text =>
    some ("excluded_tags must be a set of tag names, not a string: " ++ Text.quoted text)
  | .notRenderable given => some ("invalid Node: " ++ given.plain)
  | .notOneKind kinds =>
    some ("unimplemented NodeKind" ++ (kinds.name?.map ("." ++ ·)).getD "(0)")
  | .raised _ message => some message
  | .refused | .wrongType | .notField | .nameless | .plainValue | .noChild | .endless => none

end Transclude
