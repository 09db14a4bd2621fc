import Transclude.Link.Delimiter
import Transclude.Link.Reference

/-!
# Groups between delimiters

The delimiters of a list of items divide it into groups of nodes. A delimiter that opens starts a
group; one that closes ends the group before it, whatever that is. A group that is both opened and
closed is a link if it starts with a text on one line that names a file.
-/

namespace Transclude

namespace Link

/-- The nodes between two neighbouring delimiters, before the first or after the last. -/
structure Group where
  /-- The place of the first of the nodes among the items. -/
  start : Nat
  /-- The place after the last of them. -/
  stop : Nat
  /-- Whether the delimiter just before the group opens it. -/
  opened : Bool
  /-- Whether the delimiter just after the group closes it. -/
  closed : Bool
  /-- The nodes. -/
  nodes : List Node
deriving Repr, Inhabited

/-- Divides items into groups: those from place `pos` on, when the current group began at `start`
and has some nodes already. -/
def groupsFrom (pos start : Nat) (opened : Bool) (nodes : List Node) : List Item → List Group
  | [] => [⟨start, pos, opened, false, nodes⟩]
  | .node n :: rest => groupsFrom (pos + 1) start opened (nodes ++ [n]) rest
  -- An opening delimiter ends the group before it without closing it.
  | .delimiter .start :: rest =>
    ⟨start, pos, opened, false, nodes⟩ :: groupsFrom (pos + 1) (pos + 1) true [] rest
  | .delimiter .stop :: rest =>
    ⟨start, pos, opened, true, nodes⟩ :: groupsFrom (pos + 1) (pos + 1) false [] rest

/-- A delimiter ends the open group, which is closed by a closing one only, and the next group begins
after it, which is opened by an opening one only. -/
theorem groupsFrom_delimiter (pos start : Nat) (opened : Bool) (nodes : List Node) (d : Delimiter)
    (rest : List Item) : groupsFrom pos start opened nodes (.delimiter d :: rest) =
      ⟨start, pos, opened, d == .stop, nodes⟩ ::
        groupsFrom (pos + 1) (pos + 1) (d == .start) [] rest := by
  cases d <;> rfl

/-- Divides items into groups. There is one group more than there are delimiters. -/
def groups (items : List Item) : List Group := groupsFrom 0 0 false [] items

namespace Group

/-- The nodes of a group with its delimiters put back as text. -/
def restore (g : Group) : List Node :=
  (if g.opened then [Node.text Delimiter.start.text] else []) ++ g.nodes ++
    (if g.closed then [Node.text Delimiter.stop.text] else [])

/-- The reference of a group, if the group is a link. -/
def reference? (g : Group) : Option LinkReference :=
  match g.opened && g.closed, g.nodes with
  | true, first :: others =>
    match first.text? with
    | some s => if s.toList.contains '\n' then none else LinkReference.ofText? s.toList others
    | none => none
  | _, _ => none

/-- Whether a value that is not a text holds a line break as a member or as a name. -/
def holdsLineBreak : Value → Bool
  | .arr items => items.any fun item =>
      match item with
      | .str s => s == "\n"
      | _ => false
  | .obj fields => Fields.has "\n" fields
  | _ => false

/-- Why it cannot be said whether a group is a link: what it starts with is not a node, or is a text
node whose value is not a text. -/
def fault? (g : Group) : Option Fault :=
  match g.opened && g.closed, g.nodes with
  | true, .stray _ :: _ => some .plainValue
  | true, .node head info children :: _ =>
    if (Node.node head info children).isOddText && !holdsLineBreak head.value then
      some .wrongType
    else none
  | _, _ => none

/-- The reference of a group, if that can be said and the group is a link. -/
def link (g : Group) : Except Fault (Option LinkReference) :=
  match g.fault? with
  | some fault => .error fault
  | none => .ok g.reference?

end Group

end Link

end Transclude
