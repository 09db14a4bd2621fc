import Transclude.Tree.Node
import Transclude.Value.Entries

/-!
# Displaying trees

A tree on one line, as messages show it, and a tree as an indented outline.
-/

namespace Transclude.Node

mutual

/-- A tree on one line. A plain value in place of a node is shown as a literal. -/
def display : Node → String
  | .node head _ children =>
    if head.kinds.within .valued then
      "<" ++ head.kinds.label ++ " " ++ head.value.literal ++ ">"
    else
      "<" ++ head.kinds.label ++ "(" ++ head.tag.plain ++ ")" ++ head.properties.plain ++ " " ++
        ", ".intercalate (displays children) ++ ">"
  | .stray value => value.literal

/-- The trees of a list, each on one line. -/
def displays : List Node → List String
  | [] => []
  | n :: rest => display n :: displays rest

end

mutual

/-- Whether a tree can be displayed: each node in it that shows its children has a list of them. -/
def displayable : Node → Bool
  | .node head _ children =>
    head.kinds.within .valued || (!head.isBare && allDisplayable children)
  | .stray _ => true

/-- Whether all trees of a list can be displayed. -/
def allDisplayable : List Node → Bool
  | [] => true
  | n :: rest => displayable n && allDisplayable rest

end

/-- A list of trees on one line. -/
def displayList (nodes : List Node) : String := "[" ++ ", ".intercalate (displays nodes) ++ "]"

/-- A tree on one line, or the plain form of what stands in its place. -/
def plain : Node → String
  | .stray value => value.plain
  | n => n.display

/-- A tree on one line, if it can be displayed. -/
def plain? (n : Node) : Except Fault String :=
  if n.displayable then .ok n.plain else .error .wrongType

/-- A list of trees on one line, if they can be displayed. -/
def displayList? (nodes : List Node) : Except Fault String :=
  if allDisplayable nodes then .ok (displayList nodes) else .error .wrongType

/-! ## Outlines -/

/-- Blanks in front of a line. -/
def blanks (n : Nat) : String := String.ofList (List.replicate n ' ')

/-- What names a node in an outline: its type for the other nodes, its tag for the rest. -/
def outlineName (head : Head) : Except Fault String :=
  if head.isKind .other then
    match head.typeName? with
    | some type => .ok type
    | none => .error .nameless
  else .ok head.tag.plain

/-- The lines of an outline that show the properties of a node. -/
def outlineProperties (pad : String) (properties : Value) : Except Fault (List String) :=
  match properties.entries? with
  | some entries => .ok (entries.map fun entry =>
      pad ++ "    " ++ entry.1.plain ++ "=" ++ entry.2.plain)
  | none => .error .plainValue

mutual

/-- The lines of the outline of a tree, two blanks deeper at each level. -/
def outlineLines (indent : Int) : Node → Except Fault (List String)
  | .node head _ children =>
    let pad := blanks indent.toNat
    if head.kinds.within .valued then
      .ok [pad ++ head.kinds.label ++ " " ++ head.value.literal]
    else do
      let name ← outlineName head
      let properties ← outlineProperties pad head.properties
      if head.isBare then throw .wrongType
      let below ← outlinesLines (indent + 2) children
      return (pad ++ head.kinds.label ++ " " ++ name) :: properties ++ below
  | .stray _ => .error .refused

/-- The lines of the outlines of a list of trees. -/
def outlinesLines (indent : Int) : List Node → Except Fault (List String)
  | [] => .ok []
  | n :: rest => do
    let lines ← outlineLines indent n
    let others ← outlinesLines indent rest
    return lines ++ others

end

/-- The outline of a tree. The depth at which it starts is a whole number or a truth value. -/
def outline (n : Node) (indent : Value) : Except Fault String :=
  match indent with
  | .int i => do return "\n".intercalate (← outlineLines i n)
  | .bool b => do return "\n".intercalate (← outlineLines (if b then 1 else 0) n)
  | _ => .error .refused

end Transclude.Node
