import Transclude.Tree.Node

/-!
# Link references

What is written inside a link: a file, after a number sign the id of a place in it, and after a bar
the text to display. Only the file is needed.
-/

namespace Transclude

/-- What a link refers to. -/
structure LinkReference where
  /-- The name of the file. -/
  file : String
  /-- The id of a place in the file. -/
  id : Option String := none
  /-- What the link displays: its text, and the nodes after the one that the reference is in. -/
  nodes : List Node := []
deriving Repr, Inhabited

namespace LinkReference

/-- The name of the file: all up to the first number sign, bar or line break. -/
def isFileChar (c : Char) : Bool := c != '#' && c != '|' && c != '\n'

/-- The id: all up to the first bar or line break. -/
def isIdChar (c : Char) : Bool := c != '|' && c != '\n'

/-- The text to display: all up to the first line break. -/
def isDisplayChar (c : Char) : Bool := c != '\n'

/-- A part that is there only if a text starts with the mark in front of it and some characters
follow that belong to the part; with it, what comes after. -/
def optionalPart (mark : Char) (belongs : Char → Bool) (cs : List Char) :
    Option (List Char) × List Char :=
  match cs with
  | [] => (none, [])
  | c :: rest =>
    if c = mark ∧ rest.takeWhile belongs ≠ [] then
      (some (rest.takeWhile belongs), rest.dropWhile belongs)
    else (none, c :: rest)

/-- The reference that a text followed by other nodes makes, unless the text does not start with the
name of a file. -/
def ofText? (cs : List Char) (others : List Node) : Option LinkReference :=
  if cs.takeWhile isFileChar = [] then none
  else
    -- A mark without characters after it belongs to no part, and ends the reference.
    let (id, rest) := optionalPart '#' isIdChar (cs.dropWhile isFileChar)
    let (display, _) := optionalPart '|' isDisplayChar rest
    some {
      file := String.ofList (cs.takeWhile isFileChar)
      id := id.map String.ofList
      nodes := match display with
        | some shown => Node.text (String.ofList shown) :: others
        | none => others }

/-- The reference that a list of nodes makes. The first must be a text node, and its value a
text. -/
def ofNodes : List Node → Except Fault (Option LinkReference)
  | [] => .error .refused
  | .stray _ :: _ => .error .plainValue
  | first :: others =>
    if first.isText then
      match first.text? with
      | some s => .ok (ofText? s.toList others)
      | none => .error .wrongType
    else .error .refused

end LinkReference

end Transclude
