import Transclude.Tree.Node

/-!
# Link delimiters

A link stands between two opening and two closing brackets, which may be in different text nodes
of one list. This module cuts the texts of a list of nodes at the delimiters.
-/

namespace Transclude

namespace Link

/-- One of the two marks around a link. -/
inductive Delimiter where
  /-- Two opening brackets. -/
  | start
  /-- Two closing brackets. -/
  | stop
deriving DecidableEq, Repr, Inhabited

/-- How a delimiter is written. -/
def Delimiter.text : Delimiter → String
  | .start => "[["
  | .stop => "]]"

/-! ## Cutting one text -/

/-- A part of a text that is cut at delimiters. -/
inductive Token where
  /-- Text without a delimiter. -/
  | text (cs : List Char)
  /-- A delimiter. -/
  | delimiter (d : Delimiter)
deriving DecidableEq, Repr

/-- Puts a character in front of a text that is already cut. -/
def Token.prependChar (c : Char) : List Token → List Token
  | .text cs :: rest => .text (c :: cs) :: rest
  | rest => .text [c] :: rest

/-- Cuts a text at its delimiters, from left to right. -/
def Token.cut : List Char → List Token
  | '[' :: '[' :: rest => .delimiter .start :: cut rest
  | ']' :: ']' :: rest => .delimiter .stop :: cut rest
  | c :: rest => prependChar c (cut rest)
  | [] => []

/-- Whether a part is a delimiter. -/
def Token.isDelimiter : Token → Bool
  | .delimiter _ => true
  | .text _ => false

/-! ## Cutting a list of nodes -/

/-- A member of a list of nodes whose texts are cut at delimiters. -/
inductive Item where
  /-- A node. -/
  | node (n : Node)
  /-- A delimiter. -/
  | delimiter (d : Delimiter)
deriving Repr, Inhabited

/-- The item that a part of a text becomes. -/
def Token.item : Token → Item
  | .text cs => .node (Node.text (String.ofList cs))
  | .delimiter d => .delimiter d

/-- The items that one node becomes. A text without delimiters stays the node that it is. -/
def itemsOf (n : Node) : List Item :=
  match n.text? with
  | none => [.node n]
  | some s =>
    let tokens := Token.cut s.toList
    -- The parts of a text that is cut are new nodes, which carry nothing.
    if tokens.any Token.isDelimiter then tokens.map Token.item else [.node n]

/-- The items that a list of nodes becomes. -/
def items (nodes : List Node) : List Item := nodes.flatMap itemsOf

/-- Why a list cannot be cut: it has a member that is not a node, or a text node that has a value
which is not a text. -/
def cutFault? : List Node → Option Fault
  | [] => none
  | .stray _ :: _ => some .plainValue
  | .node head info children :: rest =>
    if (Node.node head info children).isOddText && head.value.holds then some .wrongType
    else cutFault? rest

/-- Cuts the texts of a list of nodes at the delimiters, if that is possible. -/
def tokenize (nodes : List Node) : Except Fault (List Item) :=
  match cutFault? nodes with
  | some fault => .error fault
  | none => .ok (items nodes)

end Link

end Transclude
