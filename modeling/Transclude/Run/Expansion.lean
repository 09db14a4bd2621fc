import Transclude.Link.Group
import Transclude.Run.State
import Transclude.Template.Scan
import Transclude.Tree.Display
import Transclude.Tree.Merge

/-!
# Expanding templates and links

The templates of one text, and the links of one list of nodes, are replaced by what the resolvers
answer. What surrounds them stays, and what turns out not to be a link is put back as text.
-/

namespace Transclude

namespace Context

variable {σ : Type}

/-! ## Templates -/

/-- The nodes that the pieces of a text become. -/
def expandPieces (ctx : Context σ) : List Template.Piece → Run σ (List Node)
  | [] => pure []
  | .literal text :: rest => do return Node.text text :: (← expandPieces ctx rest)
  | .call call :: rest => do
    let nodes ← ctx.resolveTemplate call
    return nodes ++ (← expandPieces ctx rest)

/-- The nodes that a text with given templates becomes. -/
def expandText (ctx : Context σ) (text : String) (occurrences : List Template.Occurrence) :
    Run σ (List Node) :=
  ctx.expandPieces (Template.pieces text occurrences)

/-- Why no text can be cut out of a value that is not a text: a part of a list is a list, and the
other values have no parts. -/
def partFault : Value → Fault
  | .arr _ => .refused
  | _ => .wrongType

/-- The number of members of a list or an object. -/
def memberCount? : Value → Option Nat
  | .arr items => some items.length
  | .obj fields => some fields.length
  | .map entries => some entries.length
  | _ => none

/-- The nodes that a value which is not a text becomes from the place `pos` on. It has none but
those of the templates, which are asked for up to the first place where a text would have to be cut
out of the value. -/
def expandValueFrom (ctx : Context σ) (value : Value) (pos : Nat) :
    List Template.Occurrence → Run σ (List Node)
  | [] =>
    match memberCount? value with
    | some count => if pos < count then throw (partFault value) else pure []
    | none => throw .wrongType
  | o :: rest => do
    if pos < o.start then throw (partFault value)
    let nodes ← ctx.resolveTemplate o.call
    return nodes ++ (← expandValueFrom ctx value o.stop rest)

/-- The nodes that a text node with given templates becomes. There must be templates. -/
def expandTemplates (ctx : Context σ) (n : Node) (occurrences : List Template.Occurrence) :
    Run σ (List Node) :=
  match n with
  | .stray _ => throw .plainValue
  | .node head _ _ =>
    if head.isKind .text && !occurrences.isEmpty then
      match head.value with
      | .str text => ctx.expandText text occurrences
      | value => ctx.expandValueFrom value 0 occurrences
    else throw .refused

/-! ## Links -/

/-- The message about a group of nodes that is opened but is not a link, if there is one. It shows
the nodes of a group that is also closed. -/
def groupNote (g : Link.Group) : Except Fault (Option Note) :=
  if g.opened && !g.closed then
    .ok (some {
      level := .debug
      text := .str "link not properly closed"
      calledFrom := .str "links/131" })
  else if g.opened then do
    let shown ← Node.displayList? g.nodes
    return some {
      level := .debug
      text := .str "invalid link content"
      trace := .str shown
      calledFrom := .str "links/134" }
  else .ok none

/-- The nodes that a group becomes: the answer for its link, or its nodes with the delimiters put
back. -/
def resolveGroup (ctx : Context σ) (g : Link.Group) : Run σ (List Node) := do
  match ← Run.ofExcept g.link with
  | some reference => ctx.resolveLink reference
  | none =>
    match ← Run.ofExcept (groupNote g) with
    | some note =>
      Run.record note
      return g.restore
    | none => return g.restore

/-- The nodes that groups become, one group after the other. -/
def resolveGroups (ctx : Context σ) : List Link.Group → Run σ (List Node)
  | [] => pure []
  | g :: rest => do
    let nodes ← ctx.resolveGroup g
    return nodes ++ (← resolveGroups ctx rest)

/-- The nodes that a list of nodes becomes when its links are resolved, with its texts merged. -/
def resolveLinks (ctx : Context σ) (nodes : List Node) : Run σ (List Node) := do
  let items ← Run.ofExcept (Link.tokenize nodes)
  let output ← ctx.resolveGroups (Link.groups items)
  Run.ofExcept (Node.merge output)

end Context

end Transclude
