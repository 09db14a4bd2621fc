import Transclude.Run.Expansion

/-!
# Processing a tree

The walk visits every container that has children and does not lie in an excluded element. In each
it first goes through the children from left to right, expanding the templates of the texts and
visiting the containers, and then resolves the links among what the children have become. So links
are recognised in the output of templates, and nothing that a resolver answers is visited.

A visit gives the tree as it stands at the end, whether it came to its end or failed: containers
that were finished before a failure have their new children, and those that were open have their
old ones.
-/

namespace Transclude

/-- How far a visit came. -/
structure Progress (σ α : Type) where
  /-- What was visited, as it stands now. -/
  value : α
  /-- Why the visit ended early, if it did. -/
  fault : Option Fault
  /-- The state at the end. -/
  state : State σ

/-- The children of a container that is being visited. -/
structure Children where
  /-- The children that the container has, each as it stands now. -/
  standing : List Node := []
  /-- The children that it will have before links are resolved. -/
  spliced : List Node := []

namespace Context

variable {σ : Type}

/-- The templates in a child, which only a text has. A value that is not a text cannot be searched
unless it counts as empty. -/
def templatesIn : Node → Except Fault (List Template.Occurrence)
  | .stray _ => .error .plainValue
  | .node head info children =>
    match (Node.node head info children).text? with
    | some text => .ok (Template.scan text)
    | none =>
      if head.isKind .text && head.value.holds then .error .wrongType else .ok []

/-- What the children of a container become in the end: their texts are merged and their links
resolved. -/
def finish (ctx : Context σ) (children : List Node) : Run σ (List Node) := do
  ctx.resolveLinks (← Run.ofExcept (Node.merge children))

mutual

/-- Visits a node. A container must have a list of children to be visited. -/
def visit (ctx : Context σ) : Node → State σ → Progress σ Node
  | .stray value, st => ⟨.stray value, some .plainValue, st⟩
  | .node head info children, st =>
    match ctx.excluded.excludes head with
    | .error fault => ⟨.node head info children, some fault, st⟩
    | .ok true => ⟨.node head info children, none, st⟩
    | .ok false =>
      if head.isContainer && head.isBare then ⟨.node head info children, some .wrongType, st⟩
      else if head.isContainer && !children.isEmpty then
        let below := visitChildren ctx children (st.push head)
        -- The container is closed in every case, and has its new children only at the very end.
        match below.fault with
        | some fault =>
          ⟨.node head info below.value.standing, some fault, below.state.pop⟩
        | none =>
          match ctx.finish below.value.spliced below.state with
          | .ok finished st => ⟨.node head info finished, none, st.pop⟩
          | .error fault st => ⟨.node head info below.value.standing, some fault, st.pop⟩
      else ⟨.node head info children, none, st⟩

/-- Visits the children of a container from left to right. -/
def visitChildren (ctx : Context σ) : List Node → State σ → Progress σ Children
  | [], st => ⟨{}, none, st⟩
  | child :: rest, st =>
    match templatesIn child with
    | .error fault => ⟨⟨child :: rest, []⟩, some fault, st⟩
    | .ok [] =>
      let visited := visit ctx child st
      match visited.fault with
      | some fault => ⟨⟨visited.value :: rest, []⟩, some fault, visited.state⟩
      | none =>
        let others := visitChildren ctx rest visited.state
        ⟨⟨visited.value :: others.value.standing, visited.value :: others.value.spliced⟩,
          others.fault, others.state⟩
    | .ok occurrences =>
      match ctx.expandTemplates child occurrences st with
      | .error fault st => ⟨⟨child :: rest, []⟩, some fault, st⟩
      | .ok nodes st =>
        -- The text itself stays in the container until all children are visited.
        let others := visitChildren ctx rest st
        ⟨⟨child :: others.value.standing, nodes ++ others.value.spliced⟩,
          others.fault, others.state⟩

end

/-- Processes a tree. The messages about the document before are forgotten. What is not a node is
refused. -/
def process (ctx : Context σ) (root : Node) (st : State σ) : Progress σ Node :=
  match root with
  | .stray value => ⟨.stray value, some .refused, st⟩
  | root => ctx.visit root { st with messages := {}, stack := [] }

end Context

end Transclude
