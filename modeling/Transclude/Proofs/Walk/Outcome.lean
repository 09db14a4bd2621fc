import Transclude.Proofs.Run.Steps
import Transclude.Proofs.Tree.Merge
import Transclude.Proofs.Tree.Place
import Transclude.Run.Walk

/-!
# What a walk comes to

What becomes of a tree depends on the excluded tags and on the answers that the resolvers give, in
the order in which they give them, and on nothing else. `Node.outcome` computes it from these,
together with the containers that are finished on the way and the answers that are left over. The
containers are finished from the inside out: `reached` lists them in that order, whatever the
answers are.
-/

namespace Transclude

namespace Tags

/-- Whether the content of a node whose head fits together is left alone. -/
def skips (tags : Tags) : Head → Bool
  | .element tag _ => tags.has (.str tag)
  | _ => false

/-- It can be said of every node whose head fits together whether it is excluded. -/
theorem excludes_of_isRegular {head : Head} (h : head.isRegular = true) (tags : Tags) :
    tags.excludes head = .ok (tags.skips head) := by
  unfold excludes
  rw [Head.isKind_of_isRegular h]
  cases head <;> rfl

/-- Whether a walk goes into a node: a container that has children and is not excluded. -/
def admits (tags : Tags) : Node → Bool
  | .node head info children => !tags.skips head && (Node.node head info children).hasChildren
  | .stray _ => false

end Tags

namespace Node

/-! ## The steps for a node -/

/-- The templates in the text of a node. -/
def templates (n : Node) : List Template.Occurrence :=
  match n.text? with
  | some s => Template.scan s
  | none => []

/-- The steps in which the text of a node is expanded. -/
def templateSteps (n : Node) : List Step :=
  (Template.pieces (n.text?.getD "") n.templates).map Step.ofPiece

/-- The pieces of a text call for its templates. -/
theorem calls_piecesFrom (text : List Char) (pos : Nat) (os : List Template.Occurrence) :
    Step.calls ((Template.piecesFrom text pos os).map Step.ofPiece) =
      (os.map Template.Occurrence.call).map .template := by
  induction os generalizing pos with
  | nil =>
    rw [Template.piecesFrom]
    split <;> rfl
  | cons o rest ih =>
    rw [Template.piecesFrom, List.map_cons, List.map_cons, ← ih o.stop]
    split <;> rfl

/-- The steps for the text of a node call for its templates. -/
theorem calls_templateSteps (n : Node) :
    Step.calls n.templateSteps = (n.templates.map Template.Occurrence.call).map .template :=
  calls_piecesFrom _ 0 _

/-- The steps for the text of a node make no messages. -/
theorem notes_templateSteps (n : Node) : Step.notes n.templateSteps = [] := by
  refine List.filterMap_eq_nil_iff.mpr fun step hstep => ?_
  obtain ⟨piece, -, rfl⟩ := List.mem_map.mp hstep
  cases piece <;> rfl

/-- The steps in which the links of a list of nodes are resolved, after its texts are merged. -/
def linkSteps (ns : List Node) : List Step :=
  (Link.groups (Link.items (mergeText ns))).map Step.ofGroup

/-! ## Outcomes -/

/-- What comes of a walk. -/
structure Outcome (α : Type) where
  /-- What the walk gives. -/
  value : α
  /-- The containers that are finished, in order. -/
  finished : List Finish
  /-- The answers that are left over. -/
  rest : List (List Node)

mutual

/-- What comes of a node, given the answers of the resolvers. -/
def outcome (tags : Tags) : Node → List (List Node) → Outcome Node
  | .stray value, answers => ⟨.stray value, [], answers⟩
  | .node head info children, answers =>
    if tags.admits (.node head info children) then
      let inner := outcomes tags 0 children answers
      let given := mergeText (Step.outputs (linkSteps inner.value) inner.rest)
      ⟨.node head info given, inner.finished ++ [([], given)],
        inner.rest.drop (Step.calls (linkSteps inner.value)).length⟩
    else ⟨.node head info children, [], answers⟩

/-- What comes of children from an index on, before their links are resolved. -/
def outcomes (tags : Tags) (i : Nat) : List Node → List (List Node) → Outcome (List Node)
  | [], answers => ⟨[], [], answers⟩
  | child :: rest, answers =>
    if child.templates.isEmpty then
      let first := outcome tags child answers
      let others := outcomes tags (i + 1) rest first.rest
      ⟨first.value :: others.value, first.finished.map (Finish.under i) ++ others.finished,
        others.rest⟩
    else
      let others := outcomes tags (i + 1) rest
        (answers.drop (Step.calls child.templateSteps).length)
      ⟨Step.outputs child.templateSteps answers ++ others.value, others.finished, others.rest⟩

end

section Equations

variable {tags : Tags} {n child : Node} {head : Head} {info : Info} {children rest : List Node}

/-- What a walk does not go into stays as it is. -/
theorem outcome_of_not_admits (h : tags.admits n = false) (answers : List (List Node)) :
    n.outcome tags answers = ⟨n, [], answers⟩ := by
  cases n with
  | stray value => rw [outcome]
  | node head info children =>
    rw [outcome, h]
    rfl

/-- A container that a walk goes into is finished last. -/
theorem outcome_of_admits (h : tags.admits (.node head info children) = true)
    (answers : List (List Node)) :
    (Node.node head info children).outcome tags answers =
      let inner := outcomes tags 0 children answers
      let given := mergeText (Step.outputs (linkSteps inner.value) inner.rest)
      ⟨.node head info given, inner.finished ++ [([], given)],
        inner.rest.drop (Step.calls (linkSteps inner.value)).length⟩ := by
  rw [outcome, h]
  rfl

/-- A child without templates is walked through. -/
theorem outcomes_of_no_templates (h : child.templates = []) (i : Nat)
    (answers : List (List Node)) :
    outcomes tags i (child :: rest) answers =
      let first := child.outcome tags answers
      let others := outcomes tags (i + 1) rest first.rest
      ⟨first.value :: others.value, first.finished.map (Finish.under i) ++ others.finished,
        others.rest⟩ := by
  rw [outcomes, h]
  rfl

/-- A child with templates is expanded. -/
theorem outcomes_of_templates (h : child.templates ≠ []) (i : Nat)
    (answers : List (List Node)) :
    outcomes tags i (child :: rest) answers =
      let others := outcomes tags (i + 1) rest
        (answers.drop (Step.calls child.templateSteps).length)
      ⟨Step.outputs child.templateSteps answers ++ others.value, others.finished,
        others.rest⟩ := by
  rw [outcomes, if_neg (by simpa using h)]

end Equations

/-! ## The containers that are finished -/

mutual

/-- The places of the containers that a walk goes into, from the inside out. -/
def reached (tags : Tags) : Node → List Place
  | .stray _ => []
  | .node head info children =>
    if tags.admits (.node head info children) then reachedFrom tags 0 children ++ [[]] else []

/-- The places of the containers that a walk goes into among children from an index on. -/
def reachedFrom (tags : Tags) (i : Nat) : List Node → List Place
  | [] => []
  | child :: rest => (reached tags child).map (i :: ·) ++ reachedFrom tags (i + 1) rest

end

/-- A walk does not go into a text. -/
theorem admits_of_text? {n : Node} {s : String} (h : n.text? = some s) (tags : Tags) :
    tags.admits n = false := by
  have htext := isText_of_text? h
  cases n with
  | stray value => rfl
  | node head info children =>
    have hkind : head.kinds = .single .text := by simpa [isText, Head.isKind] using htext
    have hcontainer : head.isContainer = false := by
      unfold Head.isContainer
      rw [hkind]
      decide
    simp [Tags.admits, hasChildren, hcontainer]

/-- A container that a walk goes into is no text. -/
theorem text?_eq_none_of_admits {tags : Tags} {head : Head} {info : Info} {children : List Node}
    (h : tags.admits (.node head info children) = true) (others : List Node) :
    (Node.node head info others).text? = none := by
  have hnone : (Node.node head info children).text? = none := by
    cases htext : (Node.node head info children).text? with
    | none => rfl
    | some s => simp [admits_of_text? htext] at h
  exact hnone

/-- What a walk does not go into has no places. -/
theorem reached_of_not_admits {tags : Tags} {n : Node} (h : tags.admits n = false) :
    n.reached tags = [] := by
  cases n with
  | stray value => rw [reached]
  | node head info children =>
    rw [reached, h]
    rfl

/-- A walk goes to the places among children in each of them. -/
theorem mem_reachedFrom {tags : Tags} {p : Place} {i : Nat} {ns : List Node} :
    p ∈ reachedFrom tags i ns ↔
      ∃ j child q, p = (i + j) :: q ∧ ns[j]? = some child ∧ q ∈ child.reached tags := by
  induction ns generalizing i with
  | nil => simp [reachedFrom]
  | cons first rest ih =>
    rw [reachedFrom, List.mem_append, ih]
    constructor
    · rintro (h | ⟨j, child, q, rfl, hchild, hq⟩)
      · obtain ⟨q, hq, rfl⟩ := List.mem_map.mp h
        exact ⟨0, first, q, rfl, rfl, hq⟩
      · exact ⟨j + 1, child, q, by rw [Nat.add_right_comm, Nat.add_assoc], hchild, hq⟩
    · rintro ⟨j, child, q, rfl, hchild, hq⟩
      cases j with
      | zero =>
        obtain rfl : first = child := by simpa using hchild
        exact .inl (List.mem_map.mpr ⟨q, hq, rfl⟩)
      | succ j =>
        exact .inr ⟨j, child, q, by rw [Nat.add_right_comm, Nat.add_assoc], hchild, hq⟩

/-- A walk goes to a node if it is a container with children that is not excluded, and then to the
places in its children. -/
theorem mem_reached {tags : Tags} {p : Place} {n : Node} :
    p ∈ n.reached tags ↔ tags.admits n = true ∧ (p = [] ∨
      ∃ i child q, p = i :: q ∧ n.children[i]? = some child ∧ q ∈ child.reached tags) := by
  cases n with
  | stray value => simp [reached, Tags.admits]
  | node head info children =>
    rw [reached]
    cases tags.admits (.node head info children) with
    | false => simp
    | true => simp [mem_reachedFrom, Node.children, or_comm]

/-- A node with templates is a text. -/
theorem text?_of_templates {n : Node} (h : n.templates ≠ []) : ∃ s, n.text? = some s := by
  unfold templates at h
  split at h
  · next s hs => exact ⟨s, hs⟩
  · exact absurd rfl h

mutual

/-- The containers that a walk goes into are finished from the inside out. -/
theorem map_fst_finished (tags : Tags) : ∀ (n : Node) (answers : List (List Node)),
    (n.outcome tags answers).finished.map Prod.fst = n.reached tags
  | .stray value, answers => by
    rw [outcome, reached]
    rfl
  | .node head info children, answers => by
    cases hadmits : tags.admits (.node head info children) with
    | false =>
      rw [outcome_of_not_admits hadmits, reached_of_not_admits hadmits]
      rfl
    | true =>
      rw [outcome_of_admits hadmits, reached, if_pos hadmits]
      simp [map_fst_finishedFrom tags 0 children answers]

/-- The containers among children are finished in the order of the children. -/
theorem map_fst_finishedFrom (tags : Tags) (i : Nat) :
    ∀ (ns : List Node) (answers : List (List Node)),
      (outcomes tags i ns answers).finished.map Prod.fst = reachedFrom tags i ns
  | [], answers => by
    rw [outcomes, reachedFrom]
    rfl
  | child :: rest, answers => by
    by_cases h : child.templates = []
    · rw [outcomes_of_no_templates h, reachedFrom, ← map_fst_finished tags child answers,
        ← map_fst_finishedFrom tags (i + 1) rest (child.outcome tags answers).rest]
      simp [Finish.under, Function.comp_def]
    · obtain ⟨s, hs⟩ := text?_of_templates h
      rw [outcomes_of_templates h, reachedFrom, reached_of_not_admits (admits_of_text? hs tags)]
      exact map_fst_finishedFrom tags (i + 1) rest _

end

/-- The places among children begin with the index of a child. -/
theorem exists_of_mem_reachedFrom {tags : Tags} {p : Place} {i : Nat} {ns : List Node}
    (h : p ∈ reachedFrom tags i ns) : ∃ j q, p = j :: q ∧ i ≤ j := by
  induction ns generalizing i with
  | nil => simp [reachedFrom] at h
  | cons child rest ih =>
    rw [reachedFrom, List.mem_append] at h
    rcases h with h | h
    · obtain ⟨q, -, rfl⟩ := List.mem_map.mp h
      exact ⟨i, q, rfl, le_refl i⟩
    · obtain ⟨j, q, rfl, hij⟩ := ih h
      exact ⟨j, q, rfl, by omega⟩

mutual

/-- No container is finished after one that it lies in. -/
theorem pairwise_reached (tags : Tags) :
    ∀ n : Node, (n.reached tags).Pairwise fun p q => ¬ p <+: q
  | .stray value => by simp [reached]
  | .node head info children => by
    cases hadmits : tags.admits (.node head info children) with
    | false => simp [reached_of_not_admits hadmits]
    | true =>
      rw [reached, if_pos hadmits, List.pairwise_append]
      refine ⟨pairwise_reachedFrom tags 0 children, by simp, fun p hp q hq => ?_⟩
      obtain ⟨j, p', rfl, -⟩ := exists_of_mem_reachedFrom hp
      simp [List.mem_singleton.mp hq]

/-- No container among children is finished after one that it lies in. -/
theorem pairwise_reachedFrom (tags : Tags) (i : Nat) :
    ∀ ns : List Node, (reachedFrom tags i ns).Pairwise fun p q => ¬ p <+: q
  | [] => by simp [reachedFrom]
  | child :: rest => by
    rw [reachedFrom, List.pairwise_append]
    refine ⟨?_, pairwise_reachedFrom tags (i + 1) rest, fun p hp q hq => ?_⟩
    · rw [List.pairwise_map]
      exact (pairwise_reached tags child).imp fun h => by simpa using h
    · obtain ⟨p', -, rfl⟩ := List.mem_map.mp hp
      obtain ⟨j, q', rfl, hij⟩ := exists_of_mem_reachedFrom hq
      rw [List.cons_prefix_cons]
      omega

end

/-! ## The answers that are left over -/

mutual

/-- The answers that are left over come last. -/
theorem rest_suffix (tags : Tags) : ∀ (n : Node) (answers : List (List Node)),
    (n.outcome tags answers).rest <:+ answers
  | .stray value, answers => by
    rw [outcome]
  | .node head info children, answers => by
    cases hadmits : tags.admits (.node head info children) with
    | false =>
      rw [outcome_of_not_admits hadmits]
    | true =>
      rw [outcome_of_admits hadmits]
      exact (List.drop_suffix _ _).trans (rests_suffix tags 0 children answers)

/-- The answers that are left over after children come last. -/
theorem rests_suffix (tags : Tags) (i : Nat) : ∀ (ns : List Node) (answers : List (List Node)),
    (outcomes tags i ns answers).rest <:+ answers
  | [], answers => by
    rw [outcomes]
  | child :: rest, answers => by
    by_cases h : child.templates = []
    · rw [outcomes_of_no_templates h]
      exact (rests_suffix tags (i + 1) rest _).trans (rest_suffix tags child answers)
    · rw [outcomes_of_templates h]
      exact (rests_suffix tags (i + 1) rest _).trans (List.drop_suffix _ _)

end

end Node

end Transclude
