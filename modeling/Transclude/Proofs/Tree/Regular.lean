import Transclude.Tree.Node

/-!
# Heads that fit together

A head that fits together is of exactly one kind, which `Head.kind` gives, and `isKind_of_isRegular`
reduces every question about its kinds to that one. A node is sound if it is a node at all, and its
value a text if it is a text node; well-formed nodes are.
-/

namespace Transclude

namespace Kinds

/-- Sets of one kind are equal as their kinds are. -/
theorem single_beq_single (k l : Kind) : (single k == single l) = decide (k = l) := by
  cases k <;> cases l <;> decide

/-- A set of one kind is named after it. -/
theorem name?_single (k : Kind) : (single k).name? = some k.name := by
  cases k <;> decide

end Kinds

namespace Head

/-- The kind of a head that fits together. -/
def kind : Head → Kind
  | .root => .root
  | .element _ _ => .element
  | .text _ => .text
  | .comment _ => .comment
  | .doctype => .doctype
  | .other _ _ => .other
  | .irregular _ => .other

/-- The text of a text. -/
def text? : Head → Option String
  | .text value => some value
  | _ => none

variable {h : Head}

/-- A head that fits together is of one kind only. -/
theorem kinds_of_isRegular (hr : h.isRegular = true) : h.kinds = .single h.kind := by
  cases h with
  | irregular traits => simp [isRegular] at hr
  | _ => rfl

/-- A head that fits together is of its own kind. -/
theorem isKind_of_isRegular (hr : h.isRegular = true) (k : Kind) :
    h.isKind k = decide (h.kind = k) := by
  unfold isKind
  rw [kinds_of_isRegular hr, Kinds.single_beq_single]

end Head

namespace Node

/-- Whether a member of a list is a node, and its value a text if it is a text node. -/
def isSound : Node → Bool
  | .stray _ => false
  | n => !n.isOddText

/-- A sound node is a node that is no odd text. -/
theorem isSound_node {head : Head} {info : Info} {children : List Node} :
    (Node.node head info children).isSound = true ↔
      (Node.node head info children).isOddText = false := by
  simp [isSound]

/-- A plain value is not sound. -/
theorem not_isSound_stray (value : Value) : ¬ (Node.stray value).isSound = true := by
  simp [isSound]

/-- A text is a text node with that value. -/
theorem text?_eq_some {head : Head} {info : Info} {children : List Node} {s : String} :
    (node head info children).text? = some s ↔
      head.isKind .text = true ∧ head.value = .str s := by
  unfold text?
  dsimp only
  split
  · next hkind hvalue => simp [hkind, hvalue]
  · next h => simpa using fun hkind hvalue => h s hkind hvalue

/-- A text is sound. -/
theorem isSound_of_text? {n : Node} {s : String} (h : n.text? = some s) : n.isSound = true := by
  cases n with
  | stray value => simp [text?] at h
  | node head info children => exact isSound_node.mpr (by simp [isOddText, h])

/-- A sound node is a text node if it has a text. -/
theorem isText_of_isSound {n : Node} (h : n.isSound = true) : n.isText = n.text?.isSome := by
  cases htext : n.text? with
  | some s => exact isText_of_text? htext
  | none =>
    cases n with
    | stray value => exact absurd h (not_isSound_stray value)
    | node head info children => simpa [isOddText, htext] using isSound_node.mp h

/-- A new text node is a text. -/
theorem isText_text (s : String) : (text s).isText = true := isText_of_text? (text?_text s)

/-- A new text node is sound. -/
theorem isSound_text (s : String) : (text s).isSound = true := rfl

/-- A node has the text of its head, if that fits together. -/
theorem text?_of_isRegular {head : Head} (h : head.isRegular = true) (info : Info)
    (children : List Node) : (Node.node head info children).text? = head.text? := by
  simp only [text?, Head.isKind_of_isRegular h]
  cases head <;> rfl

/-- A node whose head fits together is sound. -/
theorem isSound_of_isRegular {head : Head} (h : head.isRegular = true) (info : Info)
    (children : List Node) : (Node.node head info children).isSound = true := by
  simp only [isSound, isOddText, text?_of_isRegular h, isText, Head.isKind_of_isRegular h]
  cases head <;> rfl

/-- The parts of a well-formed node are well formed. -/
theorem wellFormed_node {head : Head} {info : Info} {children : List Node} :
    (Node.node head info children).wellFormed = true ↔ head.isRegular = true ∧
      (head.listed = true ∨ children = []) ∧ allWellFormed children = true := by
  rw [wellFormed, Bool.and_eq_true, Bool.and_eq_true, Bool.or_eq_true, List.isEmpty_iff, and_assoc]

/-- A well-formed node is a node whose head fits together. -/
theorem exists_of_wellFormed {n : Node} (h : n.wellFormed = true) :
    ∃ head info children, n = .node head info children ∧ head.isRegular = true := by
  cases n with
  | stray value => simp [wellFormed] at h
  | node head info children => exact ⟨head, info, children, rfl, (wellFormed_node.mp h).1⟩

/-- A new text node is well formed. -/
theorem wellFormed_text (s : String) : (text s).wellFormed = true :=
  wellFormed_node.mpr ⟨rfl, .inr rfl, by rw [allWellFormed]⟩

/-- Well-formed nodes are sound. -/
theorem isSound_of_wellFormed {n : Node} (h : n.wellFormed = true) : n.isSound = true := by
  obtain ⟨head, info, children, rfl, hr⟩ := exists_of_wellFormed h
  exact isSound_of_isRegular hr info children

/-- The nodes of a well-formed list are well formed. -/
theorem allWellFormed_iff {ns : List Node} :
    allWellFormed ns = true ↔ ∀ n ∈ ns, n.wellFormed = true := by
  induction ns with
  | nil => simp [allWellFormed]
  | cons n rest ih => simp [allWellFormed, ih]

end Node

end Transclude
