import Transclude.Fault

/-!
# Document trees

A node has a head, which says what it is, some information that is carried along without being
looked at, and a list of children. The heads of the six kinds hold what their kind calls for. A
node whose traits do not fit its kind has an irregular head, and a plain value that stands
where a node belongs is a stray.
-/

namespace Transclude

/-- All that can be said about what a node is, whether or not it fits together. -/
structure Traits where
  /-- The kinds of the node. -/
  kinds : Kinds
  /-- The tag, which counts for elements. -/
  tag : Value := .str ""
  /-- The value, which counts for text and comments. -/
  value : Value := .str ""
  /-- The properties, which count for elements. -/
  properties : Value := .obj []
  /-- The type name of a node that was made with one, and whether it has a list of children. -/
  typed : Option (String × Bool) := none
  /-- What stands in place of the extra fields, when it is not an object with fields. -/
  extra : Option Value := none
  /-- Whether the node has no list of children, not even an empty one. -/
  bare : Bool := false
deriving Inhabited, Repr

/-- What a node is. -/
inductive Head where
  /-- The top of a tree. -/
  | root
  /-- An element. -/
  | element (tag : String) (properties : Fields)
  /-- A text. -/
  | text (value : String)
  /-- A comment. -/
  | comment (value : String)
  /-- A document type declaration. -/
  | doctype
  /-- A node of another type. It may be listed, that is, have a list of children, even an empty
  one. -/
  | other (type : String) (listed : Bool)
  /-- Traits that fit none of the above. -/
  | irregular (traits : Traits)
deriving Inhabited, Repr

/-- What a node carries along. -/
structure Info where
  /-- Data of the application, if any. -/
  data : Value := .null
  /-- The fields that mean nothing for the node's kind. -/
  extra : Fields := []
deriving Inhabited, Repr

/-- A node of a document tree with all that is below it. -/
inductive Node where
  /-- A node. -/
  | node (head : Head) (info : Info) (children : List Node)
  /-- A plain value in place of a node. -/
  | stray (value : Value)
deriving Inhabited, Repr

/-! ## Heads and traits -/

/-- The traits that a head stands for. -/
def Head.traits : Head → Traits
  | .root => { kinds := .single .root }
  | .element tag properties =>
    { kinds := .single .element, tag := .str tag, properties := .obj properties }
  | .text value => { kinds := .single .text, value := .str value }
  | .comment value => { kinds := .single .comment, value := .str value }
  | .doctype => { kinds := .single .doctype }
  | .other type listed => { kinds := .single .other, typed := some (type, listed) }
  | .irregular traits => traits

/-- The head with given traits, irregular only if they fit no kind. -/
def Traits.head (t : Traits) : Head :=
  match t.kinds.single?, t.tag, t.value, t.properties, t.typed, t.extra, t.bare with
  | some .root, .str "", .str "", .obj [], none, none, false => .root
  | some .element, .str tag, .str "", .obj properties, none, none, false =>
    .element tag properties
  | some .text, .str "", .str value, .obj [], none, none, false => .text value
  | some .comment, .str "", .str value, .obj [], none, none, false => .comment value
  | some .doctype, .str "", .str "", .obj [], none, none, false => .doctype
  | some .other, .str "", .str "", .obj [], some (type, listed), none, false => .other type listed
  | _, _, _, _, _, _, _ => .irregular t

/-- A head stands for the traits that it was made from. -/
theorem Traits.traits_head (t : Traits) : t.head.traits = t := by
  obtain ⟨kinds, tag, value, properties, typed, extra, bare⟩ := t
  have hk := @Kinds.eq_single_of_single? kinds
  simp only [Traits.head]
  split <;> simp_all [Head.traits]

namespace Head

/-- The kinds of a node. -/
def kinds (h : Head) : Kinds := h.traits.kinds

/-- The tag of a node, which is empty unless the node is an element. -/
def tag (h : Head) : Value := h.traits.tag

/-- The value of a node, which is empty unless the node is a text or a comment. -/
def value (h : Head) : Value := h.traits.value

/-- The properties of a node. -/
def properties (h : Head) : Value := h.traits.properties

/-- Whether a node has no list of children, so that its children cannot be gone through. -/
def isBare (h : Head) : Bool := h.traits.bare

/-- Whether a node is of exactly one kind, and that is `k`. -/
def isKind (h : Head) (k : Kind) : Bool := h.kinds == .single k

/-- Whether a node is of a kind that may have children. -/
def isContainer (h : Head) : Bool := h.kinds.within .containers

/-- The type that the encoded form of the node states. -/
def typeName? (h : Head) : Option String :=
  match h.traits.typed with
  | some (type, _) => some type
  | none => h.kinds.single?.bind Kind.typeName?

/-- Whether the encoded form of the node has a list of children. -/
def listed (h : Head) : Bool :=
  match h.traits.typed with
  | some (_, listed) => listed
  | none => h.isContainer

end Head

/-! ## Nodes -/

namespace Node

/-- A text node. -/
def text (value : String) : Node := .node (.text value) {} []

/-- An element. -/
def element (tag : String) (properties : Fields) (children : List Node) : Node :=
  .node (.element tag properties) {} children

/-- The top of a tree. -/
def root (children : List Node) : Node := .node .root {} children

/-- The children of a node. -/
def children : Node → List Node
  | .node _ _ children => children
  | .stray _ => []

/-- Whether a node is a text. -/
def isText : Node → Bool
  | .node head _ _ => head.isKind .text
  | .stray _ => false

/-- Whether a node may have children and has some. -/
def hasChildren : Node → Bool
  | .node head _ children => head.isContainer && !children.isEmpty
  | .stray _ => false

/-- The text of a text node. A text node whose value is not a text has none. -/
def text? : Node → Option String
  | .node head _ _ =>
    match head.isKind .text, head.value with
    | true, .str s => some s
    | _, _ => none
  | .stray _ => none

/-- Whether a node is a text node whose value is not a text. -/
def isOddText (n : Node) : Bool := n.isText && n.text?.isNone

/-- A new text node has the text that it was made from. -/
theorem text?_text (s : String) : (text s).text? = some s := rfl

/-- A node with a text is a text node. -/
theorem isText_of_text? {n : Node} {s : String} (h : n.text? = some s) : n.isText = true := by
  cases n with
  | stray v => simp [text?] at h
  | node head info children =>
    simp only [text?] at h
    split at h
    · next hk _ => simpa [isText] using hk
    · simp at h

end Node

/-! ## Well-formed trees -/

namespace Head

/-- Whether a head fits together. -/
def isRegular : Head → Bool
  | .irregular _ => false
  | _ => true

/-- A node whose head fits together has a list of children. -/
theorem isBare_of_isRegular {h : Head} (hr : h.isRegular = true) : h.isBare = false := by
  cases h <;> simp_all [isBare, traits, isRegular]

/-- A head that fits together is determined by what it stands for. -/
theorem head_traits {h : Head} (hr : h.isRegular = true) : h.traits.head = h := by
  cases h <;> simp_all [traits, Traits.head, Kinds.single?_single, isRegular]

end Head

namespace Node

mutual

/-- Whether a tree has regular nodes only, with children only where the node's kind has a list of
them. -/
def wellFormed : Node → Bool
  | .node head _ children =>
    head.isRegular && (head.listed || children.isEmpty) && allWellFormed children
  | .stray _ => false

/-- Whether all trees of a list are well formed. -/
def allWellFormed : List Node → Bool
  | [] => true
  | n :: rest => wellFormed n && allWellFormed rest

end

end Node

end Transclude
