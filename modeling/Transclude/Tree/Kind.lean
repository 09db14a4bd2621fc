/-!
# Kinds of nodes

The six kinds of nodes of a document tree, and sets of them. A node ordinarily has one kind; a
search may ask for several.
-/

namespace Transclude

/-- What a node of a document tree is. -/
inductive Kind where
  /-- The top of a document or of a piece of one. -/
  | root
  /-- An element with a tag and properties. -/
  | element
  /-- Text. -/
  | text
  /-- A comment. -/
  | comment
  /-- A document type declaration. -/
  | doctype
  /-- A node of some other type, known only by the type's name. -/
  | other
deriving DecidableEq, Repr, Inhabited

namespace Kind

/-- All kinds, in the order in which they are declared. -/
def all : List Kind := [.root, .element, .text, .comment, .doctype, .other]

/-- The name of a kind. -/
def name : Kind → String
  | .root => "ROOT"
  | .element => "ELEMENT"
  | .text => "TEXT"
  | .comment => "COMMENT"
  | .doctype => "DOCTYPE"
  | .other => "OTHER"

/-- The kind of a given name. -/
def ofName? (name : String) : Option Kind := all.find? fun k => k.name = name

/-- The type that the encoded form of a node of this kind states. The other nodes have each their
own type. -/
def typeName? : Kind → Option String
  | .root => some "root"
  | .element => some "element"
  | .text => some "text"
  | .comment => some "comment"
  | .doctype => some "doctype"
  | .other => none

/-- The kind that the encoded form of a node means by a type. -/
def ofTypeName (type : String) : Kind :=
  (all.find? fun k => k.typeName? = some type).getD .other

/-- The place of a kind in the order of declaration. -/
def index : Kind → Nat
  | .root => 0
  | .element => 1
  | .text => 2
  | .comment => 3
  | .doctype => 4
  | .other => 5

end Kind

/-- A set of kinds. -/
structure Kinds where
  /-- One bit for each kind, in the order of declaration. -/
  mask : BitVec 6
deriving DecidableEq, Repr, Inhabited

namespace Kinds

/-- The set without kinds. -/
def empty : Kinds := ⟨0⟩

/-- The set of one kind. -/
def single (k : Kind) : Kinds := ⟨1#6 <<< k.index⟩

/-- The kinds of either set. -/
def union (ks ls : Kinds) : Kinds := ⟨ks.mask ||| ls.mask⟩

/-- Whether every kind of the one set is in the other. -/
def within (ks ls : Kinds) : Bool := ks.mask &&& ls.mask == ks.mask

/-- Whether a set has a kind. -/
def has (ks : Kinds) (k : Kind) : Bool := (single k).within ks

/-- The set of the kinds in a list. -/
def ofList (ks : List Kind) : Kinds := ks.foldl (fun set k => set.union (single k)) empty

/-- The only kind of a set of one. -/
def single? (ks : Kinds) : Option Kind := Kind.all.find? fun k => single k = ks

/-- The kinds whose nodes may have children. -/
def containers : Kinds := ofList [.root, .element, .other]

/-- The kinds whose nodes have a value and no children. -/
def valued : Kinds := ofList [.text, .comment]

/-- The name of a set that has kinds: their names in the order of declaration with bars between
them. -/
def name? (ks : Kinds) : Option String :=
  if ks = empty then none
  else some ("|".intercalate ((Kind.all.filter ks.has).map Kind.name))

/-- The name of a set, for display. -/
def label (ks : Kinds) : String := ks.name?.getD "None"

/-- A set of one kind is known by that kind. -/
theorem single?_single (k : Kind) : (single k).single? = some k := by
  cases k <;> decide

/-- A set that is known by one kind has that kind only. -/
theorem eq_single_of_single? {ks : Kinds} {k : Kind} (h : ks.single? = some k) :
    ks = single k := by
  have h' := List.find?_some h
  simp only [decide_eq_true_eq] at h'
  exact h'.symm

/-- A set of one kind has the name of that kind. -/
theorem label_single (k : Kind) : (single k).label = k.name := by
  cases k <;> decide

end Kinds

end Transclude
