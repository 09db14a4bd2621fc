import Transclude.Fault
import Transclude.Tree.Node
import Transclude.Value.Entries

/-!
# Excluded tags

The elements whose content is left alone, by their tags: those of a base set, with changes to it.
-/

namespace Transclude

/-- A set of tags. No two of them are the same. -/
abbrev Tags := List Value

namespace Tags

/-- Whether a tag is in a set. -/
def has (tags : Tags) (tag : Value) : Bool := tags.any fun member => member.same tag

/-- Adds a tag. -/
def add (tags : Tags) (tag : Value) : Tags := if has tags tag then tags else tags ++ [tag]

/-- Takes a tag away. -/
def discard (tags : Tags) (tag : Value) : Tags := tags.filter fun member => !member.same tag

/-- The set of the values in a list, which must be able to be members of a set. -/
def ofList (values : List Value) : Except Fault Tags :=
  if values.all Value.isAtomic then .ok (values.foldl add []) else .error .wrongType

/-- The tags of code, whose content is left alone unless something else is asked for. -/
def code : Tags := [.str "code", .str "pre"]

/-- The base set that a value stands for: nothing for the tags of code, a list or an object for its
members. A text is refused, for it would be a set of characters. -/
def ofValue : Value → Except Fault Tags
  | .null => .ok code
  | .str s => .error (.tagsAsText s)
  | .arr items => ofList items
  | .obj fields => ofList (fields.map fun field => .str field.1)
  | .map entries => ofList (entries.map fun entry => entry.1)
  | _ => .error .wrongType

/-- Adds the tags that are mapped to what counts as true and takes the others away. -/
def adjust (tags : Tags) (changes : Entries) : Tags :=
  changes.foldl (fun tags change =>
    if change.2.holds then add tags change.1 else discard tags change.1) tags

/-- The changes that a value stands for: none for nothing, and those of a mapping, whose keys must be
able to be members of a set. -/
def changesOf : Value → Except Fault Entries
  | .null => .ok []
  | .obj fields => .ok (Entries.ofFields fields)
  | .map entries =>
    if entries.all fun entry => entry.1.isAtomic then .ok entries else .error .wrongType
  | _ => .error .plainValue

/-- The set of excluded tags for a base set and changes to it. -/
def configure (base changes : Value) : Except Fault Tags := do
  let tags ← ofValue base
  return adjust tags (← changesOf changes)

/-- Whether an element is excluded. Only elements are, and only a value that can be a member of a
set can be looked up. -/
def excludes (tags : Tags) (head : Head) : Except Fault Bool :=
  if head.isKind .element then
    if head.tag.isAtomic then .ok (has tags head.tag) else .error .wrongType
  else .ok false

/-! ## Listing -/

/-- The order of two numbers. -/
def measureLe (v w : Value) : Bool :=
  match v.measure?, w.measure? with
  | some (a, i), some (b, j) =>
    a * Int.pow 2 (i - min i j).toNat ≤ b * Int.pow 2 (j - min i j).toNat
  | _, _ => false

/-- The order of two texts, by their characters. -/
def textLe : Value → Value → Bool
  | .str s, .str t => !decide (t < s)
  | _, _ => false

/-- The tags in order, if they can be ordered: all are texts, or all are numbers. -/
def sorted (tags : Tags) : Except Fault (List Value) :=
  if tags.length ≤ 1 then .ok tags
  else if tags.all Value.isStr then .ok (tags.mergeSort textLe)
  else if tags.all fun tag => tag.measure?.isSome then .ok (tags.mergeSort measureLe)
  else .error .wrongType

end Tags

end Transclude
