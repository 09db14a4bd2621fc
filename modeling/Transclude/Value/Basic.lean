import Transclude.Decimal.Shortest

/-!
# Values

The plain data that a document carries: tags, attributes, the fields that belong to no node and the
answers of resolvers. An object keeps its fields in the order in which they were given. Fields are
named by texts; an object that is made of pairs may also have keys of another type.
-/

namespace Transclude

/-- Plain data. -/
inductive Value where
  /-- The absent value. -/
  | null
  /-- A truth value. -/
  | bool (b : Bool)
  /-- A whole number. -/
  | int (i : Int)
  /-- A floating-point number. -/
  | float (x : Decimal.Double)
  /-- A text. -/
  | str (s : String)
  /-- A list. -/
  | arr (items : List Value)
  /-- An object: fields in order, no name twice. -/
  | obj (fields : List (String × Value))
  /-- An object whose keys are not all texts: entries in order, no key twice. -/
  | map (entries : List (Value × Value))
deriving Inhabited, Repr

/-- The fields of an object, in order. -/
abbrev Fields := List (String × Value)

namespace Fields

/-- The value of the field `key`. -/
def get? (key : String) : Fields → Option Value
  | [] => none
  | (k, v) :: rest => if k = key then some v else get? key rest

/-- Whether there is a field `key`. -/
def has (key : String) (fields : Fields) : Bool := (get? key fields).isSome

/-- Sets the field `key`: in its place if it is there, at the end if it is not. -/
def set (key : String) (value : Value) : Fields → Fields
  | [] => [(key, value)]
  | (k, v) :: rest => if k = key then (k, value) :: rest else (k, v) :: set key value rest

/-- The fields whose names are not listed. -/
def without (keys : List String) (fields : Fields) : Fields :=
  fields.filter fun field => !keys.contains field.1

/-- A field that is not there has no value. -/
theorem get?_nil (key : String) : get? key [] = none := rfl

/-- Setting a field gives it the value and leaves the others alone. -/
theorem get?_set (key other : String) (value : Value) (fields : Fields) :
    get? other (set key value fields) = if key = other then some value else get? other fields := by
  induction fields with
  | nil => simp [set, get?]
  | cons field rest ih =>
    obtain ⟨k, v⟩ := field
    by_cases hk : k = key
    · subst hk
      by_cases ho : k = other <;> simp [set, get?, ho]
    · by_cases ho : k = other
      · subst ho
        simp [set, get?, hk, Ne.symm hk]
      · simp [set, get?, hk, ho, ih]

end Fields

namespace Value

/-- Whether a value counts as true where a condition is asked for. Absence, the zeros and what is
empty count as false. -/
def holds : Value → Bool
  | .null => false
  | .bool b => b
  | .int i => i != 0
  | .float x => !x.isZero
  | .str s => s != ""
  | .arr items => !items.isEmpty
  | .obj fields => !fields.isEmpty
  | .map entries => !entries.isEmpty

/-- Whether a value is neither a list nor an object. Only such a value can be a member of a set. -/
def isAtomic : Value → Bool
  | .arr _ | .obj _ | .map _ => false
  | _ => true

/-- Whether a value is a text. -/
def isStr : Value → Bool
  | .str _ => true
  | _ => false

end Value

end Transclude
