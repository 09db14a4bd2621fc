import Transclude.Value.Basic

/-!
# Sameness of values

When two values count as one: numbers by what they measure, so that one, a floating one and true are
the same, and objects without regard to the order of their fields.
-/

namespace Transclude.Value

/-- What a number measures, as a whole number times a power of two. A truth value is one or zero. -/
def measure? : Value → Option (Int × Int)
  | .bool b => some (if b then 1 else 0, 0)
  | .int i => some (i, 0)
  | .float x =>
    if x.isFinite then some (if x.isNegative then -x.mantissa else x.mantissa, x.power) else none
  | _ => none

/-- Whether `a * 2 ^ i` is `b * 2 ^ j`. -/
def equalScaled (a i b j : Int) : Bool :=
  a * Int.pow 2 (i - min i j).toNat == b * Int.pow 2 (j - min i j).toNat

/-- Whether two values measure the same number. -/
def sameMeasure (v w : Value) : Bool :=
  match v.measure?, w.measure? with
  | some (a, i), some (b, j) => equalScaled a i b j
  | _, _ => false

/-- Whether two values that are neither lists nor objects are the same. -/
def sameScalar (v w : Value) : Bool :=
  match v, w with
  | .null, .null => true
  | .str s, .str t => s == t
  | .float x, .float y =>
    if x.isFinite && y.isFinite then sameMeasure v w else x == y && x.fractionField == 0
  | _, _ => sameMeasure v w

mutual

/-- Whether two values are the same. -/
def same : Value → Value → Bool
  | .arr items, .arr others => sameItems items others
  | .obj fields, .obj others => fields.length == others.length && sameFields fields others
  | .map entries, .map others => entries.length == others.length && sameEntries entries others
  | .arr _, _ => false
  | .obj _, _ => false
  | .map _, _ => false
  | v, w => sameScalar v w

/-- Whether two lists have the same items in the same order. -/
def sameItems : List Value → List Value → Bool
  | [], [] => true
  | item :: rest, other :: others => same item other && sameItems rest others
  | _, _ => false

/-- Whether each of some fields has the same value among other fields. -/
def sameFields : List (String × Value) → Fields → Bool
  | [], _ => true
  | (key, value) :: rest, others =>
    (match others.get? key with
      | some other => same value other
      | none => false) && sameFields rest others

/-- Whether each of some entries has the same value among other entries. -/
def sameEntries : List (Value × Value) → List (Value × Value) → Bool
  | [], _ => true
  | (key, value) :: rest, others =>
    (match others.find? fun other => sameScalar key other.1 with
      | some other => same value other.2
      | none => false) && sameEntries rest others

end

end Transclude.Value
