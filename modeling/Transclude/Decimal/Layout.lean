import Transclude.Decimal.Shortest

/-!
# Decimal layout

How a selected decimal is laid out: where it is positional, how its exponent is written.
-/

namespace Transclude.Decimal

/-- The choices of a way to write numbers. -/
structure Layout where
  /-- The least exponent of the leading digit that is written positionally. -/
  positionalFrom : Int
  /-- The least exponent of the leading digit above those that are written positionally. -/
  positionalBelow : Int
  /-- The least number of digits of a written exponent. -/
  exponentWidth : Nat

/-- The digits of a number without those zeros that end it, and their count. -/
def stripZeros : Nat → Nat → Nat × Nat
  | 0, n => (n, 0)
  | fuel + 1, n =>
    if n ≠ 0 ∧ n % 10 = 0 then
      let (rest, zeros) := stripZeros fuel (n / 10)
      (rest, zeros + 1)
    else (n, 0)

/-- The decimal digits of a number. -/
def digitText (n : Nat) : String := String.ofList (Nat.toDigits 10 n)

/-- The character zero, `n` times. -/
def zeros (n : Nat) : String := String.ofList (List.replicate n '0')

/-- An exponent with its sign, filled with zeros on the left to the width. -/
def exponentText (width : Nat) (e : Int) : String :=
  let text := digitText e.natAbs
  (if e < 0 then "-" else "+") ++ zeros (width - text.length) ++ text

/-- Writes a decimal. A whole number keeps one zero after its point, and an exponent follows the
letter `e`. -/
def Layout.place (style : Layout) (d : Scaled) : String :=
  let stripped := stripZeros (d.digits.log2 + 1) d.digits
  let ds := Nat.toDigits 10 stripped.1
  let point : Int := ds.length + d.power + stripped.2
  let text := String.ofList
  if style.positionalFrom ≤ point - 1 ∧ point - 1 < style.positionalBelow then
    if point ≤ 0 then "0." ++ zeros (-point).toNat ++ text ds
    else if ds.length ≤ point.toNat then text ds ++ zeros (point.toNat - ds.length) ++ ".0"
    else text (ds.take point.toNat) ++ "." ++ text (ds.drop point.toNat)
  else
    text (ds.take 1) ++ (if ds.length ≤ 1 then "" else "." ++ text (ds.drop 1)) ++ "e" ++
      exponentText style.exponentWidth (point - 1)

/-- Writes a floating-point number by its shortest decimal. -/
def Layout.write (style : Layout) (x : Double) : String :=
  let sign := if x.isNegative then "-" else ""
  if !x.isFinite then (if x.fractionField = 0 then sign ++ "inf" else "nan")
  else if x.isZero then sign ++ "0.0"
  else sign ++ style.place (shortest x)

end Transclude.Decimal
