/-!
# Shortest decimals

A binary floating-point number stands for every real that rounds to it. This module finds the
decimal with the fewest digits among those reals, and the nearest one when several have that many.
All arithmetic is exact, on natural numbers.
-/

namespace Transclude.Decimal

/-- A floating-point number, given by its 64 bits: a sign, eleven bits of exponent and fifty-two
bits of fraction. -/
structure Double where
  /-- The bits, with the sign on top. -/
  bits : UInt64
deriving DecidableEq, Repr, Inhabited

namespace Double

/-- Whether the sign bit is set. It is set for the negative zero too. -/
def isNegative (x : Double) : Bool := x.bits >>> 63 == 1

/-- The eleven bits of the exponent. -/
def exponentField (x : Double) : Nat := ((x.bits >>> 52) &&& 0x7FF).toNat

/-- The fifty-two bits of the fraction. -/
def fractionField (x : Double) : Nat := (x.bits &&& 0xFFFFFFFFFFFFF).toNat

/-- Whether the number is neither infinite nor undefined. -/
def isFinite (x : Double) : Bool := x.exponentField != 0x7FF

/-- The whole number `m` of the magnitude `m * 2 ^ q`. -/
def mantissa (x : Double) : Nat :=
  if x.exponentField = 0 then x.fractionField else Nat.pow 2 52 + x.fractionField

/-- The power `q` of the magnitude `m * 2 ^ q`. -/
def power (x : Double) : Int :=
  if x.exponentField = 0 then -1074 else (x.exponentField : Int) - 1075

/-- Whether the number below is only half as far away as the number above, which is so at the
powers of two. -/
def narrowBelow (x : Double) : Bool := x.fractionField == 0 && decide (1 < x.exponentField)

/-- Whether the number is a zero of either sign. -/
def isZero (x : Double) : Bool := x.mantissa == 0

end Double

/-- The decimal `digits * 10 ^ power`. -/
structure Scaled where
  /-- The digits, read as one whole number. -/
  digits : Nat
  /-- The power of ten. -/
  power : Int
deriving DecidableEq, Repr

/-- Compares `a * 10 ^ i` with `b * 2 ^ j`. -/
def compareScaled (a : Nat) (i : Int) (b : Nat) (j : Int) : Ordering :=
  compare (a * Nat.pow 10 i.toNat * Nat.pow 2 (-j).toNat)
    (b * Nat.pow 2 j.toNat * Nat.pow 10 (-i).toNat)

/-- Whether a decimal lies among the reals that round to `x`. They reach halfway to the
neighbours, and the two ends belong to them exactly when the mantissa is even. -/
def identifies (x : Double) (d : Scaled) : Bool :=
  -- The ends are counted in quarters of the last place, to be whole numbers.
  let low := 4 * x.mantissa - (if x.narrowBelow then 1 else 2)
  let high := 4 * x.mantissa + 2
  let closed := x.mantissa % 2 == 0
  let atLow := compareScaled d.digits d.power low (x.power - 2)
  let atHigh := compareScaled d.digits d.power high (x.power - 2)
  (atLow == .gt || (closed && atLow == .eq)) && (atHigh == .lt || (closed && atHigh == .eq))

/-- The first `k` from `start` on with `x < 10 ^ k`, looking at `steps` of them. -/
def magnitudeFrom (x : Double) (start : Int) : Nat → Int
  | 0 => start
  | steps + 1 =>
    if compareScaled 1 start x.mantissa x.power == .gt then start
    else magnitudeFrom x (start + 1) steps

/-- The least `k` with `x < 10 ^ k`, for a number that is not zero. The binary length gives it to
within a few steps. -/
def magnitude (x : Double) : Int :=
  -- The decimal logarithm of two is 0.30103.
  magnitudeFrom x (((x.mantissa.log2 : Int) + x.power) * 30103 / 100000 - 1) 5

/-- The multiple of `10 ^ power` next below `x`, counted in units of `10 ^ power`. -/
def floorTo (x : Double) (power : Int) : Nat :=
  (x.mantissa * Nat.pow 2 x.power.toNat * Nat.pow 10 (-power).toNat) /
    (Nat.pow 2 (-x.power).toNat * Nat.pow 10 power.toNat)

/-- Of the two neighbours of `x` among the multiples of `10 ^ power`, one that identifies `x`: the
nearer if both do, and the even one if they are equally near. -/
def atPower (x : Double) (power : Int) : Option Scaled :=
  let below : Scaled := ⟨floorTo x power, power⟩
  let above : Scaled := ⟨floorTo x power + 1, power⟩
  match identifies x below, identifies x above with
  | false, false => none
  | true, false => some below
  | false, true => some above
  | true, true =>
    match compareScaled (2 * below.digits + 1) power x.mantissa (x.power + 1) with
    | .gt => some below
    | .lt => some above
    | .eq => some (if below.digits % 2 = 0 then below else above)

/-- The magnitude of `x` written out in full. -/
def exact (x : Double) : Scaled :=
  ⟨x.mantissa * Nat.pow 2 x.power.toNat * Nat.pow 5 (-x.power).toNat,
    if x.power < 0 then x.power else 0⟩

/-- The shortest decimal that identifies the magnitude of `x`, for a number that is not zero: the
first hit among one digit, two digits and so on to seventeen. -/
def shortest (x : Double) : Scaled :=
  let k := magnitude x
  ((List.range 17).findSome? fun (n : Nat) => atPower x (k - 1 - n)).getD (exact x)

end Transclude.Decimal
