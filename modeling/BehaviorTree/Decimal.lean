import BehaviorTree.Binary64

/-!
Decimal forms of doubles. `shortest` finds the fewest digits that read back as the same double and, of
those, the nearest; `text` sets the digits out; `nearest` reads a decimal as the nearest double.
-/

namespace BehaviorTree
set_option autoImplicit false

/-- The number `digits * 10 ^ exponent`. -/
structure Decimal where
  digits : Nat
  exponent : Int
  deriving DecidableEq, Repr

namespace Decimal

/-- How many decimal digits a number has; zero has one. -/
def digitCount (n : Nat) : Nat := (Nat.toDigits 10 n).length

/-- Moves trailing zeros of the digits into the exponent, at most `fuel` of them. -/
def stripZeros : Nat → Decimal → Decimal
  | 0, d => d
  | fuel + 1, d =>
    if d.digits ≠ 0 ∧ d.digits % 10 = 0 then stripZeros fuel ⟨d.digits / 10, d.exponent + 1⟩ else d

/-- An open or closed interval of the rationals `low / scale ... high / scale` around `middle / scale`. -/
structure Interval where
  low : Nat
  middle : Nat
  high : Nat
  scale : Nat
  closed : Bool

/-- The rationals that round to a double: halfway to its neighbours, ends included iff the mantissa is even. -/
def Interval.around (x : Binary64) : Interval :=
  let up := Nat.pow 2 (x.exponent - 2).toNat
  let down := Nat.pow 2 (2 - x.exponent).toNat
  ⟨(4 * x.mantissa - if x.startsBinade then 1 else 2) * up, 4 * x.mantissa * up,
    (4 * x.mantissa + 2) * up, down, x.mantissa % 2 = 0⟩

/-- Whether `numerator / denominator` lies in the interval. -/
def Interval.contains (i : Interval) (numerator denominator : Nat) : Bool :=
  let value := numerator * i.scale
  if i.closed then i.low * denominator ≤ value && value ≤ i.high * denominator
  else i.low * denominator < value && value < i.high * denominator

/-- The multiple of `10 ^ exponent` in the interval that is nearest to its middle, if one of the two
neighbours of the middle lies in it; a tie goes to the even multiple. -/
def Interval.pick (i : Interval) (exponent : Int) : Option Nat :=
  let up := Nat.pow 10 exponent.toNat
  let down := Nat.pow 10 (-exponent).toNat
  let below := i.middle * down / (i.scale * up)
  let rest := i.middle * down - below * (i.scale * up)
  let inside := fun n => i.contains (n * up) down
  match inside below, inside (below + 1) with
  | true, true =>
    if 2 * rest < i.scale * up || (2 * rest = i.scale * up && below % 2 = 0) then some below
    else some (below + 1)
  | true, false => some below
  | false, true => some (below + 1)
  | false, false => none

/-- Tries the powers of ten downwards from `exponent` and takes the first with a hit. -/
def Interval.search (i : Interval) : Nat → Int → Decimal
  | 0, exponent => ⟨0, exponent⟩
  | fuel + 1, exponent =>
    match i.pick exponent with
    | some digits => ⟨digits, exponent⟩
    | none => i.search fuel (exponent - 1)

/-- The fewest digits that read back as the same magnitude, and the nearest of those. -/
def shortest (x : Binary64) : Decimal :=
  if x.mantissa = 0 then ⟨0, 0⟩
  else
    let i := Interval.around x
    let top : Int := (digitCount i.high : Int) - digitCount i.scale + 1
    stripZeros 20 (i.search 24 top)

/-- Whether a number whose decimal point stands after its first `point` digits is written without an exponent: from
`0.00001` up to sixteen places before the point. -/
def isPositional (point : Int) : Bool := -5 < point && point ≤ 16

private def zeros (n : Int) : String := String.ofList (List.replicate n.toNat '0')

/-- An exponent after the letter `e`, always with a sign and without padding. -/
def exponentText (n : Int) : String := if 0 ≤ n then "e+" ++ toString n else "e" ++ toString n

/-- The text of a magnitude. A positional form always shows a point with a digit on both sides. -/
def text (d : Decimal) : String :=
  let digits := Nat.toDigits 10 d.digits
  let count : Int := digits.length
  let point := count + d.exponent
  if d.digits = 0 then "0.0"
  else if isPositional point then
    if 0 ≤ d.exponent then String.ofList digits ++ zeros d.exponent ++ ".0"
    else if 0 < point then
      String.ofList (digits.take point.toNat) ++ "." ++ String.ofList (digits.drop point.toNat)
    else "0." ++ zeros (-point) ++ String.ofList digits
  else
    let head := String.ofList (digits.take 1)
    let tail := digits.drop 1
    let fraction := if tail.isEmpty then "" else "." ++ String.ofList tail
    head ++ fraction ++ exponentText (point - 1)

/-- The text of a finite double; an infinity or NaN has none. -/
def floatText? (x : Float) : Option String :=
  (Binary64.ofFloat? x).map fun parts => (if parts.negative then "-" else "") ++ (shortest parts).text

/-- The double nearest to a decimal, infinite beyond the largest one. Exponents far outside the range of doubles
are settled without computing the power. -/
def nearest (d : Decimal) : Float :=
  let size : Int := digitCount d.digits + d.exponent
  if d.digits = 0 || size < -400 then 0.0
  else if 400 < size then 1.0 / 0.0
  else if 0 ≤ d.exponent then Float.ofScientific d.digits false d.exponent.toNat
  else Float.ofScientific d.digits true (-d.exponent).toNat

end Decimal

end BehaviorTree
