/-!
The exact contents of a double: a sign and a magnitude `mantissa * 2 ^ exponent`. From these parts come
the whole-number test, the total order of doubles, and the conversion of 64-bit integers.
-/

namespace BehaviorTree
set_option autoImplicit false

/-- A finite double is `± mantissa * 2 ^ exponent`. -/
structure Binary64 where
  negative : Bool
  mantissa : Nat
  exponent : Int
  deriving DecidableEq, Repr

namespace Binary64

/-- The parts of a finite double; the infinities and NaN have none. -/
def ofFloat? (x : Float) : Option Binary64 :=
  let bits : Nat := x.toBits.toNat
  let negative := decide (Nat.pow 2 63 ≤ bits)
  let biased : Nat := bits / Nat.pow 2 52 % 2048
  let fraction : Nat := bits % Nat.pow 2 52
  if biased = 2047 then none
  else if biased = 0 then some ⟨negative, fraction, -1074⟩
  else some ⟨negative, fraction + Nat.pow 2 52, biased - 1075⟩

def wholeMagnitude? (x : Binary64) : Option Nat :=
  if 0 ≤ x.exponent then some (x.mantissa * Nat.pow 2 x.exponent.toNat)
  else
    let unit := Nat.pow 2 (-x.exponent).toNat
    if x.mantissa % unit = 0 then some (x.mantissa / unit) else none

/-- The integer that a double stands for, if it is whole; a negative zero stands for zero. -/
def toInt? (x : Binary64) : Option Int :=
  x.wholeMagnitude?.map fun n => if x.negative then -(n : Int) else n

/-- The magnitude next below, as a multiple of half the last place, keeps half the distance of the one next
above exactly at the start of a binade. -/
def startsBinade (x : Binary64) : Bool :=
  x.mantissa = Nat.pow 2 52 && -1074 < x.exponent

/-- Ordering doubles by this key is the total order in which `-0.0` comes before `0.0`. -/
def orderKey (x : Float) : Int :=
  let bits : Nat := x.toBits.toNat
  if Nat.pow 2 63 ≤ bits then -((bits - Nat.pow 2 63 : Nat) : Int) - 1 else bits

/-- The double nearest to an integer between `-2 ^ 64` and `2 ^ 64`, a tie going to the even mantissa. -/
def nearestInt (n : Int) : Float :=
  let magnitude := n.natAbs.toUInt64.toFloat
  if n < 0 then -magnitude else magnitude

end Binary64

end BehaviorTree
