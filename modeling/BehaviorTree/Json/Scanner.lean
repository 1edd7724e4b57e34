import BehaviorTree.Value
import BehaviorTree.Decimal
import BehaviorTree.Text.Width

/-!
Reading the tokens of a text from left to right: words, numerals and strings. What stops a reader is the first
problem met: a character that fits nowhere, the end of the text, or a value of the wrong shape.
-/

namespace BehaviorTree
set_option autoImplicit false

namespace Json

inductive Problem where
  | malformed
  | truncated
  | mismatch
  deriving DecidableEq, Repr

abbrev Scan := StateT (List Char) (Except Problem)

def isBlank (c : Char) : Bool := c = ' ' || c = '\n' || c = '\t' || c = '\r'

def peek : Scan (Option Char) := do
  modify (·.dropWhile isBlank)
  return (← get).head?

def skip : Scan Unit := modify (·.drop 1)

/-- The next character after blanks; the text must not end here. -/
def peekChar : Scan Char := do
  match ← peek with
  | some c => return c
  | none => throw .truncated

def expect (c : Char) : Scan Unit := do
  if (← peekChar) = c then skip else throw .malformed

def word : List Char → Scan Unit
  | [] => return
  | c :: rest => do
    match ← get with
    | [] => throw .truncated
    | d :: text => if c = d then set text; word rest else throw .malformed

def finish : Scan Unit := do
  if (← peek).isSome then throw .malformed

def digits : Scan (List Char) := do
  let text ← get
  set (text.dropWhile Char.isDigit)
  return text.takeWhile Char.isDigit

/-- A number as it is spelled. The exponent comes with whether it is negative. -/
structure Numeral where
  negative : Bool
  whole : List Char
  fraction : List Char
  exponent : Option (Bool × List Char)

def someDigits (atEnd : Problem) : Scan (List Char) := do
  match ← digits with
  | [] => throw (if (← get).isEmpty then atEnd else .malformed)
  | ds => return ds

def wholeDigits (atEnd : Problem) : Scan (List Char) := do
  match ← someDigits atEnd with
  | '0' :: _ :: _ => throw .malformed
  | ds => return ds

/-- Takes a numeral; `atEnd` is the problem if the text ends where a digit is due. -/
def numeral (atEnd : Problem) : Scan Numeral := do
  let negative := (← get).head? = some '-'
  if negative then skip
  let whole ← wholeDigits atEnd
  let fraction ← if (← get).head? = some '.' then skip; someDigits atEnd else pure []
  let mark := (← get).head?
  let exponent ←
    if mark = some 'e' || mark = some 'E' then
      skip
      let sign := (← get).head?
      if sign = some '+' || sign = some '-' then skip
      pure (some (decide (sign = some '-'), ← someDigits atEnd))
    else pure none
  return ⟨negative, whole, fraction, exponent⟩

def digitValue (c : Char) : Nat := c.toNat - '0'.toNat

/-- Appends digits to a number as long as it stays below the limit of integers, and gives back the digits left over. -/
def appendDigits (n : Nat) : List Char → Nat × List Char
  | [] => (n, [])
  | c :: rest =>
    if n * 10 + digitValue c < Value.intLimit then appendDigits (n * 10 + digitValue c) rest else (n, c :: rest)

def exponentLimit : Nat := Nat.pow 2 31

/-- A significand times a power of ten, by one rounded multiplication or division and a second division below
`1e-308`; none if it is too large. -/
def scaled (significand : Nat) (exponent : Int) : Option Float :=
  let power := fun (n : Int) => Decimal.nearest ⟨1, n⟩
  let x := Binary64.nearestInt significand
  if significand = 0 then some x
  else if 308 < exponent then none
  else if 0 ≤ exponent then
    let product := x * power exponent
    if (Binary64.ofFloat? product).isSome then some product else none
  else if -308 ≤ exponent then some (x / power (-exponent))
  else if -616 ≤ exponent then some (x / power 308 / power (-exponent - 308))
  else some 0.0

/-- The value of a numeral. Digits beyond 64 bits only count as powers of ten, an integer that does not fit its
64 bits and a negative zero are floats, and a float must not be infinite. -/
def Numeral.value (n : Numeral) : Except Problem Value :=
  let (significand, beyond) := appendDigits 0 n.whole
  if n.fraction.isEmpty && n.exponent.isNone && beyond.isEmpty
      && (!n.negative || (0 < significand && significand ≤ Value.negativeLimit)) then
    .ok (.int (if n.negative then -(significand : Int) else significand))
  else
    let (significand, dropped) := appendDigits significand n.fraction
    let point : Int := (beyond.length : Int) + dropped.length - n.fraction.length
    let exponent : Int :=
      match n.exponent with
      | none => point
      | some (negative, ds) =>
        let e := ds.foldl (fun e c => if e < exponentLimit then e * 10 + digitValue c else e) 0
        if negative then point - (e : Int) else point + (e : Int)
    match scaled significand exponent with
    | some x => .ok (.float (if n.negative then -x else x))
    | none => .error .malformed

def hexValue? (c : Char) : Option Nat :=
  if '0' ≤ c && c ≤ '9' then some (c.toNat - 48)
  else if 'a' ≤ c && c ≤ 'f' then some (c.toNat - 87)
  else if 'A' ≤ c && c ≤ 'F' then some (c.toNat - 55)
  else none

/-- Takes four hexadecimal digits; fewer than four bytes before the end are an end of the text. -/
def hexUnit : Scan Nat := do
  let text ← get
  match text.take 4 |>.mapM hexValue? with
  | some [a, b, c, d] =>
    set (text.drop 4)
    return ((a * 16 + b) * 16 + c) * 16 + d
  | _ => throw (if byteCount text < 4 then .truncated else .malformed)

/-- Takes the second half of a pair of units that stand for one character beyond the sixteen-bit range. -/
def lowUnit (high : Nat) : Scan Char := do
  word ['\\', 'u']
  let low ← hexUnit
  if 0xdc00 ≤ low && low < 0xe000 then
    return Char.ofNat (0x10000 + (high - 0xd800) * 0x400 + (low - 0xdc00))
  else throw .malformed

/-- Takes what follows a backslash. Unpaired units are refused only if the string is `kept`. -/
def escaped (kept : Bool) : Scan Char := do
  match ← get with
  | [] => throw .truncated
  | c :: rest =>
    set rest
    match c with
    | '"' => return '"'
    | '\\' => return '\\'
    | '/' => return '/'
    | 'b' => return '\x08'
    | 'f' => return '\x0c'
    | 'n' => return '\n'
    | 'r' => return '\r'
    | 't' => return '\t'
    | 'u' =>
      let unit ← hexUnit
      if !kept then return Char.ofNat unit
      else if 0xdc00 ≤ unit && unit < 0xe000 then throw .malformed
      else if 0xd800 ≤ unit && unit < 0xdc00 then lowUnit unit
      else return Char.ofNat unit
    | _ => throw .malformed

/-- Takes the characters of a string up to the closing quote, newest first; `fuel` bounds their number. -/
def stringChars (kept : Bool) : Nat → List Char → Scan (List Char)
  | 0, _ => throw .truncated
  | fuel + 1, taken => do
    match ← get with
    | [] => throw .truncated
    | c :: rest =>
      set rest
      if c = '"' then return taken
      else if c = '\\' then stringChars kept fuel ((← escaped kept) :: taken)
      else if c.toNat < 0x20 then throw .malformed
      else stringChars kept fuel (c :: taken)

def string : Scan String := do
  expect '"'
  return String.ofList (← stringChars true ((← get).length + 1) []).reverse

def skipString : Scan Unit := do
  expect '"'
  let _ ← stringChars false ((← get).length + 1) []

end Json

end BehaviorTree
