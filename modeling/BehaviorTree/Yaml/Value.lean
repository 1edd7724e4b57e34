import BehaviorTree.Yaml.Node

/-!
What nodes stand for where a value of any type may stand. A plain scalar is null, a boolean, an integer in one of
four bases, a float, or otherwise text.
-/

namespace BehaviorTree
set_option autoImplicit false

namespace Yaml

def depthLimit : Nat := 128

/-- The bits of an integer, and those that a number may have without being a float. -/
def intBits : Nat := 64

def wideBits : Nat := 128

def digitsIn (base : Nat) (cs : List Char) : Option Nat :=
  if cs.isEmpty then none
  else cs.foldlM (fun n c => (Json.hexValue? c).bind fun d => if d < base then some (n * base + d) else none) 0

def splitSign : List Char → Bool × List Char
  | '-' :: rest => (true, rest)
  | '+' :: rest => (false, rest)
  | cs => (false, cs)

def based? : List Char → Option (Nat × List Char)
  | '0' :: 'x' :: ds => some (16, ds)
  | '0' :: 'o' :: ds => some (8, ds)
  | '0' :: 'b' :: ds => some (2, ds)
  | _ => none

/-- Whether an integer has a number of bits, among them a sign if it is negative. -/
def fits (bits : Nat) (n : Int) : Bool := -(Nat.pow 2 (bits - 1) : Int) ≤ n && n < (Nat.pow 2 bits : Int)

/-- An integer in a base that is named, if it fits. Without a minus a plus may come before the digits. -/
def basedInt? (cs : List Char) : Option Int := do
  let (negative, magnitude) := splitSign cs
  let (base, ds) ← based? magnitude
  let n ← digitsIn base (if !negative && ds.head? = some '+' then ds.drop 1 else ds)
  let n : Int := if negative then -n else n
  if fits intBits n then some n else none

def decimalInt? (cs : List Char) : Option Int := do
  let (negative, ds) := splitSign cs
  let n ← digitsIn 10 ds
  some (if negative then -n else n)

def isPadded (cs : List Char) : Bool :=
  match (splitSign cs).2 with
  | '0' :: rest => !rest.isEmpty && rest.all Char.isDigit
  | _ => false

/-- Digits with a point among or around them, and an exponent. It must not be infinite. -/
def float? (cs : List Char) : Option Float := do
  let (negative, cs) := splitSign cs
  let whole := cs.takeWhile Char.isDigit
  let rest := cs.dropWhile Char.isDigit
  let (fraction, rest) :=
    match rest with
    | '.' :: rest => (rest.takeWhile Char.isDigit, rest.dropWhile Char.isDigit)
    | rest => ([], rest)
  let exponent ←
    match rest with
    | [] => some 0
    | c :: rest =>
      if c = 'e' || c = 'E' then do
        let (negative, ds) := splitSign rest
        let n ← digitsIn 10 ds
        let n : Int := min n Json.exponentLimit
        some (if negative then -n else n)
      else none
  let digits ← digitsIn 10 (whole ++ fraction)
  let x := Decimal.nearest ⟨digits, exponent - fraction.length⟩
  if (Binary64.ofFloat? x).isSome then some (if negative then -x else x) else none

/-- Whether a text is a name of infinity or of no number, which no value holds. -/
def isNonFinite (text : String) : Bool :=
  let names := [".inf", ".Inf", ".INF"]
  names.contains (String.ofList (text.toList.dropWhile (· = '+'))) || (names.map ("-" ++ ·)).contains text
    || [".nan", ".NaN", ".NAN"].contains text

def otherValue (text : String) : Value :=
  if isNonFinite text then .null
  else
    match float? text.toList with
    | some x => .float x
    | none => .string text

/-- The value of a plain scalar; none for an integer that does not fit, unless it is so wide that it counts as a
float. -/
def plainValue (text : String) : Option Value :=
  let cs := text.toList
  if text = "~" || text = "null" then some .null
  else if text = "true" then some (.bool true)
  else if text = "false" then some (.bool false)
  else
    match basedInt? cs with
    | some n => some (.int n)
    | none =>
      if isPadded cs then some (.string text)
      else
        match decimalInt? cs with
        | some n =>
          if fits intBits n then some (.int n) else if fits wideBits n then none else some (otherValue text)
        | none => some (otherValue text)

mutual
/-- A node as a value: plain scalars by what they stand for, and mappings with scalar keys. At most `depth` sequences
and mappings may lie within each other. -/
def Node.value (depth : Nat) : Node → Option Value
  | .scalar true text => plainValue text
  | .scalar false text => some (.string text)
  | .sequence items =>
    match depth with
    | 0 => none
    | depth + 1 => (itemValues depth items).map .array
  | .mapping entries =>
    match depth with
    | 0 => none
    | depth + 1 => (entryValues depth entries).map fun pairs => .object (Fields.ofList pairs)

def itemValues (depth : Nat) : List Node → Option (List Value)
  | [] => some []
  | node :: rest => do
    let v ← node.value depth
    let vs ← itemValues depth rest
    some (v :: vs)

def entryValues (depth : Nat) : List (Node × Node) → Option (List (String × Value))
  | [] => some []
  | (key, node) :: rest =>
    match key with
    | .scalar _ name => do
      let v ← node.value depth
      let pairs ← entryValues depth rest
      some ((name, v) :: pairs)
    | _ => none
end

end Yaml

end BehaviorTree
