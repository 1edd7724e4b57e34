import BehaviorTree.Json.Scanner

/-!
Reading whole values, at most `127` arrays and objects deep, and passing over values that nobody asked for.
-/

namespace BehaviorTree
set_option autoImplicit false

namespace Json

/-- How many arrays and objects may enclose a value, plus one. -/
def depthLimit : Nat := 128

def descend (depth : Nat) : Scan Nat :=
  if depth ≤ 1 then throw .malformed else return depth - 1

/-- Whether another item follows in a sequence that ends with `close`; takes the comma before it. -/
def another (close : Char) (first : Bool) : Scan Bool := do
  let c ← peekChar
  if c = close then return false
  else if first then return true
  else if c = ',' then
    skip
    if (← peekChar) = close then throw .malformed else return true
  else throw .malformed

/-- Whether another member follows in an object; takes the comma before it and requires a quote. -/
def anotherKey (first : Bool) : Scan Bool := do
  if ← another '\x7d' first then
    if (← peekChar) = '"' then return true else throw .malformed
  else return false

mutual
/-- Takes a value; `fuel` bounds the steps and `depth` the nesting. -/
def value : Nat → Nat → Scan Value
  | 0, _ => throw .malformed
  | fuel + 1, depth => do
    let c ← peekChar
    match c with
    | 'n' => word ['n', 'u', 'l', 'l']; return .null
    | 't' => word ['t', 'r', 'u', 'e']; return .bool true
    | 'f' => word ['f', 'a', 'l', 's', 'e']; return .bool false
    | '"' => return .string (← string)
    | '[' =>
      let depth ← descend depth
      skip
      let taken ← items fuel depth true []
      expect ']'
      return .array taken.reverse
    | '\x7b' =>
      let depth ← descend depth
      skip
      let taken ← members fuel depth true []
      expect '\x7d'
      return .object taken
    | c =>
      if c = '-' || c.isDigit then
        let n ← numeral .truncated
        liftM n.value
      else throw .malformed

def items : Nat → Nat → Bool → List Value → Scan (List Value)
  | 0, _, _, _ => throw .malformed
  | fuel + 1, depth, first, taken => do
    if ← another ']' first then
      let v ← value fuel depth
      items fuel depth false (v :: taken)
    else return taken

/-- Takes the members of an object, the last of several with one name standing for all. -/
def members : Nat → Nat → Bool → Fields → Scan Fields
  | 0, _, _, _ => throw .malformed
  | fuel + 1, depth, first, taken => do
    if ← anotherKey first then
      let key ← string
      expect ':'
      let v ← value fuel depth
      members fuel depth false (taken.insert key v)
    else return taken
end

mutual
/-- Passes over a value of any depth; `fuel` bounds the steps. -/
def skipValue : Nat → Scan Unit
  | 0 => throw .malformed
  | fuel + 1 => do
    let c ← peekChar
    match c with
    | 'n' => word ['n', 'u', 'l', 'l']
    | 't' => word ['t', 'r', 'u', 'e']
    | 'f' => word ['f', 'a', 'l', 's', 'e']
    | '"' => skipString
    | '[' => skip; skipItems fuel true; expect ']'
    | '\x7b' => skip; skipMembers fuel true; expect '\x7d'
    | c =>
      if c = '-' || c.isDigit then
        let _ ← numeral .malformed
      else throw .malformed

def skipItems : Nat → Bool → Scan Unit
  | 0, _ => throw .malformed
  | fuel + 1, first => do
    if ← another ']' first then
      skipValue fuel
      skipItems fuel false

def skipMembers : Nat → Bool → Scan Unit
  | 0, _ => throw .malformed
  | fuel + 1, first => do
    if ← anotherKey first then
      skipString
      expect ':'
      skipValue fuel
      skipMembers fuel false
end

/-- A bound on the steps that reading the rest of the text can take. -/
def steps : Scan Nat := return 2 * (← get).length + 2

def parse (text : String) : Except Problem Value := do
  let read : Scan Value := do
    let v ← value (← steps) depthLimit
    finish
    return v
  return (← read.run text.toList).1

end Json

end BehaviorTree
