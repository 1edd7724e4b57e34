import BehaviorTree.Binary64

/-!
The dynamic values that variables, arguments and events carry. Integers and floats are different values, an
integer is at least `-2 ^ 63` and below `2 ^ 64`, a float is finite, and the fields of an object ascend by key.
-/

namespace BehaviorTree
set_option autoImplicit false

inductive Value where
  | null
  | bool (b : Bool)
  | int (n : Int)
  | float (x : Float)
  | string (s : String)
  | array (items : List Value)
  | object (fields : List (String × Value))
  deriving Inhabited

abbrev Fields := List (String × Value)

namespace Value

mutual
/-- Structural equality, in which an integer never equals a float and floats compare as numbers. -/
def beq : Value → Value → Bool
  | .null, .null => true
  | .bool a, .bool b => a == b
  | .int a, .int b => a == b
  | .float a, .float b => a == b
  | .string a, .string b => a == b
  | .array a, .array b => beqItems a b
  | .object a, .object b => beqFields a b
  | _, _ => false

def beqItems : List Value → List Value → Bool
  | [], [] => true
  | a :: as, b :: bs => a.beq b && beqItems as bs
  | _, _ => false

def beqFields : List (String × Value) → List (String × Value) → Bool
  | [], [] => true
  | (j, a) :: as, (k, b) :: bs => j == k && a.beq b && beqFields as bs
  | _, _ => false
end

instance : BEq Value := ⟨beq⟩

/-- The number that a value holds, rounded to the nearest double. -/
def asFloat? : Value → Option Float
  | .int n => some (Binary64.nearestInt n)
  | .float x => some x
  | _ => none

def asNat? : Value → Option Nat
  | .int n => if 0 ≤ n then some n.toNat else none
  | _ => none

def asString? : Value → Option String
  | .string s => some s
  | _ => none

def asArray? : Value → Option (List Value)
  | .array items => some items
  | _ => none

def asObject? : Value → Option Fields
  | .object fields => some fields
  | _ => none

/-- A float as a value; the infinities and NaN have no value and become null. -/
def ofFloat (x : Float) : Value :=
  if (Binary64.ofFloat? x).isSome then .float x else .null

/-- Integers stay below this bound. -/
def intLimit : Nat := Nat.pow 2 64

/-- The magnitude of the least integer. -/
def negativeLimit : Nat := Nat.pow 2 63

def maxExactInt : Nat := Nat.pow 2 53 - 1

/-- The result of arithmetic as a value: whole numbers that doubles count exactly become integers, so that they
equal integer literals. -/
def ofNumber (x : Float) : Value :=
  match (Binary64.ofFloat? x).bind Binary64.toInt? with
  | some n => if n.natAbs ≤ maxExactInt then .int n else ofFloat x
  | none => ofFloat x

/-- Null, false, zero and the empty string are not truthy; everything else is. -/
def isTruthy : Value → Bool
  | .null => false
  | .bool b => b
  | .int n => n != 0
  | .float x => x != 0.0
  | .string s => s != ""
  | .array _ => true
  | .object _ => true

/-- Equality of the expression language: two numbers compare as doubles, anything else structurally. -/
def looseEq (a b : Value) : Bool :=
  match a.asFloat?, b.asFloat? with
  | some x, some y => x == y
  | _, _ => a == b

end Value

namespace Fields

/-- The value of a name. -/
def get? (fields : Fields) (key : String) : Option Value :=
  match fields with
  | [] => none
  | (k, v) :: rest => if k = key then some v else get? rest key

def insert (fields : Fields) (key : String) (value : Value) : Fields :=
  match fields with
  | [] => [(key, value)]
  | (k, v) :: rest =>
    if k = key then (key, value) :: rest
    else if key < k then (key, value) :: (k, v) :: rest
    else (k, v) :: insert rest key value

theorem get?_insert (fields : Fields) (name key : String) (value : Value) :
    (fields.insert name value).get? key = if name = key then some value else fields.get? key := by
  induction fields with
  | nil => rfl
  | cons first rest ih =>
    obtain ⟨k, v⟩ := first
    simp only [insert]
    split
    · rename_i hk
      subst hk
      by_cases h : k = key <;> simp [get?, h]
    · rename_i hk
      split
      · rfl
      · simp only [get?, ih]
        by_cases h : k = key
        · subst h
          simp [Ne.symm hk]
        · simp [h]

/-- Fields in any order, a later one replacing an earlier one of the same name. -/
def ofList (pairs : List (String × Value)) : Fields :=
  pairs.foldl (fun fields (key, value) => fields.insert key value) []

end Fields

end BehaviorTree
