import BehaviorTree.Value
import BehaviorTree.Decimal

/-!
The compact text of a value: no blanks, fields in their order, and the fewest digits that read back.
-/

namespace BehaviorTree
set_option autoImplicit false

namespace Json

private def hexPair (n : Nat) : List Char :=
  [Nat.digitChar (n / 16), Nat.digitChar (n % 16)]

def escape (c : Char) : List Char :=
  match c with
  | '"' => ['\\', '"']
  | '\\' => ['\\', '\\']
  | '\x08' => ['\\', 'b']
  | '\x0c' => ['\\', 'f']
  | '\n' => ['\\', 'n']
  | '\r' => ['\\', 'r']
  | '\t' => ['\\', 't']
  | _ => if c.toNat < 0x20 then ['\\', 'u', '0', '0'] ++ hexPair c.toNat else [c]

def stringText (s : String) : String :=
  String.ofList ('"' :: s.toList.flatMap escape ++ ['"'])

end Json

namespace Value

mutual
/-- The compact text of a value. -/
def text : Value → String
  | .null => "null"
  | .bool b => if b then "true" else "false"
  | .int n => toString n
  | .float x => (Decimal.floatText? x).getD "null"
  | .string s => Json.stringText s
  | .array items => "[" ++ String.intercalate "," (itemTexts items) ++ "]"
  | .object fields => "\x7b" ++ String.intercalate "," (fieldTexts fields) ++ "\x7d"

def itemTexts : List Value → List String
  | [] => []
  | v :: rest => v.text :: itemTexts rest

def fieldTexts : List (String × Value) → List String
  | [] => []
  | (k, v) :: rest => (Json.stringText k ++ ":" ++ v.text) :: fieldTexts rest
end

end Value

end BehaviorTree
