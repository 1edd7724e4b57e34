import BehaviorTree.Text.Unprintable

/-!
Text in double quotes, as error messages show it: quotes and backslashes are escaped, tab, line feed, carriage
return and NUL have short forms, and every other unprintable character is written by its code point.
-/

namespace BehaviorTree
set_option autoImplicit false

namespace Quoted

/-- The digits of a number in base sixteen, in lower case. -/
def hex (n : Nat) : List Char := Nat.toDigits 16 n

def escape (c : Char) : List Char :=
  match c with
  | '"' => ['\\', '"']
  | '\\' => ['\\', '\\']
  | '\t' => ['\\', 't']
  | '\n' => ['\\', 'n']
  | '\r' => ['\\', 'r']
  | '\x00' => ['\\', '0']
  | _ => if isUnprintable c then ['\\', 'u', '\x7b'] ++ hex c.toNat ++ ['\x7d'] else [c]

end Quoted

def quoted (s : String) : String :=
  String.ofList ('"' :: s.toList.flatMap Quoted.escape ++ ['"'])

end BehaviorTree
