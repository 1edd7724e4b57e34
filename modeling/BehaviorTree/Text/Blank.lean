/-!
White space in the sense of the Unicode property, and the narrower blanks that separate tokens.
-/

namespace BehaviorTree
set_option autoImplicit false

/-- A character with the Unicode property `White_Space`. -/
def isWhiteSpace (c : Char) : Bool :=
  let n := c.toNat
  (0x09 ≤ n && n ≤ 0x0d) || n = 0x20 || n = 0x85 || n = 0xa0 || n = 0x1680 || (0x2000 ≤ n && n ≤ 0x200a)
    || n = 0x2028 || n = 0x2029 || n = 0x202f || n = 0x205f || n = 0x3000

/-- Space, tab, carriage return or line feed. -/
def isTokenBlank (c : Char) : Bool := c = ' ' || c = '\t' || c = '\r' || c = '\n'

end BehaviorTree
