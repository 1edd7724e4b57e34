/-!
How many bytes a text takes. Offsets in a text count bytes, not characters.
-/

namespace BehaviorTree
set_option autoImplicit false

/-- The number of bytes that characters take in UTF-8. -/
def byteCount : List Char → Nat
  | [] => 0
  | c :: rest => c.utf8Size + byteCount rest

end BehaviorTree
