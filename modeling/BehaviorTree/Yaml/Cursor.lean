/-!
A place in a text, what lies ahead of it, and the classes of characters that YAML tells apart.
-/

namespace BehaviorTree
set_option autoImplicit false

namespace Yaml

/-- The rest of a text, how many characters and line feeds lie behind it, and the column where it starts. -/
structure Cursor where
  text : List Char
  index : Nat := 0
  line : Nat := 0
  column : Nat := 0

/-- The place behind the next character. Only a line feed starts a line. -/
def Cursor.next (c : Cursor) : Cursor :=
  match c.text with
  | [] => c
  | '\n' :: rest => ⟨rest, c.index + 1, c.line + 1, 0⟩
  | _ :: rest => ⟨rest, c.index + 1, c.line, c.column + 1⟩

abbrev Read := StateT Cursor Option

/-- The character `n` places ahead. -/
def ahead (n : Nat) : Read (Option Char) := return (← get).text[n]?

def advance : Read Unit := modify Cursor.next

def isBreak (c : Char) : Bool := c = '\n' || c = '\r'

def isBlank (c : Char) : Bool := c = ' ' || c = '\t'

def isGap (c : Option Char) : Bool := c.all fun c => isBlank c || isBreak c

def isFlowMark (c : Char) : Bool := c = ',' || c = '[' || c = ']' || c = '\x7b' || c = '\x7d'

/-- Whether a line starts here with three of the given characters and a gap, which parts documents. -/
def Cursor.isMarker (c : Cursor) (mark : Char) : Bool :=
  c.column = 0 && c.text.take 3 = [mark, mark, mark] && isGap c.text[3]?

def atMarker : Read Bool := return (← get).isMarker '-' || (← get).isMarker '.'

/-- Takes a line break. A carriage return and the line feed behind it are one. -/
def takeBreak : Read Unit := do
  if (← ahead 0) = some '\r' && (← ahead 1) = some '\n' then advance
  advance

def skipLine : Nat → Read Unit
  | 0 => return
  | fuel + 1 => do
    if (← ahead 0).any fun c => !isBreak c then
      advance
      skipLine fuel

end Yaml

end BehaviorTree
