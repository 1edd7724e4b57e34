import BehaviorTree.Json.Scanner
import BehaviorTree.Yaml.Cursor

/-!
Scalars as they are written: plain, in single quotes and in double quotes. Each may go over several lines, which are
folded into one.
-/

namespace BehaviorTree
set_option autoImplicit false

namespace Yaml

/-- White space inside a scalar: the blanks before its first break, newest first, and the number of breaks. -/
structure Gap where
  blanks : List Char := []
  breaks : Nat := 0

/-- What white space stands for: blanks within a line for themselves, a single break for a space, and more than one
for a line feed each after the first. -/
def Gap.folded (gap : Gap) : List Char :=
  match gap.breaks with
  | 0 => gap.blanks
  | 1 => [' ']
  | n + 2 => List.replicate (n + 1) '\n'

/-- Takes white space. Behind a break no tab may stand left of column `indent`. -/
def takeGap (indent : Nat) : Nat → Gap → Read Gap
  | 0, gap => return gap
  | fuel + 1, gap => do
    match ← ahead 0 with
    | none => return gap
    | some c =>
      if isBreak c then
        takeBreak
        takeGap indent fuel { gap with breaks := gap.breaks + 1 }
      else if isBlank c then
        if gap.breaks = 0 then
          advance
          takeGap indent fuel { gap with blanks := c :: gap.blanks }
        else if c = '\t' && (← get).column < indent then failure
        else
          advance
          takeGap indent fuel gap
      else return gap

/-- Whether a plain scalar does not go on with a character that `next` follows. A colon ends it only before a gap, and
before a flow mark in a flow collection. -/
def endsPlain (flow : Bool) (c : Char) (next : Option Char) : Bool :=
  isGap (some c) || flow && isFlowMark c || c = ':' && (isGap next || flow && next.any isFlowMark)

def plainWord (flow : Bool) : Nat → List Char → Read (List Char)
  | 0, taken => return taken
  | fuel + 1, taken => do
    match ← ahead 0 with
    | none => return taken
    | some c =>
      if endsPlain flow c (← ahead 1) then return taken
      else
        advance
        plainWord flow fuel (c :: taken)

/-- Takes the words of a plain scalar behind what is taken, newest character first, and behind a gap. In a block its
further lines stand at column `indent` or farther right; they may start with any character except a number sign. Gives
also the gap behind the last word. -/
def plainWords (flow : Bool) (indent : Nat) : Nat → List Char → Gap → Read (List Char × Gap)
  | 0, taken, gap => return (taken, gap)
  | fuel + 1, taken, gap => do
    if (← atMarker) || (← ahead 0) = some '#' then return (taken, gap)
    else
      let word ← plainWord flow fuel []
      let (taken, gap) := if word.isEmpty then (taken, gap) else (word ++ gap.folded ++ taken, {})
      if (← ahead 0).any fun c => isGap (some c) then
        let gap ← takeGap indent fuel gap
        if !flow && (← get).column < indent then return (taken, gap)
        else plainWords flow indent fuel taken gap
      else return (taken, gap)

/-- Takes a plain scalar and the gap behind it; says whether there is a break in the gap. -/
def plainScalar (flow : Bool) (indent : Nat) : Read (String × Bool) := do
  let (taken, gap) ← plainWords flow indent ((← get).text.length + 1) [] {}
  return (String.ofList taken.reverse, gap.breaks ≠ 0)

def hexChar : Nat → Nat → Read Char
  | 0, n => if n.isValidChar then return Char.ofNat n else failure
  | count + 1, n => do
    match (← ahead 0).bind Json.hexValue? with
    | some d =>
      advance
      hexChar count (n * 16 + d)
    | none => failure

/-- Takes what follows a backslash in double quotes, a line break apart. -/
def escape : Read Char := do
  let some c ← ahead 0 | failure
  advance
  match c with
  | '0' => return '\x00'
  | 'a' => return '\x07'
  | 'b' => return '\x08'
  | 't' | '\t' => return '\t'
  | 'n' => return '\n'
  | 'v' => return '\x0b'
  | 'f' => return '\x0c'
  | 'r' => return '\r'
  | 'e' => return '\x1b'
  | ' ' => return ' '
  | '"' => return '"'
  | '\'' => return '\''
  | '\\' => return '\\'
  | 'N' => return Char.ofNat 0x85
  | '_' => return Char.ofNat 0xa0
  | 'L' => return Char.ofNat 0x2028
  | 'P' => return Char.ofNat 0x2029
  | 'x' => hexChar 2 0
  | 'u' => hexChar 4 0
  | 'U' => hexChar 8 0
  | _ => failure

/-- Takes the rest of a quoted scalar with its closing quote, newest character first. A quote is written twice inside
single quotes. Behind an escaped break the breaks that follow are line feeds, and no document may start or end. -/
def quotedChars (quote : Char) : Nat → List Char → Read (List Char)
  | 0, _ => failure
  | fuel + 1, taken => do
    let some c ← ahead 0 | failure
    if ← atMarker then failure
    else if c = quote then
      advance
      if quote = '\'' && (← ahead 0) = some '\'' then
        advance
        quotedChars quote fuel ('\'' :: taken)
      else return taken
    else if isGap (some c) then
      let gap ← takeGap 0 fuel {}
      quotedChars quote fuel (gap.folded ++ taken)
    else
      advance
      if c = '\\' && quote = '"' then
        if (← ahead 0).any isBreak then
          let gap ← takeGap 0 fuel {}
          quotedChars quote fuel (List.replicate (gap.breaks - 1) '\n' ++ taken)
        else quotedChars quote fuel ((← escape) :: taken)
      else quotedChars quote fuel (c :: taken)

def quotedScalar : Read String := do
  let some quote ← ahead 0 | failure
  advance
  return String.ofList (← quotedChars quote ((← get).text.length + 1) []).reverse

end Yaml

end BehaviorTree
