import BehaviorTree.Expr.Error
import BehaviorTree.Text.Blank
import BehaviorTree.Text.Width
import BehaviorTree.Decimal

/-!
The spelled tokens of the expression language. `Lexeme.read?` takes the longest token of the first class that
fits, `tokenize` reads a whole text, and `Lexeme.spelling` writes a token back.
-/

namespace BehaviorTree
set_option autoImplicit false

inductive Operator where
  | dot
  | less
  | lessEq
  | equal
  | greater
  | greaterEq
  | add
  | sub
  | mul
  | div
  deriving DecidableEq, Repr

namespace Operator

/-- Loosest first: comparisons, sums, products, field access. -/
def precedence : Operator → Nat
  | less | lessEq | equal | greater | greaterEq => 1
  | add | sub => 2
  | mul | div => 3
  | dot => 4

def spelling : Operator → List Char
  | dot => ['.']
  | less => ['<']
  | lessEq => ['<', '=']
  | equal => ['=', '=']
  | greater => ['>']
  | greaterEq => ['>', '=']
  | add => ['+']
  | sub => ['-']
  | mul => ['*']
  | div => ['/']

/-- The operator at the start of a text, a two-character comparison before its first character alone. -/
def read? : List Char → Option (Operator × List Char)
  | '<' :: '=' :: rest => some (lessEq, rest)
  | '>' :: '=' :: rest => some (greaterEq, rest)
  | '=' :: '=' :: rest => some (equal, rest)
  | '<' :: rest => some (less, rest)
  | '>' :: rest => some (greater, rest)
  | '+' :: rest => some (add, rest)
  | '-' :: rest => some (sub, rest)
  | '*' :: rest => some (mul, rest)
  | '/' :: rest => some (div, rest)
  | '.' :: rest => some (dot, rest)
  | _ => none

theorem length_read?_lt {text rest : List Char} {op : Operator} (h : read? text = some (op, rest)) :
    rest.length < text.length := by
  unfold read? at h
  split at h <;> cases h <;> simp only [List.length_cons] <;> omega

end Operator

/-- A token as it is spelled. -/
inductive Lexeme where
  /-- Digits, with or without a point and more digits. -/
  | numeral (whole : List Char) (fraction : Option (List Char))
  /-- Text between two quotes of one kind. -/
  | literal (quote : Char) (body : List Char)
  | identifier (chars : List Char)
  | operator (op : Operator)
  | openParen
  | closeParen
  deriving DecidableEq, Repr

namespace Lexeme

def isIdentifierStart (c : Char) : Bool := c.isAlpha || c = '_'

def isIdentifierPart (c : Char) : Bool := c.isAlphanum || c = '_'

def spelling : Lexeme → List Char
  | numeral whole none => whole
  | numeral whole (some fraction) => whole ++ '.' :: fraction
  | literal quote body => quote :: body ++ [quote]
  | identifier chars => chars
  | operator op => op.spelling
  | openParen => ['(']
  | closeParen => [')']

def readNumeral? (text : List Char) : Option (Lexeme × List Char) :=
  let whole := text.takeWhile Char.isDigit
  let rest := text.dropWhile Char.isDigit
  if whole.isEmpty then none
  else
    match rest with
    | '.' :: after =>
      let fraction := after.takeWhile Char.isDigit
      if fraction.isEmpty then some (numeral whole none, rest)
      else some (numeral whole (some fraction), after.dropWhile Char.isDigit)
    | _ => some (numeral whole none, rest)

/-- A quote, everything up to the next quote of its kind, and that quote. -/
def readLiteral? : List Char → Option (Lexeme × List Char)
  | [] => none
  | quote :: text =>
    if quote = '"' || quote = '\'' then
      match text.dropWhile (· != quote) with
      | [] => none
      | _ :: rest => some (literal quote (text.takeWhile (· != quote)), rest)
    else none

def readIdentifier? : List Char → Option (Lexeme × List Char)
  | [] => none
  | c :: text =>
    if isIdentifierStart c then
      some (identifier (c :: text.takeWhile isIdentifierPart), text.dropWhile isIdentifierPart)
    else none

def readParen? : List Char → Option (Lexeme × List Char)
  | '(' :: rest => some (openParen, rest)
  | ')' :: rest => some (closeParen, rest)
  | _ => none

def read? (text : List Char) : Option (Lexeme × List Char) :=
  readNumeral? text <|> readLiteral? text <|> readIdentifier? text
    <|> (Operator.read? text).map (fun (op, rest) => (operator op, rest)) <|> readParen? text

theorem length_dropWhile_le (p : Char → Bool) (text : List Char) :
    (text.dropWhile p).length ≤ text.length :=
  (List.dropWhile_sublist p).length_le

theorem length_dropWhile_lt {p : Char → Bool} {text : List Char}
    (h : (text.takeWhile p).isEmpty = false) : (text.dropWhile p).length < text.length := by
  cases text with
  | nil => simp at h
  | cons c text =>
    have hc : p c = true := by
      cases hc : p c with
      | true => rfl
      | false => simp [hc] at h
    rw [List.dropWhile_cons_of_pos hc, List.length_cons]
    exact Nat.lt_succ_of_le (length_dropWhile_le p text)

theorem length_readNumeral?_lt {text rest : List Char} {l : Lexeme}
    (h : readNumeral? text = some (l, rest)) : rest.length < text.length := by
  simp only [readNumeral?] at h
  split at h
  · simp at h
  · rename_i hne
    have hlt := length_dropWhile_lt (Bool.eq_false_iff.mpr hne)
    split at h
    · rename_i after heq
      split at h
      · cases h; exact hlt
      · cases h
        have := length_dropWhile_le Char.isDigit after
        rw [heq, List.length_cons] at hlt
        omega
    · cases h; exact hlt

theorem length_readLiteral?_lt {text rest : List Char} {l : Lexeme}
    (h : readLiteral? text = some (l, rest)) : rest.length < text.length := by
  cases text with
  | nil => simp [readLiteral?] at h
  | cons quote text =>
    simp only [readLiteral?] at h
    split at h
    · split at h
      · simp at h
      · rename_i c tail heq
        cases h
        have := length_dropWhile_le (· != quote) text
        rw [heq, List.length_cons] at this
        simp only [List.length_cons]
        omega
    · simp at h

theorem length_readIdentifier?_lt {text rest : List Char} {l : Lexeme}
    (h : readIdentifier? text = some (l, rest)) : rest.length < text.length := by
  cases text with
  | nil => simp [readIdentifier?] at h
  | cons c text =>
    simp only [readIdentifier?] at h
    split at h
    · cases h
      have := length_dropWhile_le isIdentifierPart text
      simp only [List.length_cons]
      omega
    · simp at h

theorem length_readParen?_lt {text rest : List Char} {l : Lexeme}
    (h : readParen? text = some (l, rest)) : rest.length < text.length := by
  unfold readParen? at h
  split at h <;> cases h <;> simp

theorem length_read?_lt {text rest : List Char} {l : Lexeme}
    (h : read? text = some (l, rest)) : rest.length < text.length := by
  simp only [read?, Option.orElse_eq_orElse, Option.orElse_eq_or, Option.or_eq_some_iff,
    Option.map_eq_some_iff] at h
  rcases h with h | ⟨_, h | ⟨_, h | ⟨_, ⟨p, hp, heq⟩ | ⟨_, h⟩⟩⟩⟩
  · exact length_readNumeral?_lt h
  · exact length_readLiteral?_lt h
  · exact length_readIdentifier?_lt h
  · cases heq; exact Operator.length_read?_lt hp
  · exact length_readParen?_lt h

end Lexeme

/-- A token of an expression. -/
inductive Token where
  | number (x : Float)
  | text (s : String)
  | name (s : String)
  | operator (op : Operator)
  | openParen
  | closeParen
  deriving DecidableEq

/-- What a spelled token stands for. -/
def Lexeme.token : Lexeme → Token
  | numeral whole fraction =>
    let fraction := fraction.getD []
    let digits := (whole ++ fraction).foldl (fun n c => n * 10 + (c.toNat - '0'.toNat)) 0
    .number (Decimal.nearest ⟨digits, -fraction.length⟩)
  | literal _ body => .text (String.ofList body)
  | identifier chars => .name (String.ofList chars)
  | operator op => .operator op
  | openParen => .openParen
  | closeParen => .closeParen

/-- Reads tokens and the blanks after each to the end of a text that starts at a byte offset. Where no token
starts, the offset is the error. -/
def lexemesFrom (offset : Nat) (text : List Char) : Except Nat (List (Nat × Lexeme)) :=
  if text.isEmpty then .ok []
  else
    match _h : Lexeme.read? text with
    | none => .error offset
    | some (l, after) =>
      let size := byteCount l.spelling + byteCount (after.takeWhile isTokenBlank)
      match lexemesFrom (offset + size) (after.dropWhile isTokenBlank) with
      | .ok tail => .ok ((offset, l) :: tail)
      | .error e => .error e
termination_by text.length
decreasing_by
  have := Lexeme.length_read?_lt _h
  have := Lexeme.length_dropWhile_le isTokenBlank after
  omega

/-- The tokens of a text with the byte offsets at which they start. White space of any kind may come first. -/
def tokenize (code : String) : Except ExprError (List (Nat × Token)) :=
  let start := byteCount (code.toList.takeWhile isWhiteSpace)
  match lexemesFrom start (code.toList.dropWhile isWhiteSpace) with
  | .ok lexemes => .ok (lexemes.map fun (offset, l) => (offset, l.token))
  | .error offset => .error (.invalid code offset .unexpectedCharacter)

end BehaviorTree
