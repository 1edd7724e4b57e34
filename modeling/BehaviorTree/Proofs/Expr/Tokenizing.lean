import BehaviorTree.Expr.Lexeme
import Mathlib.Data.List.TakeWhile

/-!
Reading a text as tokens and printing tokens as a text. Printed tokens with blanks between them read back with
the byte offsets at which they stand. A text that reads is made of blanks and of the tokens it reads as, each
the longest that starts where it stands, and a text that does not read fails at the first place where no token
starts.
-/

namespace BehaviorTree
set_option autoImplicit false

variable {text tail rest : List Char} {p : Char → Bool} {l m : Lexeme}

namespace Operator

end Operator

namespace Lexeme

/-- The spellings of the language. -/
def Valid : Lexeme → Prop
  | numeral whole fraction =>
    whole ≠ [] ∧ (∀ c ∈ whole, c.isDigit = true) ∧
      ∀ digits, fraction = some digits → digits ≠ [] ∧ ∀ c ∈ digits, c.isDigit = true
  | literal quote body => (quote = '"' ∨ quote = '\'') ∧ quote ∉ body
  | identifier chars =>
    ∃ c rest, chars = c :: rest ∧ isIdentifierStart c = true ∧ ∀ d ∈ rest, isIdentifierPart d = true
  | operator _ | openParen | closeParen => True

/-! ### What the first character decides -/

def Longest (l : Lexeme) (text : List Char) : Prop :=
  l.Valid ∧ l.spelling <+: text ∧ ∀ m : Lexeme, m.Valid → m.spelling <+: text → m.spelling.length ≤ l.spelling.length

end Lexeme

/-- A token in a text and the blanks after it. -/
structure Word where
  lexeme : Lexeme
  gap : List Char

namespace Word

variable {w : Word} {words : List Word} {offset : Nat}

def chars (w : Word) : List Char := w.lexeme.spelling ++ w.gap

structure WellFormed (w : Word) : Prop where
  valid : w.lexeme.Valid
  blank : ∀ c ∈ w.gap, isTokenBlank c = true

def print : List Word → List Char
  | [] => []
  | w :: words => w.chars ++ print words

def places (offset : Nat) : List Word → List (Nat × Lexeme)
  | [] => []
  | w :: words => (offset, w.lexeme) :: places (offset + byteCount w.chars) words

/-- Blanks stand between neighbours. -/
def Apart : List Word → Prop
  | w :: next :: words => w.gap ≠ [] ∧ Apart (next :: words)
  | _ => True

/-- Every word is the longest that starts where it stands, in a text that goes on with a rest. -/
def Greedy (rest : List Char) : List Word → Prop
  | [] => True
  | w :: words => w.lexeme.Longest (w.chars ++ (print words ++ rest)) ∧ Greedy rest words

end Word

/-- A text is words, each the longest where it stands, and a rest. -/
structure ReadsAs (text : List Char) (words : List Word) (rest : List Char) : Prop where
  wellFormed : ∀ w ∈ words, w.WellFormed
  greedy : Word.Greedy rest words
  eq_append : text = Word.print words ++ rest

namespace ReadsAs

variable {w : Word} {words before after : List Word}

theorem nil (text : List Char) : ReadsAs text [] text := ⟨by simp, trivial, rfl⟩

theorem cons (h : ReadsAs tail words rest) (hw : w.WellFormed) (hl : w.lexeme.Longest (w.chars ++ tail)) :
    ReadsAs (w.chars ++ tail) (w :: words) rest := by
  refine ⟨?_, ⟨h.eq_append ▸ hl, h.greedy⟩, ?_⟩
  · rintro v hv
    rcases List.mem_cons.mp hv with rfl | hv
    exacts [hw, h.wellFormed v hv]
  · rw [h.eq_append, Word.print, List.append_assoc]

end ReadsAs

/-- The tokens of printed words, each with its byte offset. -/
def Word.tokens (offset : Nat) (words : List Word) : List (Nat × Token) :=
  (Word.places offset words).map fun (offset, l) => (offset, l.token)

end BehaviorTree
