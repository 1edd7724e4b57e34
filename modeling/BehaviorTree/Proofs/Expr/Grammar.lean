import BehaviorTree.Expr.Instruction

/-!
The grammar of expressions. A phrase derives a token list together with its parse tree: comparisons of sums of
products of paths, every operator associating to the left, and a path a primary followed by field names.
-/

namespace BehaviorTree
set_option autoImplicit false

/-- The operators that stand between two expressions: all but the dot, which a field name follows. -/
abbrev Operator.Binary := { op : Operator // op ≠ .dot }

inductive Term where
  | number (x : Float)
  | text (s : String)
  | name (s : String)
  | field (object : Term) (key : String)
  | apply (op : Operator.Binary) (left right : Term)

namespace Term

/-- The post-order of a tree: operands, then their operator. -/
def instructions : Term → List Instruction
  | number x => [.number x]
  | text s => [.text s]
  | name s => [.name s]
  | field object key => object.instructions ++ [.name key, .apply .dot]
  | apply op left right => left.instructions ++ right.instructions ++ [.apply op.1]

def rebuild : List Instruction → List Term → Option Term
  | [], stack => stack.head?
  | .number x :: rest, stack => rebuild rest (number x :: stack)
  | .text s :: rest, stack => rebuild rest (text s :: stack)
  | .name s :: rest, stack => rebuild rest (name s :: stack)
  | .apply op :: rest, right :: left :: stack =>
    if h : op = .dot then
      match right with
      | name key => rebuild rest (field left key :: stack)
      | _ => none
    else rebuild rest (apply ⟨op, h⟩ left right :: stack)
  | .apply _ :: _, _ => none

theorem rebuild_instructions (t : Term) (rest : List Instruction) (stack : List Term) :
    rebuild (t.instructions ++ rest) stack = rebuild rest (t :: stack) := by
  induction t generalizing rest stack with
  | number x => rfl
  | text s => rfl
  | name s => rfl
  | field object key ih => simp [instructions, ih, rebuild]
  | apply op left right ihl ihr => simp [instructions, ihl, ihr, rebuild, op.2]

theorem instructions_inj {s t : Term} (h : s.instructions = t.instructions) : s = t := by
  have hs := rebuild_instructions s [] []
  have ht := rebuild_instructions t [] []
  rw [h, ht] at hs
  exact (Option.some.inj hs).symm

end Term

/-- The levels of the grammar, loosest first. -/
inductive Phrase where
  | expr
  | sum
  | product
  | path
  | primary
  deriving DecidableEq, Repr

def Phrase.operand? : Phrase → Option Phrase
  | expr => some sum
  | sum => some product
  | product => some path
  | path | primary => none

def Phrase.tightness : Phrase → Nat
  | expr => 1
  | sum => 2
  | product => 3
  | path => 4
  | primary => 5

def Operator.phrase : Operator → Phrase
  | less | lessEq | equal | greater | greaterEq => .expr
  | add | sub => .sum
  | mul | div => .product
  | dot => .path

@[simp]
theorem Operator.tightness_phrase (op : Operator) : op.phrase.tightness = op.precedence := by
  cases op <;> rfl

theorem Operator.precedence_pos (op : Operator) : 1 ≤ op.precedence := by
  cases op <;> decide

theorem Operator.precedence_le (op : Operator) : op.precedence ≤ 4 := by
  cases op <;> decide

namespace Phrase

/-- The operators of a level bind one less tightly than what they join. -/
theorem tightness_operand {p q : Phrase} (h : p.operand? = some q) : q.tightness = p.tightness + 1 := by
  cases p <;> cases h <;> rfl

theorem tightness_inj {p q : Phrase} (h : p.tightness = q.tightness) : p = q := by
  revert h
  cases p <;> cases q <;> simp [tightness]

theorem tightness_pos (p : Phrase) : 1 ≤ p.tightness := by
  cases p <;> decide

theorem exists_looser (p : Phrase) (h : 1 < p.tightness) : ∃ q : Phrase, p.tightness = q.tightness + 1 := by
  cases p with
  | expr => exact absurd h (by decide)
  | sum => exact ⟨.expr, rfl⟩
  | product => exact ⟨.sum, rfl⟩
  | path => exact ⟨.product, rfl⟩
  | primary => exact ⟨.path, rfl⟩

/-- An operator between two phrases, with the right one. -/
structure Link where
  op : Operator.Binary
  tokens : List Token
  tree : Term

namespace Link

def spelled (l : Link) : List Token :=
  .operator l.op.1 :: l.tokens

def join (left : Term) (l : Link) : Term :=
  .apply l.op left l.tree

end Link

def fieldTokens (key : String) : List Token :=
  [.operator .dot, .name key]

/-- `Derives p tokens tree`: the tokens spell a `p` with this parse tree. A chain is
`operand (operator operand)*` for one of the upper three levels, a path is `primary ('.' identifier)*`. -/
inductive Derives : Phrase → List Token → Term → Prop where
  | number (x : Float) : Derives .primary [.number x] (.number x)
  | text (s : String) : Derives .primary [.text s] (.text s)
  | name (s : String) : Derives .primary [.name s] (.name s)
  | group {ts : List Token} {t : Term} : Derives .expr ts t →
      Derives .primary (.openParen :: (ts ++ [.closeParen])) t
  | path {ts : List Token} {t : Term} (keys : List String) : Derives .primary ts t →
      Derives .path (ts ++ keys.flatMap fieldTokens) (keys.foldl .field t)
  | chain {p q : Phrase} {ts : List Token} {t : Term} (links : List Link) : p.operand? = some q →
      Derives q ts t → (∀ l ∈ links, l.op.1.phrase = p) → (∀ l ∈ links, Derives q l.tokens l.tree) →
      Derives p (ts ++ links.flatMap Link.spelled) (links.foldl Link.join t)

namespace Derives

variable {p q : Phrase} {us vs : List Token} {s t : Term}

theorem loosen_one (h : Derives p us t) (next : p.tightness = q.tightness + 1) : Derives q us t := by
  cases hq : q.operand? with
  | some r =>
    obtain rfl : p = r := tightness_inj (next.trans (tightness_operand hq).symm)
    simpa using chain [] hq h (by simp) (by simp)
  | none =>
    obtain ⟨rfl, rfl⟩ : p = .primary ∧ q = .path := by
      cases q <;> cases p <;> simp_all [operand?, tightness]
    simpa using path [] h

theorem loosen (h : Derives p us t) (le : q.tightness ≤ p.tightness) : Derives q us t := by
  obtain ⟨n, hn⟩ := Nat.exists_eq_add_of_le le
  induction n generalizing p with
  | zero => exact tightness_inj hn ▸ h
  | succ n ih =>
    obtain ⟨r, hr⟩ : ∃ r : Phrase, p.tightness = r.tightness + 1 := by
      have := q.tightness_pos
      exact p.exists_looser (by omega)
    exact ih (h.loosen_one hr) (by omega) (by omega)

/-- A chain grows to the right by one more operator of its level. -/
theorem snoc (op : Operator.Binary) (left : Derives op.1.phrase us s) (hq : op.1.phrase.operand? = some q)
    (right : Derives q vs t) : Derives op.1.phrase (us ++ .operator op.1 :: vs) (.apply op s t) := by
  generalize hp : op.1.phrase = p at left hq
  cases left with
  | number | text | name | group _ | path _ _ => cases hq
  | @chain _ q' ts s links hq' head ops operands =>
    obtain rfl : q' = q := Option.some.inj (hq'.symm.trans hq)
    have grown := chain (links ++ [⟨op, vs, t⟩]) hq head
      (by simpa [or_imp, forall_and, hp] using ops) (by simpa [or_imp, forall_and, right] using operands)
    simpa [Link.spelled, Link.join] using grown

theorem snoc_field (left : Derives .path us s) (key : String) :
    Derives .path (us ++ fieldTokens key) (.field s key) := by
  cases left with
  | @path ts s keys head => simpa using path (keys ++ [key]) head
  | chain _ hq => cases hq

/-- Joins a phrase of an operator's level with a tighter one to its right; after a dot that is a name. -/
theorem join {op : Operator} (left : Derives op.phrase us s) (right : Derives p vs t)
    (tighter : op.precedence < p.tightness) (key : op = .dot → ∃ k, vs = [.name k] ∧ t = .name k) :
    ∃ tree, Derives op.phrase (us ++ .operator op :: vs) tree ∧
      tree.instructions = s.instructions ++ t.instructions ++ [.apply op] := by
  by_cases hdot : op = .dot
  · obtain ⟨k, rfl, rfl⟩ := key hdot
    subst hdot
    exact ⟨.field s k, left.snoc_field k, by simp [Term.instructions]⟩
  · obtain ⟨q, hq⟩ : ∃ q, op.phrase.operand? = some q := by
      cases op <;> first | exact ⟨_, rfl⟩ | exact absurd rfl hdot
    have operand : Derives q vs t := right.loosen (by
      rw [tightness_operand hq, Operator.tightness_phrase]
      exact tighter)
    exact ⟨.apply ⟨op, hdot⟩ s t, snoc ⟨op, hdot⟩ left hq operand, rfl⟩

end Derives

end Phrase

end BehaviorTree
