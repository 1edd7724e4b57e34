import BehaviorTree.Proofs.Expr.Grammar

/-!
The yard accepts exactly the expressions of the grammar and writes the post-order of their tree. A phrase read
where an operand is due leaves only operators of its own levels waiting, which complete its tree when they are
released; and whatever a yard has taken is an expression with its right end missing, each waiting operator with
the phrase to its left.
-/

namespace BehaviorTree
set_option autoImplicit false

open Phrase (Derives fieldTokens)

namespace Yard

variable {w w' : List (Nat × Waiting)} {out : List Instruction} {ts us : List Token} {t : Term} {y y' : Yard}

theorem run_append (y : Yard) (front back : List (Nat × Token)) :
    y.run (front ++ back) =
      match y.run front with
      | .ok y' => y'.run back
      | .error e => .error e := by
  induction front generalizing y with
  | nil => rfl
  | cons head front ih =>
    simp only [List.cons_append, run]
    cases y.step head.1 head.2 with
    | ok y' => exact ih y'
    | error fault => rfl

theorem run_append_of_ok {front : List (Nat × Token)} (h : y.run front = .ok y') (back : List (Nat × Token)) :
    y.run (front ++ back) = y'.run back := by
  rw [run_append, h]

/-- The innermost waiting operator, if any, binds less tightly than `n`. -/
def Looser (n : Nat) : List (Nat × Waiting) → Prop
  | (_, .operator op) :: _ => op.precedence < n
  | _ => True

def dotted : List (Nat × Waiting) → Bool
  | (_, .operator op) :: _ => op = .dot
  | _ => false

theorem Looser.mono {m n : Nat} (h : Looser m w) (le : m ≤ n) : Looser n w := by
  match w with
  | [] | (_, .openParen) :: _ => trivial
  | (_, .operator op) :: _ => exact Nat.lt_of_lt_of_le h le

theorem Looser.not_dotted {n : Nat} (h : Looser n w) (le : n ≤ 4) : dotted w = false := by
  match w with
  | [] | (_, .openParen) :: _ => rfl
  | (_, .operator op) :: _ =>
    have lt : op.precedence < n := h
    have : op ≠ .dot := by
      rintro rfl
      exact absurd (Nat.lt_of_lt_of_le lt le) (by decide)
    simpa [dotted] using this

/-! ## Releasing operators -/

theorem release_of_looser {op : Operator} (h : Looser op.precedence w) (out : List Instruction) :
    release op w out = (w, out) := by
  match w with
  | [] | (_, .openParen) :: _ => rfl
  | (_, .operator top) :: _ => exact if_pos h

theorem release_of_le {op top : Operator} (h : op.precedence ≤ top.precedence) (offset : Nat)
    (w : List (Nat × Waiting)) (out : List Instruction) :
    release op ((offset, .operator top) :: w) out = release op w (.apply top :: out) :=
  if_neg (Nat.not_lt.mpr h)

theorem release_less (offset : Nat) (top : Operator) (w : List (Nat × Waiting)) (out : List Instruction) :
    release .less ((offset, .operator top) :: w) out = release .less w (.apply top :: out) :=
  if_neg (Nat.not_lt.mpr top.precedence_pos)

theorem closeGroup_eq (w : List (Nat × Waiting)) (out : List Instruction) :
    closeGroup w out =
      match release .less w out with
      | ((_, .openParen) :: w', out') => some (w', out')
      | _ => none := by
  induction w generalizing out with
  | nil => rfl
  | cons head w ih =>
    match head with
    | (_, .openParen) => rfl
    | (offset, .operator top) =>
      rw [release_less]
      exact ih _

theorem releaseAll_eq (w : List (Nat × Waiting)) (out : List Instruction) :
    releaseAll w out =
      match release .less w out with
      | ((offset, _) :: _, _) => .error offset
      | ([], out') => .ok out' := by
  induction w generalizing out with
  | nil => rfl
  | cons head w ih =>
    match head with
    | (_, .openParen) => rfl
    | (offset, .operator top) =>
      rw [release_less]
      exact ih _

def flush (ops : List (Nat × Operator)) (out : List Instruction) : List Instruction :=
  ops.foldl (fun out op => .apply op.2 :: out) out

def waits (ops : List (Nat × Operator)) : List (Nat × Waiting) :=
  ops.map fun op => (op.1, .operator op.2)

theorem release_waits {op : Operator} (ops : List (Nat × Operator))
    (tight : ∀ o ∈ ops, op.precedence ≤ o.2.precedence) (h : Looser op.precedence w) (out : List Instruction) :
    release op (waits ops ++ w) out = (w, flush ops out) := by
  induction ops generalizing out with
  | nil => exact release_of_looser h out
  | cons top ops ih =>
    rw [List.forall_mem_cons] at tight
    calc release op (waits (top :: ops) ++ w) out
        = release op (waits ops ++ w) (.apply top.2 :: out) := release_of_le tight.1 _ _ _
      _ = (w, flush ops (.apply top.2 :: out)) := ih tight.2 _

/-! ## Every expression is accepted -/

/-- The yard has taken an operand with this tree on top of `w` and `out`: the operators that still wait for it
bind at least as tightly as `n`, and releasing them completes its post-order. -/
structure Took (n : Nat) (w : List (Nat × Waiting)) (out : List Instruction) (t : Term) (y : Yard) : Prop where
  operandDue : y.operandDue = false
  fieldDue : y.fieldDue = false
  completes : ∃ ops : List (Nat × Operator), y.waiting = waits ops ++ w ∧ (∀ o ∈ ops, n ≤ o.2.precedence) ∧
    flush ops y.output = t.instructions.reverse ++ out

namespace Took

variable {m n : Nat}

theorem mono (h : Took n w out t y) (le : m ≤ n) : Took m w out t y := by
  obtain ⟨ops, hw, tight, hout⟩ := h.completes
  exact ⟨h.operandDue, h.fieldDue, ops, hw, fun o ho => Nat.le_trans le (tight o ho), hout⟩

theorem of_output (i : List Instruction) (hi : t.instructions.reverse ++ out = i) :
    Took n w out t ⟨i, w, false, false⟩ :=
  ⟨rfl, rfl, [], rfl, by simp, hi.symm⟩

/-- An operator that binds no tighter completes the operand and waits for its own right one. -/
theorem release (h : Took n w out t y) (op : Operator) (le : op.precedence ≤ n) (looser : Looser op.precedence w) :
    Yard.release op y.waiting y.output = (w, t.instructions.reverse ++ out) := by
  obtain ⟨ops, hw, tight, hout⟩ := h.completes
  rw [hw, release_waits ops (fun o ho => Nat.le_trans le (tight o ho)) looser, hout]

theorem operator (h : Took n w out t y) (op : Operator) (le : op.precedence ≤ n)
    (looser : Looser op.precedence w) (offset : Nat) :
    y.step offset (.operator op) =
      .ok ⟨t.instructions.reverse ++ out, (offset, .operator op) :: w, true, op = .dot⟩ := by
  simp [step, h.operandDue, h.fieldDue, h.release op le looser]

/-- After an operator its right operand completes the tree of both. -/
theorem right {op : Operator} {o : Nat} {s tree : Term} {i : List Instruction}
    (h : Took n ((o, .operator op) :: w) i t y) (hi : i = s.instructions.reverse ++ out)
    (htree : tree.instructions = s.instructions ++ t.instructions ++ [.apply op]) (le : m ≤ n)
    (hm : m ≤ op.precedence) : Took m w out tree y := by
  obtain ⟨ops, hw, tight, hout⟩ := h.completes
  refine ⟨h.operandDue, h.fieldDue, ops ++ [(o, op)], ?_, ?_, ?_⟩
  · simp [hw, waits]
  · simpa [or_imp, forall_and, hm] using fun a b hab => Nat.le_trans le (tight (a, b) hab)
  · have : flush (ops ++ [(o, op)]) y.output = .apply op :: flush ops y.output := by simp [flush]
    simp [this, hout, hi, htree]

theorem close {offset o : Nat} (h : Took n ((o, .openParen) :: w) out t y) (le : 1 ≤ n) :
    y.step offset .closeParen = .ok ⟨t.instructions.reverse ++ out, w, false, false⟩ := by
  have hgroup : closeGroup y.waiting y.output = some (w, t.instructions.reverse ++ out) := by
    rw [closeGroup_eq, h.release .less le trivial]
  simp [step, h.operandDue, h.fieldDue, hgroup]

theorem finish (h : Took n [] [] t y) (le : 1 ≤ n) (size : Nat) : y.finish size = .ok t.instructions := by
  have hall : releaseAll y.waiting y.output = .ok t.instructions.reverse := by
    rw [releaseAll_eq, h.release .less le trivial, List.append_nil]
  simp [Yard.finish, h.operandDue, hall]

end Took

/-- `Takes p ts t`: wherever an operand is due and looser operators wait, the yard takes `ts` as an operand. -/
def Takes (p : Phrase) (ts : List Token) (t : Term) : Prop :=
  ∀ (w : List (Nat × Waiting)) (out : List Instruction) (tokens : List (Nat × Token)), tokens.map (·.2) = ts →
    Looser p.tightness w → ∃ y, run ⟨out, w, true, false⟩ tokens = .ok y ∧ Took p.tightness w out t y

theorem exists_singleton {tokens : List (Nat × Token)} {tok : Token} {rest : List Token}
    (h : tokens.map (·.2) = tok :: rest) :
    ∃ offset tokens', tokens = (offset, tok) :: tokens' ∧ tokens'.map (·.2) = rest := by
  obtain ⟨⟨offset, tok'⟩, tokens', rfl, rfl, rfl⟩ := List.map_eq_cons_iff.mp h
  exact ⟨offset, tokens', rfl, rfl⟩

theorem takes_token {tok : Token} {i : Instruction} (ht : t.instructions = [i])
    (hstep : ∀ out w offset, step ⟨out, w, true, false⟩ offset tok = .ok ⟨i :: out, w, false, false⟩) :
    Takes .primary [tok] t := by
  intro w out tokens htokens _
  obtain ⟨offset, rest, rfl, hrest⟩ := exists_singleton htokens
  obtain rfl := List.map_eq_nil_iff.mp hrest
  exact ⟨⟨i :: out, w, false, false⟩, by simp only [run, hstep], .of_output _ (by rw [ht]; rfl)⟩

theorem takes_group (h : Takes .expr ts t) : Takes .primary (.openParen :: (ts ++ [.closeParen])) t := by
  intro w out tokens htokens _
  obtain ⟨o, rest, rfl, hrest⟩ := exists_singleton htokens
  obtain ⟨inner, last, rfl, hinner, hlast⟩ := List.map_eq_append_iff.mp hrest
  obtain ⟨offset, last, rfl, hnil⟩ := exists_singleton hlast
  obtain rfl := List.map_eq_nil_iff.mp hnil
  obtain ⟨y, hrun, took⟩ := h ((o, .openParen) :: w) out inner hinner trivial
  have hopen : step ⟨out, w, true, false⟩ o .openParen = .ok ⟨out, (o, .openParen) :: w, true, false⟩ := rfl
  refine ⟨⟨t.instructions.reverse ++ out, w, false, false⟩, ?_, .of_output _ rfl⟩
  rw [run, hopen]
  simp only [run_append_of_ok hrun, run, took.close (Nat.le_refl 1)]

theorem took_fields (keys : List String) (h : Took 4 w out t y) (looser : Looser 4 w)
    (tokens : List (Nat × Token)) (htokens : tokens.map (·.2) = keys.flatMap fieldTokens) :
    ∃ y', y.run tokens = .ok y' ∧ Took 4 w out (keys.foldl .field t) y' := by
  induction keys generalizing t y tokens with
  | nil =>
    obtain rfl := List.map_eq_nil_iff.mp htokens
    exact ⟨y, rfl, h⟩
  | cons key keys ih =>
    rw [List.flatMap_cons, fieldTokens] at htokens
    obtain ⟨o, named, rfl, hnamed⟩ := exists_singleton htokens
    obtain ⟨offset, rest, rfl, hrest⟩ := exists_singleton hnamed
    let read : Yard := ⟨.name key :: (t.instructions.reverse ++ out), (o, .operator .dot) :: w, false, false⟩
    have key_taken : Took 5 ((o, .operator .dot) :: w) (t.instructions.reverse ++ out) (.name key) read :=
      .of_output _ rfl
    have took : Took 4 w out (.field t key) read :=
      key_taken.right rfl (by simp [Term.instructions]) (by decide) (by decide)
    obtain ⟨y', hrun, hy'⟩ := ih took rest hrest
    refine ⟨y', ?_, hy'⟩
    rw [run, h.operator .dot (Nat.le_refl 4) looser]
    exact hrun

theorem took_links {p q : Phrase} (hq : p.operand? = some q) (links : List Phrase.Link)
    (ops : ∀ l ∈ links, l.op.1.phrase = p) (operands : ∀ l ∈ links, Takes q l.tokens l.tree)
    (h : Took p.tightness w out t y) (looser : Looser p.tightness w) (tokens : List (Nat × Token))
    (htokens : tokens.map (·.2) = links.flatMap Phrase.Link.spelled) :
    ∃ y', y.run tokens = .ok y' ∧ Took p.tightness w out (links.foldl Phrase.Link.join t) y' := by
  induction links generalizing t y tokens with
  | nil =>
    obtain rfl := List.map_eq_nil_iff.mp htokens
    exact ⟨y, rfl, h⟩
  | cons l links ih =>
    rw [List.forall_mem_cons] at ops operands
    rw [List.flatMap_cons, Phrase.Link.spelled] at htokens
    obtain ⟨o, rest, rfl, hrest⟩ := exists_singleton htokens
    obtain ⟨front, rest, rfl, hfront, hrest⟩ := List.map_eq_append_iff.mp hrest
    have level : l.op.1.precedence = p.tightness := by rw [← ops.1, Operator.tightness_phrase]
    have tighter : q.tightness = p.tightness + 1 := Phrase.tightness_operand hq
    have hstep := h.operator l.op.1 (Nat.le_of_eq level) (level ▸ looser) o
    rw [decide_eq_false l.op.2] at hstep
    obtain ⟨y₁, hrun₁, took₁⟩ := operands.1 ((o, .operator l.op.1) :: w) (t.instructions.reverse ++ out) front
      hfront (show l.op.1.precedence < q.tightness by omega)
    have took : Took p.tightness w out (.apply l.op t l.tree) y₁ :=
      took₁.right rfl rfl (by omega) (by omega)
    obtain ⟨y', hrun', took'⟩ := ih ops.2 operands.2 took rest hrest
    refine ⟨y', ?_, took'⟩
    rw [run, hstep]
    exact (run_append_of_ok hrun₁ rest).trans hrun'

theorem takes_of_derives {p : Phrase} (h : Derives p ts t) : Takes p ts t := by
  induction h with
  | number x => exact takes_token rfl fun _ _ _ => rfl
  | text s => exact takes_token rfl fun _ _ _ => rfl
  | name s => exact takes_token rfl fun _ _ _ => rfl
  | group _ ih => exact takes_group ih
  | path keys _ ih =>
    intro w out tokens htokens looser
    obtain ⟨front, rest, rfl, hfront, hrest⟩ := List.map_eq_append_iff.mp htokens
    obtain ⟨y₁, hrun, took⟩ := ih w out front hfront (looser.mono (by decide))
    obtain ⟨y', hrun', took'⟩ := took_fields keys (took.mono (by decide)) looser rest hrest
    exact ⟨y', (run_append_of_ok hrun rest).trans hrun', took'⟩
  | chain links hq _ ops _ ih ihs =>
    intro w out tokens htokens looser
    obtain ⟨front, rest, rfl, hfront, hrest⟩ := List.map_eq_append_iff.mp htokens
    have le := Nat.le_of_lt (Nat.lt_of_lt_of_eq (Nat.lt_succ_self _) (Phrase.tightness_operand hq).symm)
    obtain ⟨y₁, hrun, took⟩ := ih w out front hfront (looser.mono le)
    obtain ⟨y', hrun', took'⟩ := took_links hq links ops ihs (took.mono le) looser rest hrest
    exact ⟨y', (run_append_of_ok hrun rest).trans hrun', took'⟩

/-! ## Only expressions are accepted -/

/-- What stands to the left of an operand that is due: the tokens taken, the output, and what waits. Each waiting
operator has a phrase of its own level to its left. -/
inductive Awaits : List (Nat × Waiting) → List Instruction → List Token → Prop where
  | start : Awaits [] [] []
  | group {w : List (Nat × Waiting)} {out : List Instruction} {ts : List Token} (offset : Nat) :
      Awaits w out ts → dotted w = false → Awaits ((offset, .openParen) :: w) out (ts ++ [.openParen])
  | right {w : List (Nat × Waiting)} {out : List Instruction} {ts us : List Token} {t : Term} {op : Operator}
      (offset : Nat) : Awaits w out ts → Derives op.phrase us t → Looser op.precedence w →
      Awaits ((offset, .operator op) :: w) (t.instructions.reverse ++ out) (ts ++ us ++ [.operator op])

/-- An operand to the right of what waits: a name after a dot, else any phrase that binds more tightly. -/
structure Fits (p : Phrase) (w : List (Nat × Waiting)) (us : List Token) (t : Term) : Prop where
  derives : Derives p us t
  looser : Looser p.tightness w
  key : dotted w = true → ∃ k, us = [.name k] ∧ t = .name k

inductive Reads : Yard → List Token → Prop where
  | due {w : List (Nat × Waiting)} {out : List Instruction} {ts : List Token} :
      Awaits w out ts → Reads ⟨out, w, true, dotted w⟩ ts
  | done {w : List (Nat × Waiting)} {out : List Instruction} {ts us : List Token} {t : Term} :
      Awaits w out ts → Fits .primary w us t → Reads ⟨t.instructions.reverse ++ out, w, false, false⟩ (ts ++ us)

theorem looser_primary (w : List (Nat × Waiting)) : Looser (Phrase.tightness .primary) w := by
  match w with
  | [] | (_, .openParen) :: _ => trivial
  | (_, .operator op) :: _ => exact Nat.lt_succ_of_le op.precedence_le

/-- Releasing joins the operand with the phrases to its left, up to the level of the operator that comes. -/
theorem Awaits.release (h : Awaits w out ts) {p : Phrase} (fits : Fits p w us t) (op : Operator)
    (le : op.precedence ≤ p.tightness) :
    ∃ w' out' ts' us' t', Yard.release op w (t.instructions.reverse ++ out) = (w', t'.instructions.reverse ++ out') ∧
      Awaits w' out' ts' ∧ Derives op.phrase us' t' ∧ Looser op.precedence w' ∧ ts' ++ us' = ts ++ us := by
  induction h generalizing p us t with
  | start =>
    exact ⟨[], [], [], us, t, rfl, .start, fits.derives.loosen (by simpa using le), trivial, rfl⟩
  | @group w out ts offset h dots =>
    exact ⟨_, out, _, us, t, rfl, .group offset h dots, fits.derives.loosen (by simpa using le), trivial, rfl⟩
  | @right w out ts vs s top offset h left looser ih =>
    by_cases keep : top.precedence < op.precedence
    · exact ⟨_, _, _, us, t, if_pos keep, .right offset h left looser,
        fits.derives.loosen (by simpa using le), keep, rfl⟩
    · obtain ⟨tree, derives, htree⟩ := left.join fits.derives fits.looser
        fun hdot => fits.key (by simpa [dotted] using hdot)
      have joined : Fits top.phrase w (vs ++ .operator top :: us) tree :=
        ⟨derives, by simpa using looser, fun dots => by
          rw [looser.not_dotted top.precedence_le] at dots
          cases dots⟩
      obtain ⟨w', out', ts', us', t', hrelease, awaits, derives', looser', htokens⟩ :=
        ih joined (by simpa using Nat.le_of_not_lt keep)
      refine ⟨w', out', ts', us', t', ?_, awaits, derives', looser', by simp [htokens]⟩
      rw [release_of_le (Nat.le_of_not_lt keep), ← hrelease, htree]
      simp

/-- A token where an operand is due: after a dot a name, elsewhere any operand or an opening parenthesis. -/
theorem Awaits.step (h : Awaits w out ts) {offset : Nat} {tok : Token}
    (hstep : Yard.step ⟨out, w, true, dotted w⟩ offset tok = .ok y) : Reads y (ts ++ [tok]) := by
  have operand {t : Term} {i : Instruction} (hi : t.instructions = [i]) (derives : Derives .primary [tok] t)
      (key : dotted w = true → ∃ k, [tok] = [.name k] ∧ t = .name k) :
      Reads ⟨i :: out, w, false, false⟩ (ts ++ [tok]) := by
    simpa [hi] using Reads.done h ⟨derives, looser_primary w, key⟩
  cases dots : dotted w with
  | true =>
    cases tok with
    | name s =>
      cases hstep
      exact operand rfl (.name s) fun _ => ⟨s, rfl, rfl⟩
    | number x | text s | operator op | openParen | closeParen => simp [Yard.step, dots] at hstep
  | false =>
    have key {t : Term} (d : dotted w = true) : ∃ k, [tok] = [.name k] ∧ t = .name k := by simp [dots] at d
    rw [dots] at hstep
    cases tok with
    | name s =>
      cases hstep
      exact operand rfl (.name s) key
    | number x =>
      cases hstep
      exact operand rfl (.number x) key
    | text s =>
      cases hstep
      exact operand rfl (.text s) key
    | openParen =>
      cases hstep
      exact Reads.due (.group offset h dots)
    | operator op | closeParen => cases hstep

/-- A token after an operand: an operator or a closing parenthesis. -/
theorem Fits.step (fits : Fits .primary w us t) (h : Awaits w out ts) {offset : Nat} {tok : Token}
    (hstep : Yard.step ⟨t.instructions.reverse ++ out, w, false, false⟩ offset tok = .ok y) :
    Reads y (ts ++ us ++ [tok]) := by
  cases tok with
  | name s | number x | text s | openParen => cases hstep
  | operator op =>
    obtain ⟨w', out', ts', us', t', hrelease, awaits, derives, looser, htokens⟩ :=
      h.release fits op (Nat.le_succ_of_le op.precedence_le)
    simp only [Yard.step, hrelease] at hstep
    cases hstep
    rw [← htokens]
    exact Reads.due (.right offset awaits derives looser)
  | closeParen =>
    obtain ⟨w', out', ts', us', t', hrelease, awaits, derives, looser, htokens⟩ :=
      h.release fits .less (by decide)
    simp only [Yard.step, closeGroup_eq, hrelease] at hstep
    cases awaits with
    | start => cases hstep
    | right _ _ _ _ => exact absurd looser (Nat.not_lt.mpr (Operator.precedence_pos _))
    | @group w out ts offset h dots =>
      cases hstep
      have group : Fits .primary w (.openParen :: (us' ++ [.closeParen])) t' :=
        ⟨.group derives, looser_primary w, fun d => by simp [dots] at d⟩
      rw [← htokens]
      simpa using Reads.done h group

theorem Reads.step (h : Reads y ts) {offset : Nat} {tok : Token} (hstep : y.step offset tok = .ok y') :
    Reads y' (ts ++ [tok]) := by
  cases h with
  | due h => exact h.step hstep
  | done h fits => exact fits.step h hstep

theorem Reads.run (h : Reads y ts) {tokens : List (Nat × Token)} (hrun : y.run tokens = .ok y') :
    Reads y' (ts ++ tokens.map (·.2)) := by
  induction tokens generalizing y ts with
  | nil =>
    cases hrun
    simpa using h
  | cons head tokens ih =>
    rw [Yard.run] at hrun
    cases hstep : y.step head.1 head.2 with
    | error fault => simp [hstep] at hrun
    | ok y₁ =>
      rw [hstep] at hrun
      simpa using ih (h.step hstep) hrun

theorem Reads.finish (h : Reads y ts) {size : Nat} {is : List Instruction} (hfinish : y.finish size = .ok is) :
    ∃ t, Derives .expr ts t ∧ is = t.instructions := by
  cases h with
  | due h => cases hfinish
  | @done w out ts us t h fits =>
    obtain ⟨w', out', ts', us', t', hrelease, awaits, derives, looser, htokens⟩ :=
      h.release fits .less (by decide)
    simp only [Yard.finish, releaseAll_eq, hrelease] at hfinish
    cases awaits with
    | start =>
      cases hfinish
      exact ⟨t', htokens ▸ derives, by simp⟩
    | group _ _ _ | right _ _ _ _ => cases hfinish

end Yard

namespace Instruction

variable {size : Nat} {tokens : List (Nat × Token)} {is : List Instruction} {t : Term}

theorem ofTokens_of_derives (size : Nat) (h : Derives .expr (tokens.map (·.2)) t) :
    ofTokens size tokens = .ok t.instructions := by
  obtain ⟨y, hrun, took⟩ := Yard.takes_of_derives h [] [] tokens rfl trivial
  rw [ofTokens, hrun]
  exact took.finish (Nat.le_refl 1) size

theorem derives_of_ofTokens (h : ofTokens size tokens = .ok is) :
    ∃ t, Derives .expr (tokens.map (·.2)) t ∧ is = t.instructions := by
  rw [ofTokens] at h
  cases hrun : Yard.run {} tokens with
  | error e => simp [hrun] at h
  | ok y =>
    rw [hrun] at h
    exact (Yard.Reads.run (.due .start) hrun).finish h

theorem derives_unique {s : Term} (hs : Derives .expr (tokens.map (·.2)) s)
    (ht : Derives .expr (tokens.map (·.2)) t) : s = t := by
  have same := (ofTokens_of_derives 0 hs).symm.trans (ofTokens_of_derives 0 ht)
  exact Term.instructions_inj (Except.ok.inj same)

/-- A token list is accepted if and only if it is an expression of the grammar, and then its instructions are the
post-order of its one parse tree. -/
theorem ofTokens_accepts (size : Nat) (tokens : List (Nat × Token)) :
    ((∃ is, ofTokens size tokens = .ok is) ↔ ∃ t, Derives .expr (tokens.map (·.2)) t) ∧
    ∀ is, ofTokens size tokens = .ok is →
      ∃ t, is = t.instructions ∧ ∀ t', Derives .expr (tokens.map (·.2)) t' ↔ t' = t := by
  refine ⟨⟨fun ⟨is, h⟩ => ?_, fun ⟨t, h⟩ => ⟨t.instructions, ofTokens_of_derives size h⟩⟩, fun is h => ?_⟩
  · obtain ⟨t, derives, -⟩ := derives_of_ofTokens h
    exact ⟨t, derives⟩
  · obtain ⟨t, derives, rfl⟩ := derives_of_ofTokens h
    exact ⟨t, rfl, fun t' => ⟨fun h' => derives_unique h' derives, fun h' => h' ▸ derives⟩⟩

end Instruction

end BehaviorTree
