import BehaviorTree.Expr.Eval
import BehaviorTree.Proofs.Expr.Rounding

/-!
Comparing two variables that hold integers: the doubles nearest to them are compared. Up to 53 binary places this is
comparing the integers; beyond, different integers may be rounded to the same double.
-/

namespace BehaviorTree
set_option autoImplicit false

namespace Expression

open Binary64 (rounded)

variable {vars : Lookup} {x y : Int}

theorem compile_of_toOption {source : String} {is : List Instruction}
    (h : (Instruction.ofText source).toOption = some is) : compile source = .ok ⟨source, .compiled is⟩ := by
  rw [compile]
  cases hs : Instruction.ofText source with
  | ok js =>
    rw [hs] at h
    cases h
    rfl
  | error e =>
    rw [hs] at h
    cases h

/-- The texts that compare the variables `a` and `b`, with their operators and what these mean for integers. -/
def comparisons : List (String × Operator × (Int → Int → Bool)) :=
  [("a < b", .less, fun x y => x < y), ("a <= b", .lessEq, fun x y => x ≤ y), ("a == b", .equal, fun x y => x = y),
    ("a >= b", .greaterEq, fun x y => y ≤ x), ("a > b", .greater, fun x y => y < x)]

theorem ofText_comparisons : comparisons.map (fun c => (Instruction.ofText c.1).toOption) =
    comparisons.map fun c => some [.name "a", .name "b", .apply c.2.1] := by
  decide +kernel

theorem eval_comparison (hx : x.natAbs < 2 ^ 64) (hy : y.natAbs < 2 ^ 64) (ha : vars "a" = some (.int x))
    (hb : vars "b" = some (.int y)) {c : String × Operator × (Int → Int → Bool)} (hc : c ∈ comparisons) :
    c.2.1.eval vars (.name "a") (.name "b") = .ok (.answer (c.2.2 (rounded x) (rounded y))) := by
  have hnumbers : Operator.numbers vars (.name "a") (.name "b") =
      .ok (Binary64.nearestInt x, Binary64.nearestInt y) := by
    simp [Operator.numbers, Operand.number, Operand.resolve, ha, hb, Value.asFloat?]
  simp only [comparisons, List.mem_cons, List.not_mem_nil, or_false] at hc
  rcases hc with rfl | rfl | rfl | rfl | rfl
  · simp [Operator.eval, Operator.compared, hnumbers, Binary64.nearestInt_lt_iff hx hy]
  · simp [Operator.eval, Operator.compared, hnumbers, Binary64.nearestInt_le_iff hx hy]
  · simp [Operator.eval, Operand.resolve, ha, hb, Value.looseEq, Value.asFloat?, Binary64.nearestInt_beq hx hy]
  · simp [Operator.eval, Operator.compared, hnumbers, Binary64.nearestInt_le_iff hy hx]
  · simp [Operator.eval, Operator.compared, hnumbers, Binary64.nearestInt_lt_iff hy hx]

theorem evaluate_of_mem (hx : x.natAbs < 2 ^ 64) (hy : y.natAbs < 2 ^ 64) (ha : vars "a" = some (.int x))
    (hb : vars "b" = some (.int y)) {c : String × Operator × (Int → Int → Bool)} (hc : c ∈ comparisons) :
    ∃ e, compile c.1 = .ok e ∧ e.evaluate vars = .ok (.bool (c.2.2 (rounded x) (rounded y))) := by
  have hcode : (Instruction.ofText c.1).toOption = some [.name "a", .name "b", .apply c.2.1] :=
    List.map_inj_left.mp ofText_comparisons c hc
  refine ⟨_, compile_of_toOption hcode, ?_⟩
  simp only [evaluate, Instruction.run, eval_comparison hx hy ha hb hc]

/-- A comparison of two integers is evaluated to that of the integers that their nearest doubles stand for. Rounding
keeps the order and does not change integers of at most 53 places. -/
theorem evaluate_comparison (hx : -2 ^ 63 ≤ x ∧ x < 2 ^ 64) (hy : -2 ^ 63 ≤ y ∧ y < 2 ^ 64)
    (ha : vars "a" = some (.int x)) (hb : vars "b" = some (.int y)) :
    (∀ c ∈ comparisons,
      (∃ e, compile c.1 = .ok e ∧ e.evaluate vars = .ok (.bool (c.2.2 (rounded x) (rounded y)))) ∧
        (x.natAbs ≤ 2 ^ 53 → y.natAbs ≤ 2 ^ 53 → c.2.2 (rounded x) (rounded y) = c.2.2 x y)) ∧
      (x ≤ y → rounded x ≤ rounded y) ∧ (y ≤ x → rounded y ≤ rounded x) := by
  refine ⟨fun c hc => ⟨evaluate_of_mem (by omega) (by omega) ha hb hc, fun hsx hsy => ?_⟩, ?_, ?_⟩
  · rw [Binary64.rounded_of_natAbs_le hsx, Binary64.rounded_of_natAbs_le hsy]
  · exact Binary64.rounded_mono
  · exact Binary64.rounded_mono

/-- Two integers under the names `a` and `b`. -/
def integers (x y : Int) : Lookup := fun name =>
  if name = "a" then some (.int x) else if name = "b" then some (.int y) else none

/-- The largest integer, which is rounded up, is greater than the least, which is a double. -/
theorem evaluate_comparison_limits : ∃ e, compile "a > b" = .ok e ∧
    e.evaluate (integers 18446744073709551615 (-9223372036854775808)) = .ok (.bool true) := by
  have hx : rounded 18446744073709551615 = 18446744073709551616 := by decide +kernel
  have hy : rounded (-9223372036854775808) = -9223372036854775808 := by decide +kernel
  have ha : integers 18446744073709551615 (-9223372036854775808) "a" = some (.int 18446744073709551615) := rfl
  have hb : integers 18446744073709551615 (-9223372036854775808) "b" = some (.int (-9223372036854775808)) := rfl
  have hc : ("a > b", .greater, fun x y => decide (y < x)) ∈ comparisons := by simp [comparisons]
  have h := ((evaluate_comparison (by decide) (by decide) ha hb).1 _ hc).1
  rwa [hx, hy] at h

/-- The first integer that is no double is equal to the one before it. -/
theorem equal_to_neighbour : (∃ e, compile "a == b" = .ok e ∧
    e.evaluate (integers 9007199254740992 9007199254740993) = .ok (.bool true)) ∧
      (9007199254740992 : Int) ≠ 9007199254740993 := by
  have hx : rounded 9007199254740992 = 9007199254740992 := by decide +kernel
  have hy : rounded 9007199254740993 = 9007199254740992 := by decide +kernel
  have ha : integers 9007199254740992 9007199254740993 "a" = some (.int 9007199254740992) := rfl
  have hb : integers 9007199254740992 9007199254740993 "b" = some (.int 9007199254740993) := rfl
  have hc : ("a == b", .equal, fun x y => decide (x = y)) ∈ comparisons := by simp [comparisons]
  have h := evaluate_of_mem (by decide) (by decide) ha hb hc
  rw [hx, hy] at h
  exact ⟨h, by decide⟩

end Expression

end BehaviorTree
