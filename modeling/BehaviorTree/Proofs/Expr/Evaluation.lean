import BehaviorTree.Expr.Eval
import BehaviorTree.Proofs.Expr.Parsing

/-!
Expressions by recursion on their parse trees, and that instructions evaluate to the same. A name stays a name until
the operator above it, or the end, uses it; the first comparison to be complete stops everything.
-/

namespace BehaviorTree
set_option autoImplicit false

open Phrase (Derives)

inductive Stop where
  | error (e : ExprError)
  | answer (b : Bool)

/-- The result of an evaluation that stops. -/
def Stop.result : Stop → Except ExprError Value
  | error e => .error e
  | answer b => .ok (.bool b)

namespace Term

variable (vars : Lookup)

/-- The value of an operand; a name is looked up here. -/
def valueOf : Operand → Except Stop Value
  | .value v => .ok v
  | .name s =>
    match vars s with
    | some v => .ok v
    | none => .error (.error (.undefinedVariable s))

def floatOf (o : Operand) : Except Stop Float := do
  match (← valueOf vars o).asFloat? with
  | some x => .ok x
  | none => .error (.error (.notANumber o.shown))

def fieldOf (o : Operand) (key : String) : Except Stop Value := do
  match (← valueOf vars o).asObject? with
  | none => .error (.error (.notAnObject o.shown))
  | some fields =>
    match fields.get? key with
    | some v => .ok v
    | none => .error (.error (.undefinedField key))

def onFloats (left right : Operand) (result : Float → Float → Except Stop Value) : Except Stop Value := do
  let x ← floatOf vars left
  let y ← floatOf vars right
  result x y

/-- What an operator makes of two operands; a comparison stops with its answer. -/
def combine (left right : Operand) : Operator.Binary → Except Stop Value
  | ⟨.equal, _⟩ => do
    let v ← valueOf vars left
    let w ← valueOf vars right
    .error (.answer (v.looseEq w))
  | ⟨.less, _⟩ => onFloats vars left right fun x y => .error (.answer (x < y))
  | ⟨.lessEq, _⟩ => onFloats vars left right fun x y => .error (.answer (x ≤ y))
  | ⟨.greater, _⟩ => onFloats vars left right fun x y => .error (.answer (x > y))
  | ⟨.greaterEq, _⟩ => onFloats vars left right fun x y => .error (.answer (x ≥ y))
  | ⟨.add, _⟩ => onFloats vars left right fun x y => .ok (Value.ofNumber (x + y))
  | ⟨.sub, _⟩ => onFloats vars left right fun x y => .ok (Value.ofNumber (x - y))
  | ⟨.mul, _⟩ => onFloats vars left right fun x y => .ok (Value.ofNumber (x * y))
  | ⟨.div, _⟩ => onFloats vars left right fun x y =>
    if y == 0.0 then .error (.error .divisionByZero) else .ok (Value.ofNumber (x / y))
  | ⟨.dot, binary⟩ => absurd rfl binary

def operand : Term → Except Stop Operand
  | number x => .ok (.value (Value.ofNumber x))
  | text s => .ok (.value (.string s))
  | name s => .ok (.name s)
  | field object key => do
    let o ← object.operand
    let v ← fieldOf vars o key
    .ok (.value v)
  | apply op left right => do
    let l ← left.operand
    let r ← right.operand
    let v ← combine vars l r op
    .ok (.value v)

/-- The value of a whole expression. -/
def eval (t : Term) : Except ExprError Value :=
  match t.operand vars >>= valueOf vars with
  | .ok v => .ok v
  | .error stop => stop.result

end Term

/-! ## The operators on operands -/

def Stop.lift {α : Type} : Except ExprError α → Except Stop α
  | .ok a => .ok a
  | .error e => .error (.error e)

def Yield.toStop : Except ExprError Yield → Except Stop Value
  | .ok (.value v) => .ok v
  | .ok (.answer b) => .error (.answer b)
  | .error e => .error (.error e)

section Operators

variable {vars : Lookup}

theorem Term.valueOf_eq (o : Operand) : Term.valueOf vars o = Stop.lift (o.resolve vars) := by
  cases o with
  | value v => rfl
  | name s =>
    simp only [Term.valueOf, Operand.resolve]
    cases vars s <;> rfl

theorem Term.floatOf_eq (o : Operand) : Term.floatOf vars o = Stop.lift (o.number vars) := by
  rw [Term.floatOf, Term.valueOf_eq, Operand.number]
  cases o.resolve vars with
  | error e => rfl
  | ok v =>
    simp only [Stop.lift, bind, Except.bind]
    cases v.asFloat? <;> rfl

theorem Term.fieldOf_eq (o : Operand) (key : String) :
    Term.fieldOf vars o key = Stop.lift (Operand.field vars o (.name key)) := by
  rw [Term.fieldOf, Term.valueOf_eq, Operand.field]
  cases o.resolve vars with
  | error e => rfl
  | ok v =>
    simp only [Stop.lift, bind, Except.bind]
    cases v.asObject? with
    | none => rfl
    | some fields =>
      dsimp only
      cases fields.get? key <;> rfl

theorem Term.onFloats_eq (left right : Operand) (result : Float → Float → Except Stop Value) :
    Term.onFloats vars left right result =
      match Operator.numbers vars left right with
      | .ok (x, y) => result x y
      | .error e => .error (.error e) := by
  rw [Term.onFloats, Term.floatOf_eq, Term.floatOf_eq, Operator.numbers]
  cases left.number vars with
  | error e => rfl
  | ok x => cases right.number vars <;> rfl

theorem Term.onFloats_compared (left right : Operand) (holds : Float → Float → Bool) :
    Term.onFloats vars left right (fun x y => .error (.answer (holds x y))) =
      Yield.toStop (Operator.compared vars left right holds) := by
  rw [Term.onFloats_eq, Operator.compared]
  cases Operator.numbers vars left right <;> rfl

theorem Term.onFloats_computed (left right : Operand) (result : Float → Float → Float) :
    Term.onFloats vars left right (fun x y => .ok (Value.ofNumber (result x y))) =
      Yield.toStop (Operator.computed vars left right result) := by
  rw [Term.onFloats_eq, Operator.computed]
  cases Operator.numbers vars left right <;> rfl

theorem Term.combine_eq (left right : Operand) (op : Operator.Binary) :
    Term.combine vars left right op = Yield.toStop (op.1.eval vars left right) := by
  match op with
  | ⟨.dot, binary⟩ => exact absurd rfl binary
  | ⟨.less, _⟩ | ⟨.lessEq, _⟩ | ⟨.greater, _⟩ | ⟨.greaterEq, _⟩ => exact Term.onFloats_compared ..
  | ⟨.add, _⟩ | ⟨.sub, _⟩ | ⟨.mul, _⟩ => exact Term.onFloats_computed ..
  | ⟨.equal, _⟩ =>
    simp only [Term.combine, Term.valueOf_eq, Operator.eval]
    cases left.resolve vars with
    | error e => rfl
    | ok v => cases right.resolve vars <;> rfl
  | ⟨.div, _⟩ =>
    simp only [Term.combine, Term.onFloats_eq, Operator.eval]
    cases Operator.numbers vars left right with
    | error e => rfl
    | ok xy =>
      dsimp only
      split <;> rfl

end Operators

/-! ## Instructions against trees -/

namespace Instruction

variable (vars : Lookup)

/-- How instructions go on after a sub-expression. -/
def proceed (code : String) (rest : List Instruction) (stack : List Operand) :
    Except Stop Operand → Except ExprError Value
  | .ok o => run code vars rest (o :: stack)
  | .error stop => stop.result

theorem run_apply (code : String) (op : Operator) (rest : List Instruction) (left right : Operand)
    (stack : List Operand) :
    run code vars (.apply op :: rest) (right :: left :: stack) =
      proceed vars code rest stack (.value <$> Yield.toStop (op.eval vars left right)) := by
  rw [run]
  match op.eval vars left right with
  | .ok (.value _) | .ok (.answer _) | .error _ => rfl

/-- Induction on the tree: its instructions leave its operand on the stack, or stop as it does. -/
theorem run_instructions (code : String) (t : Term) (rest : List Instruction) (stack : List Operand) :
    run code vars (t.instructions ++ rest) stack = proceed vars code rest stack (t.operand vars) := by
  induction t generalizing rest stack with
  | number x | text s | name s => rfl
  | field object key ih =>
    rw [Term.instructions, List.append_assoc, ih, Term.operand]
    cases object.operand vars with
    | error stop => rfl
    | ok o =>
      calc run code vars (.name key :: .apply .dot :: rest) (o :: stack)
          = run code vars (.apply .dot :: rest) (.name key :: o :: stack) := rfl
        _ = proceed vars code rest stack
              (.value <$> Yield.toStop (Operator.dot.eval vars o (.name key))) := run_apply ..
        _ = proceed vars code rest stack (.value <$> Term.fieldOf vars o key) := by
            rw [Term.fieldOf_eq, Operator.eval]
            cases Operand.field vars o (.name key) <;> rfl
        _ = _ := rfl
  | apply op left right ihl ihr =>
    rw [Term.instructions, List.append_assoc, List.append_assoc, ihl, Term.operand]
    cases left.operand vars with
    | error stop => rfl
    | ok l =>
      simp only [proceed, ihr]
      cases right.operand vars with
      | error stop => rfl
      | ok r =>
        calc run code vars (.apply op.1 :: rest) (r :: l :: stack)
            = proceed vars code rest stack (.value <$> Yield.toStop (op.1.eval vars l r)) := run_apply ..
          _ = proceed vars code rest stack (.value <$> Term.combine vars l r op) := by rw [Term.combine_eq]
          _ = _ := rfl

theorem run_eq_eval (code : String) (t : Term) :
    run code vars t.instructions [] = t.eval vars := by
  have h := run_instructions vars code t [] []
  rw [List.append_nil] at h
  rw [h, Term.eval]
  cases t.operand vars with
  | error stop => rfl
  | ok o =>
    have hvalue : (Except.ok o >>= Term.valueOf vars) = Term.valueOf vars o := rfl
    rw [hvalue, Term.valueOf_eq, proceed, run]
    cases o.resolve vars <;> rfl

end Instruction

/-! ## What can go wrong -/

/-- An error of the values at hand, not of the form of an expression. -/
def ExprError.OfValues : ExprError → Prop
  | .invalid _ _ _ | .invalidField => False
  | _ => True

def Stop.OfValues : Stop → Prop
  | error e => e.OfValues
  | answer _ => True

namespace Term

variable {vars : Lookup} {stop : Stop}

theorem ofValues_bind {α β : Type} {m : Except Stop α} {f : α → Except Stop β}
    (hm : ∀ {s}, m = .error s → s.OfValues) (hf : ∀ {a s}, f a = .error s → s.OfValues) {s : Stop}
    (h : m >>= f = .error s) : s.OfValues := by
  cases m with
  | error s' =>
    cases h
    exact hm rfl
  | ok a => exact hf h

theorem ofValues_valueOf {o : Operand} (h : valueOf vars o = .error stop) : stop.OfValues := by
  cases o with
  | value v => cases h
  | name s =>
    rw [valueOf] at h
    cases hv : vars s with
    | some v => simp [hv] at h
    | none =>
      rw [hv] at h
      cases h
      trivial

theorem ofValues_floatOf {o : Operand} (h : floatOf vars o = .error stop) : stop.OfValues := by
  refine ofValues_bind ofValues_valueOf (fun {v s} hs => ?_) h
  cases hv : v.asFloat? with
  | some x => simp [hv] at hs
  | none =>
    simp only [hv] at hs
    cases hs
    trivial

theorem ofValues_fieldOf {o : Operand} {key : String} (h : fieldOf vars o key = .error stop) :
    stop.OfValues := by
  refine ofValues_bind ofValues_valueOf (fun {v s} hs => ?_) h
  cases hv : v.asObject? with
  | none =>
    simp only [hv] at hs
    cases hs
    trivial
  | some fields =>
    cases hk : fields.get? key with
    | some w => simp [hv, hk] at hs
    | none =>
      simp only [hv, hk] at hs
      cases hs
      trivial

theorem ofValues_onFloats {left right : Operand} {result : Float → Float → Except Stop Value}
    (hresult : ∀ {x y s}, result x y = .error s → s.OfValues)
    (h : onFloats vars left right result = .error stop) : stop.OfValues :=
  ofValues_bind ofValues_floatOf (fun hs => ofValues_bind ofValues_floatOf hresult hs) h

theorem ofValues_combine {left right : Operand} {op : Operator.Binary}
    (h : combine vars left right op = .error stop) : stop.OfValues := by
  match op with
  | ⟨.dot, binary⟩ => exact absurd rfl binary
  | ⟨.equal, _⟩ =>
    refine ofValues_bind ofValues_valueOf (fun hs => ofValues_bind ofValues_valueOf (fun hs => ?_) hs) h
    cases hs
    trivial
  | ⟨.less, _⟩ | ⟨.lessEq, _⟩ | ⟨.greater, _⟩ | ⟨.greaterEq, _⟩ =>
    refine ofValues_onFloats (fun hs => ?_) h
    cases hs
    trivial
  | ⟨.add, _⟩ | ⟨.sub, _⟩ | ⟨.mul, _⟩ => exact ofValues_onFloats (fun hs => by cases hs) h
  | ⟨.div, _⟩ =>
    refine ofValues_onFloats (fun {x y s} hs => ?_) h
    split at hs <;> cases hs
    trivial

theorem ofValues_operand {t : Term} (h : t.operand vars = .error stop) : stop.OfValues := by
  induction t generalizing stop with
  | number x | text s | name s => cases h
  | field object key ih =>
    exact ofValues_bind ih (fun hs => ofValues_bind ofValues_fieldOf (fun hs => by cases hs) hs) h
  | apply op left right ihl ihr =>
    exact ofValues_bind ihl (fun hs => ofValues_bind ihr (fun hs => ofValues_bind ofValues_combine
      (fun hs => by cases hs) hs) hs) h

theorem ofValues_eval {t : Term} {e : ExprError} (h : t.eval vars = .error e) : e.OfValues := by
  rw [eval] at h
  cases hstop : t.operand vars >>= valueOf vars with
  | ok v => simp [hstop] at h
  | error stop =>
    have := ofValues_bind ofValues_operand ofValues_valueOf hstop
    rw [hstop] at h
    cases stop with
    | error e' =>
      cases h
      exact this
    | answer b => cases h

end Term

namespace Expression

/-- What compiles is an expression of the grammar, compiled to the post-order of its tree. -/
theorem exists_term_of_compile {source : String} {e : Expression} (h : compile source = .ok e) :
    ∃ tokens t, tokenize source = .ok tokens ∧ Derives .expr (tokens.map (·.2)) t ∧
      e = ⟨source, .compiled t.instructions⟩ := by
  rw [compile, Instruction.ofText] at h
  cases htokens : tokenize source with
  | error e => simp [htokens] at h
  | ok tokens =>
    simp only [htokens] at h
    cases his : Instruction.ofTokens source.utf8ByteSize tokens with
    | error e => simp [his] at h
    | ok is =>
      simp only [his] at h
      obtain ⟨t, derives, rfl⟩ := Instruction.derives_of_ofTokens his
      cases h
      exact ⟨tokens, t, rfl, derives, rfl⟩

/-- A compiled expression evaluates as its parse tree does, against any variables. So neither instructions that
lack operands nor a field that is no name come up. -/
theorem evaluate_eq_eval {source : String} {e : Expression} (h : compile source = .ok e) :
    ∃ tokens t, tokenize source = .ok tokens ∧ (∀ t', Derives .expr (tokens.map (·.2)) t' ↔ t' = t) ∧
      ∀ vars, e.evaluate vars = t.eval vars ∧
        (∀ code offset fault, e.evaluate vars ≠ .error (.invalid code offset fault)) ∧
        e.evaluate vars ≠ .error .invalidField := by
  obtain ⟨tokens, t, htokens, derives, rfl⟩ := exists_term_of_compile h
  have same (vars : Lookup) : evaluate ⟨source, .compiled t.instructions⟩ vars = t.eval vars :=
    Instruction.run_eq_eval vars source t
  refine ⟨tokens, t, htokens, fun t' => ⟨fun h' => Instruction.derives_unique h' derives, fun h' => h' ▸ derives⟩,
    fun vars => ⟨same vars, fun code offset fault invalid => ?_, fun invalid => ?_⟩⟩
  · exact Term.ofValues_eval ((same vars).symm.trans invalid)
  · exact Term.ofValues_eval ((same vars).symm.trans invalid)

/-- The field of an object against the sum of two names. -/
theorem evaluate_eq_eval_field : ∃ e, compile "a.b < c + d" = .ok e ∧
    ∃ tokens t, tokenize "a.b < c + d" = .ok tokens ∧ (∀ t', Derives .expr (tokens.map (·.2)) t' ↔ t' = t) ∧
      ∀ vars, e.evaluate vars = t.eval vars ∧
        (∀ code offset fault, e.evaluate vars ≠ .error (.invalid code offset fault)) ∧
        e.evaluate vars ≠ .error .invalidField := by
  have accepted : (Instruction.ofText "a.b < c + d").toOption = some [.name "a", .name "b", .apply .dot, .name "c",
      .name "d", .apply .add, .apply .less] := by
    decide +kernel
  obtain ⟨e, compiles⟩ : ∃ e, compile "a.b < c + d" = .ok e := by
    rw [compile]
    cases h : Instruction.ofText "a.b < c + d" with
    | ok is => exact ⟨_, rfl⟩
    | error e => simp [h, Except.toOption] at accepted
  exact ⟨e, compiles, evaluate_eq_eval compiles⟩

end Expression

end BehaviorTree
