import BehaviorTree.Expr.Instruction
import BehaviorTree.Json.Printer

/-!
Evaluating expressions against variables. A name is looked up only when an operator, or the end, uses it, and the
first comparison ends the evaluation with its boolean.
-/

namespace BehaviorTree
set_option autoImplicit false

abbrev Lookup := String → Option Value

/-- A value, or a name not looked up yet. -/
inductive Operand where
  | name (s : String)
  | value (v : Value)

namespace Operand

def resolve (vars : Lookup) : Operand → Except ExprError Value
  | name s =>
    match vars s with
    | some v => .ok v
    | none => .error (.undefinedVariable s)
  | value v => .ok v

/-- How error messages show an operand: a name as it is, a value by its text. -/
def shown : Operand → String
  | name s => s
  | value v => v.text

def number (vars : Lookup) (o : Operand) : Except ExprError Float :=
  match o.resolve vars with
  | .error e => .error e
  | .ok v =>
    match v.asFloat? with
    | some x => .ok x
    | none => .error (.notANumber o.shown)

def field (vars : Lookup) (object key : Operand) : Except ExprError Value :=
  match key with
  | value _ => .error .invalidField
  | name key =>
    match object.resolve vars with
    | .error e => .error e
    | .ok v =>
      match v.asObject? with
      | none => .error (.notAnObject object.shown)
      | some fields =>
        match fields.get? key with
        | some v => .ok v
        | none => .error (.undefinedField key)

end Operand

/-- What an operator yields: a value to go on with, or the answer of the whole expression. -/
inductive Yield where
  | value (v : Value)
  | answer (b : Bool)

namespace Operator

def numbers (vars : Lookup) (lhs rhs : Operand) : Except ExprError (Float × Float) :=
  match lhs.number vars with
  | .error e => .error e
  | .ok x =>
    match rhs.number vars with
    | .error e => .error e
    | .ok y => .ok (x, y)

def compared (vars : Lookup) (lhs rhs : Operand) (holds : Float → Float → Bool) : Except ExprError Yield :=
  match numbers vars lhs rhs with
  | .error e => .error e
  | .ok (x, y) => .ok (.answer (holds x y))

def computed (vars : Lookup) (lhs rhs : Operand) (result : Float → Float → Float) : Except ExprError Yield :=
  match numbers vars lhs rhs with
  | .error e => .error e
  | .ok (x, y) => .ok (.value (Value.ofNumber (result x y)))

/-- Applies an operator to its operands. -/
def eval (vars : Lookup) (op : Operator) (lhs rhs : Operand) : Except ExprError Yield :=
  match op with
  | dot =>
    match Operand.field vars lhs rhs with
    | .error e => .error e
    | .ok v => .ok (.value v)
  | less => compared vars lhs rhs fun x y => x < y
  | lessEq => compared vars lhs rhs fun x y => x ≤ y
  | greater => compared vars lhs rhs fun x y => y < x
  | greaterEq => compared vars lhs rhs fun x y => y ≤ x
  | equal =>
    match lhs.resolve vars with
    | .error e => .error e
    | .ok v =>
      match rhs.resolve vars with
      | .error e => .error e
      | .ok w => .ok (.answer (v.looseEq w))
  | add => computed vars lhs rhs fun x y => x + y
  | sub => computed vars lhs rhs fun x y => x - y
  | mul => computed vars lhs rhs fun x y => x * y
  | div =>
    match numbers vars lhs rhs with
    | .error e => .error e
    | .ok (x, y) => if y == 0.0 then .error .divisionByZero else .ok (.value (Value.ofNumber (x / y)))

end Operator

/-- Runs instructions on a stack of operands, top first. `code` is only shown if operands run out. -/
def Instruction.run (code : String) (vars : Lookup) :
    List Instruction → List Operand → Except ExprError Value
  | [], [] => .error (.invalid code 0 .malformed)
  | [], top :: _ => top.resolve vars
  | number x :: rest, stack => run code vars rest (.value (Value.ofNumber x) :: stack)
  | text s :: rest, stack => run code vars rest (.value (.string s) :: stack)
  | name s :: rest, stack => run code vars rest (.name s :: stack)
  | apply op :: rest, rhs :: lhs :: stack =>
    match op.eval vars lhs rhs with
    | .error e => .error e
    | .ok (.answer b) => .ok (.bool b)
    | .ok (.value v) => run code vars rest (.value v :: stack)
  | apply _ :: _, _ => .error (.invalid code 0 .malformed)

/-- How an expression is evaluated: by its instructions, or by a function installed for its text. -/
inductive Code where
  | compiled (instructions : List Instruction)
  | native (f : Lookup → Except ExprError Value)

/-- An expression with the text that it comes from. -/
structure Expression where
  source : String
  code : Code

namespace Expression

def compile (source : String) : Except ExprError Expression :=
  match Instruction.ofText source with
  | .ok instructions => .ok ⟨source, .compiled instructions⟩
  | .error e => .error e

/-- Evaluates against variables. -/
def evaluate (e : Expression) (vars : Lookup) : Except ExprError Value :=
  match e.code with
  | .compiled instructions => Instruction.run e.source vars instructions []
  | .native f => f vars

end Expression

end BehaviorTree
