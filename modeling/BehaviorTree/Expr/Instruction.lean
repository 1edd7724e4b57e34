import BehaviorTree.Expr.Lexeme

/-!
Infix tokens into instructions for a stack machine: operands first, then their operator, in the order in which
a reader would finish them. Operators wait in a yard until one that binds less tightly, or a closing
parenthesis, releases them; a malformed expression is refused at the token where it goes wrong.
-/

namespace BehaviorTree
set_option autoImplicit false

inductive Instruction where
  | number (x : Float)
  | text (s : String)
  | name (s : String)
  /-- Takes two operands off the stack, the right one first, and puts the result on it. -/
  | apply (op : Operator)
  deriving DecidableEq

/-- An operator or an opening parenthesis that waits for its right end. -/
inductive Waiting where
  | operator (op : Operator)
  | openParen
  deriving DecidableEq, Repr

/-- The state between two tokens. Output and waiting list are kept newest first. -/
structure Yard where
  output : List Instruction := []
  waiting : List (Nat × Waiting) := []
  operandDue : Bool := true
  fieldDue : Bool := false
  deriving DecidableEq

namespace Yard

/-- Releases the waiting operators that bind at least as tightly as `op`. -/
def release (op : Operator) : List (Nat × Waiting) → List Instruction →
    List (Nat × Waiting) × List Instruction
  | (offset, .operator top) :: waiting, output =>
    if top.precedence < op.precedence then ((offset, .operator top) :: waiting, output)
    else release op waiting (.apply top :: output)
  | waiting, output => (waiting, output)

/-- Releases operators down to the nearest opening parenthesis and removes it; none if there is no such. -/
def closeGroup : List (Nat × Waiting) → List Instruction → Option (List (Nat × Waiting) × List Instruction)
  | [], _ => none
  | (_, .openParen) :: waiting, output => some (waiting, output)
  | (_, .operator top) :: waiting, output => closeGroup waiting (.apply top :: output)

/-- Releases all operators at the end; the error is the offset of an opening parenthesis left over. -/
def releaseAll : List (Nat × Waiting) → List Instruction → Except Nat (List Instruction)
  | [], output => .ok output
  | (offset, .openParen) :: _, _ => .error offset
  | (_, .operator top) :: waiting, output => releaseAll waiting (.apply top :: output)

def operand (y : Yard) (i : Instruction) : Except ExprFault Yard :=
  if y.operandDue then .ok { y with output := i :: y.output, operandDue := false, fieldDue := false }
  else .error .expectedOperator

def step (y : Yard) (offset : Nat) (t : Token) : Except ExprFault Yard :=
  match t with
  | .name s => y.operand (.name s)
  | _ =>
    if y.fieldDue then .error .expectedField
    else
      match t with
      | .number x => y.operand (.number x)
      | .text s => y.operand (.text s)
      | .name s => y.operand (.name s)
      | .operator op =>
        if y.operandDue then .error .expectedOperand
        else
          let (waiting, output) := release op y.waiting y.output
          .ok ⟨output, (offset, .operator op) :: waiting, true, op = .dot⟩
      | .openParen =>
        if y.operandDue then .ok { y with waiting := (offset, .openParen) :: y.waiting }
        else .error .expectedOperator
      | .closeParen =>
        if y.operandDue then .error .expectedOperand
        else
          match closeGroup y.waiting y.output with
          | some (waiting, output) => .ok { y with output, waiting }
          | none => .error .unmatchedClose

/-- Takes tokens in order; the error comes with the offset of the token that is refused. -/
def run (y : Yard) : List (Nat × Token) → Except (Nat × ExprFault) Yard
  | [] => .ok y
  | (offset, t) :: rest =>
    match y.step offset t with
    | .ok y => y.run rest
    | .error fault => .error (offset, fault)

/-- The instructions in order, once all tokens of a text that ends at byte `size` are taken. -/
def finish (y : Yard) (size : Nat) : Except (Nat × ExprFault) (List Instruction) :=
  if y.operandDue then .error (size, .unexpectedEnd)
  else
    match releaseAll y.waiting y.output with
    | .ok output => .ok output.reverse
    | .error offset => .error (offset, .unmatchedOpen)

end Yard

/-- The instructions of a token list from a text of `size` bytes. -/
def Instruction.ofTokens (size : Nat) (tokens : List (Nat × Token)) :
    Except (Nat × ExprFault) (List Instruction) :=
  match Yard.run {} tokens with
  | .ok y => y.finish size
  | .error e => .error e

def Instruction.ofText (code : String) : Except ExprError (List Instruction) :=
  match tokenize code with
  | .error e => .error e
  | .ok tokens =>
    match Instruction.ofTokens code.utf8ByteSize tokens with
    | .ok instructions => .ok instructions
    | .error (offset, fault) => .error (.invalid code offset fault)

end BehaviorTree
