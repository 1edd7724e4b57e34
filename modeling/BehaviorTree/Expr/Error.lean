import BehaviorTree.Text.Quoted

/-!
What can go wrong when an expression is compiled or evaluated, and the wording of each case.
-/

namespace BehaviorTree
set_option autoImplicit false

/-- What a malformed expression lacks at the offset where it goes wrong. -/
inductive ExprFault where
  | unexpectedCharacter
  | expectedField
  | expectedOperator
  | expectedOperand
  | unmatchedClose
  | unmatchedOpen
  | unexpectedEnd
  | malformed
  deriving DecidableEq, Repr

def ExprFault.message : ExprFault → String
  | .unexpectedCharacter => "unexpected character"
  | .expectedField => "expected a field name after '.'"
  | .expectedOperator => "expected an operator"
  | .expectedOperand => "expected an operand"
  | .unmatchedClose => "unmatched ')'"
  | .unmatchedOpen => "unmatched '('"
  | .unexpectedEnd => "unexpected end of expression"
  | .malformed => "malformed expression"

inductive ExprError where
  /-- The text is no expression; the offset counts bytes. -/
  | invalid (code : String) (offset : Nat) (fault : ExprFault)
  | undefinedVariable (name : String)
  | notANumber (operand : String)
  | notAnObject (operand : String)
  | undefinedField (key : String)
  | invalidField
  | divisionByZero
  deriving DecidableEq, Repr

def ExprError.message : ExprError → String
  | .invalid code offset fault =>
    "syntax error in " ++ quoted code ++ " at offset " ++ toString offset ++ ": " ++ fault.message
  | .undefinedVariable name => "variable " ++ quoted name ++ " is not defined"
  | .notANumber operand => quoted operand ++ " is not a number"
  | .notAnObject operand => quoted operand ++ " is not an object"
  | .undefinedField key => "object has no field " ++ quoted key
  | .invalidField => "the right hand side of '.' must be a field name"
  | .divisionByZero => "division by zero"

end BehaviorTree
