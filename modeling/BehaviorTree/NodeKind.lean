import BehaviorTree.Expr.Error
import BehaviorTree.Ident
import BehaviorTree.Value

/-!
What is known about the nodes of one type without looking at any of them: their category, arguments, slots and
number of children; and the reasons for which a node's configuration is refused.
-/

namespace BehaviorTree
set_option autoImplicit false

inductive InitError where
  | missingArgument (arg : String)
  | invalidArgument (arg : String) (expected : String)
  /-- A `Switch` holds nothing but cases. -/
  | invalidChild (name : String) (id : NodeId)
  | expression (error : ExprError)
  deriving DecidableEq

def InitError.message : InitError → String
  | .missingArgument arg => "missing argument " ++ quoted arg
  | .invalidArgument arg expected => "argument " ++ quoted arg ++ " must be " ++ expected
  | .invalidChild name id =>
    "Switch only accepts Case children, found " ++ name ++ " (id " ++ toString id ++ ")"
  | .expression error => error.message

inductive ArgType where
  | number
  | string
  | bool
  /-- An array of variable names. -/
  | names
  /-- The text of an expression. -/
  | expression
  | any
  deriving DecidableEq, Repr

namespace ArgType

def describe : ArgType → String
  | number => "a number"
  | string => "a string"
  | bool => "a boolean"
  | names => "an array of variable names"
  | expression => "an expression string"
  | any => "a value"

def accepts : ArgType → Value → Bool
  | number, .int _ => true
  | number, .float _ => true
  | string, .string _ => true
  | expression, .string _ => true
  | bool, .bool _ => true
  | names, .array items => items.all fun v => v.asString?.isSome
  | any, _ => true
  | _, _ => false

end ArgType

structure ArgSpec where
  name : String
  type : ArgType
  optional : Bool := false
  deriving DecidableEq, Repr

/-- An argument that is absent or null is missing; one that is there has the declared type. -/
def ArgSpec.validate (spec : ArgSpec) (args : Fields) : Except InitError Unit :=
  match args.get? spec.name with
  | none | some .null => if spec.optional then .ok () else .error (.missingArgument spec.name)
  | some value =>
    if spec.type.accepts value then .ok () else .error (.invalidArgument spec.name spec.type.describe)

inductive Category where
  | action
  | condition
  | decorator
  | composite
  deriving DecidableEq, Repr

inductive ChildCount where
  | exact (n : Nat)
  | unbounded
  deriving DecidableEq, Repr

/-- Leaves have no child, decorators one, and composites any number, unless their type says otherwise. -/
def Category.childCount : Category → ChildCount
  | action | condition => .exact 0
  | decorator => .exact 1
  | composite => .unbounded

/-- A slot whose name ends in a question mark may stay unbound. -/
def isOptionalSlot (slot : String) : Bool := slot.toList.getLast? == some '?'

structure NodeKind where
  name : String
  category : Category
  desc : String := ""
  args : List ArgSpec := []
  input : List String := []
  output : List String := []
  children : ChildCount := category.childCount
  deriving DecidableEq, Repr

end BehaviorTree
