import BehaviorTree.NodeKind

/-!
Trees as they are authored: a node's type, arguments and slot bindings, and the nodes below it.
-/

namespace BehaviorTree
set_option autoImplicit false

/-- The authored configuration of a node. -/
structure NodeSpec where
  id : NodeId
  /-- The name under which the node's type is registered. -/
  name : String
  desc : String := ""
  args : Fields := []
  debug : Bool := false
  /-- A disabled node is left out of the tree, with everything below it. -/
  disabled : Bool := false
  /-- Variables bound to the input slots, in their order; an empty name leaves a slot unbound. -/
  input : List String := []
  output : List String := []
  children : List NodeSpec := []
deriving Inhabited

namespace NodeSpec

def arg? (spec : NodeSpec) (key : String) : Option Value := spec.args.get? key

def floatArg? (spec : NodeSpec) (key : String) : Option Float := (spec.arg? key).bind Value.asFloat?

def stringArg? (spec : NodeSpec) (key : String) : Option String := (spec.arg? key).bind Value.asString?

def enabled (spec : NodeSpec) : List NodeSpec := spec.children.filter (!·.disabled)

def withArg (spec : NodeSpec) (key : String) (value : Value) : NodeSpec :=
  { spec with args := spec.args.insert key value }

def requireNumber (spec : NodeSpec) (key : String) : Except InitError Float :=
  match spec.floatArg? key with
  | some x => .ok x
  | none => .error (.missingArgument key)

def requireString (spec : NodeSpec) (key : String) : Except InitError String :=
  match spec.stringArg? key with
  | some s => .ok s
  | none => .error (.missingArgument key)

/-- A count that an argument may give. -/
def countArg? (spec : NodeSpec) (key : String) : Except InitError (Option Nat) :=
  match spec.arg? key with
  | none | some .null => .ok none
  | some value =>
    match value.asNat? with
    | some n => .ok (some n)
    | none => .error (.invalidArgument key "a non-negative integer")

end NodeSpec

/-- An authored tree. -/
structure TreeSpec where
  name : String
  desc : String := ""
  root : NodeSpec

end BehaviorTree
