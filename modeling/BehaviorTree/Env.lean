import BehaviorTree.Payload

/-!
The state of one running tree: its variables in three namespaces, its execution stack, and the slot values of the
node that is running. Nothing here knows which tree it belongs to.
-/

namespace BehaviorTree
set_option autoImplicit false

/-- Variables by name. -/
abbrev Variables := Std.ExtTreeMap String Value

/-- Stores a value under a name; an absent value removes the name. -/
def Variables.assign (vars : Variables) (name : String) (value : Option Value) : Variables :=
  match value with
  | some v => Std.ExtTreeMap.insert vars name v
  | none => Std.ExtTreeMap.erase vars name

theorem Variables.getElem?_assign (vars : Variables) (name key : String) (value : Option Value) :
    (vars.assign name value)[key]? = if name = key then value else vars[key]? := by
  cases value <;> simp [assign, Std.ExtTreeMap.getElem?_insert, Std.ExtTreeMap.getElem?_erase]

def Variables.ofFields (fields : Fields) : Variables :=
  fields.foldl (fun vars (name, v) => Std.ExtTreeMap.insert vars name v) ∅

structure Env where
  /-- The user's variables. -/
  vars : Variables := ∅
  /-- Variables of single nodes, which outlive an interruption. -/
  privates : Std.ExtTreeMap PrivateKey Value := ∅
  /-- The payloads of suspended nodes. -/
  temps : Temps := ∅
  stack : Stack := ∅
  /-- Stacks of children of listening nodes that were still running when their event had been handled. -/
  detached : Std.ExtTreeMap NodeId Stack := ∅
  /-- Listening nodes whose subscription is live. -/
  listening : Std.ExtTreeSet NodeId := ∅
  /-- The values of the running node's input slots. -/
  input : List (Option Value) := []
  /-- The values that the running node has produced for its output slots. -/
  output : List (Option Value) := []
  /-- How the node that returned last ended. -/
  lastStatus : Status := .success

namespace Env

instance : Inhabited Env := ⟨{}⟩

def get? (env : Env) (name : String) : Option Value := env.vars[name]?

def set (env : Env) (name : String) (value : Option Value) : Env :=
  { env with vars := env.vars.assign name value }

def getPrivate? (env : Env) (id : NodeId) (name : String) : Option Value := env.privates[PrivateKey.mk id name]?

def setPrivate (env : Env) (id : NodeId) (name : String) (value : Option Value) : Env :=
  match value with
  | some v => { env with privates := env.privates.insert ⟨id, name⟩ v }
  | none => { env with privates := env.privates.erase ⟨id, name⟩ }

def isSuspended (env : Env) (id : NodeId) : Bool := env.temps.contains id

def setPayload (env : Env) (id : NodeId) (payload : Payload) : Env :=
  { env with temps := env.temps.insert id payload }

def popFrame (env : Env) : Env :=
  let (stack, temps) := env.stack.pop env.temps
  { env with stack, temps }

/-- Forgets a stack that was cut off, with all payloads that it leads to. -/
def abandon (env : Env) (saved : Stack) : Env := { env with temps := saved.clear env.temps }

def input? (env : Env) (slot : Nat) : Option Value := env.input[slot]?.join

/-- Appends a value for the next output slot; an absent one will remove the variable bound to it. -/
def pushOutput (env : Env) (value : Option Value) : Env := { env with output := env.output ++ [value] }

/-- Drops every suspended node, wherever it is parked. User and private variables stay. -/
def unwind (env : Env) : Env :=
  { env with
    stack := ∅, temps := ∅, detached := ∅, listening := ∅, input := [], output := [] }

theorem get?_set (env : Env) (name key : String) (value : Option Value) :
    (env.set name value).get? key = if name = key then value else env.get? key :=
  Variables.getElem?_assign env.vars name key value

@[simp] theorem get?_set_self (env : Env) (name : String) (value : Option Value) :
    (env.set name value).get? name = value := by
  simp [get?_set]

theorem isSuspended_eq (env : Env) (id : NodeId) : env.isSuspended id = env.temps[id]?.isSome :=
  Std.ExtTreeMap.contains_eq_isSome_getElem?

theorem isSuspended_setPayload (env : Env) (id other : NodeId) (payload : Payload) :
    (env.setPayload id payload).isSuspended other ↔ id = other ∨ env.isSuspended other := by
  simp [isSuspended, setPayload, Std.LawfulEqCmp.compare_eq_iff_eq]

end Env

end BehaviorTree
