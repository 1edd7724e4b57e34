import BehaviorTree.Engine.Basic

/-!
Frames of the execution stack: how a node suspends and finds its payload again, how the frames above a level are
resumed, and how the frames of a child are cut off to be put back later.
-/

namespace BehaviorTree
set_option autoImplicit false

namespace TickM

variable {σ α : Type}

def saved? (site : Site) : TickM σ (Option Payload) := do return (← env).temps[site.id]?

def suspend (site : Site) (payload : Payload) : TickM σ Status := do
  modifyEnv (·.setPayload site.id payload)
  return .running

def rejectPayload (site : Site) : TickM σ α := do
  fail (.unexpectedPayload (← tree).name site.name site.id)

def rejectStatus (site : Site) (status : Status) : TickM σ α := do
  fail (.unexpectedStatus (← tree).name site.name site.id status)

/-- How the child of a resumed node ended. A node is resumed only after its child is off the stack, so a child that
is still running is an error. -/
def childStatus (site : Site) : TickM σ Status := do
  match (← env).lastStatus with
  | .running => rejectStatus site .running
  | status => return status

def node (id : NodeId) : TickM σ Node := do
  let tree ← tree
  match tree.get? id with
  | some node => return node
  | none => fail (.unknownNode tree.name id)

def child (site : Site) (i : Nat) : TickM σ NodeId := element site.children i

/-- Cuts off the frames at or above a level if a child is running; otherwise there are none. -/
def capture (status : Status) (level : Nat) : TickM σ Stack := do
  match status with
  | .running =>
    let (stack, above) := (← env).stack.splitAt level
    modifyEnv fun env => { env with stack }
    return above
  | _ => return ∅

def abandon (saved : Stack) : TickM σ Unit := modifyEnv (·.abandon saved)

end TickM

namespace Engine

open TickM

variable {σ : Type} (e : Engine σ)

/-- One round of resuming: runs the deepest frame above a level and goes on below it. -/
def resumeAbove (level : Nat) : TickM σ Status := do
  let env ← env
  match env.stack.top? with
  | none => return env.lastStatus
  | some top =>
    if env.stack.size ≤ level then return env.lastStatus
    else
      match ← e.run top with
      | .running => return .running
      | _ => e.resume level

/-- Runs a node and cuts off the frames that it leaves. -/
def runCaptured (id : NodeId) : TickM σ (Status × Stack) := do
  let level := (← env).stack.size
  let status ← e.run id
  return (status, ← capture status level)

/-- Puts frames back, resumes them, and cuts off those that are left. -/
def resumeCaptured (saved : Stack) : TickM σ (Status × Stack) := do
  let level := (← env).stack.size
  modifyEnv fun env => { env with stack := env.stack ++ saved }
  let status ← e.resume level
  return (status, ← capture status level)

def stepBranch (id : NodeId) : Option Stack → TickM σ (Status × Stack)
  | none => e.runCaptured id
  | some saved => e.resumeCaptured saved

end Engine

end BehaviorTree
