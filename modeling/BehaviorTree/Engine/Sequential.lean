import BehaviorTree.Engine.Frame

/-!
Nodes that run their children one after the other. Each saves the position of the child that is running, and goes
on behind it when the child has ended.
-/

namespace BehaviorTree
set_option autoImplicit false

namespace Engine

open TickM

variable {σ : Type} (e : Engine σ)

/-- Runs children in order as long as they end with `next`, and passes on a result that differs. `i` is the position
of the first. -/
def chain (site : Site) (next : Status) (i : Nat) : List NodeId → TickM σ Status
  | [] => return next
  | id :: ids => do
    match ← e.run id with
    | .running => suspend site (.index i)
    | status => if status = next then chain site next (i + 1) ids else return status

/-- A chain from the start, or from behind the child that was running. -/
def resumeChain (site : Site) (next : Status) : TickM σ Status := do
  match ← saved? site with
  | none => e.chain site next 0 site.children
  | some (.index i) =>
    let status ← childStatus site
    if status = next then e.chain site next (i + 1) (site.children.drop (i + 1)) else return status
  | some _ => rejectPayload site

/-- Succeeds if all children do, and fails with the first that fails. -/
def sequence (site : Site) : TickM σ Status := e.resumeChain site .success

/-- Fails if all children do, and succeeds with the first that succeeds. -/
def selector (site : Site) : TickM σ Status := e.resumeChain site .failure

/-- A phase of a switch: the condition or the action of a case. -/
def conditionPhase (case : Nat) : Nat := case * 2

def actionPhase (case : Nat) : Nat := case * 2 + 1

def caseAction (site : Site) (case : Nat) (pair : List NodeId) : TickM σ Status := do
  match ← e.run (← element pair 1) with
  | .running => suspend site (.step (actionPhase case))
  | status => return status

def tryCases (site : Site) (case : Nat) : List NodeId → TickM σ Status
  | [] => return .failure
  | id :: ids => do
    let pair := (← node id).children
    match ← e.run (← element pair 0) with
    | .success => e.caseAction site case pair
    | .failure => tryCases site (case + 1) ids
    | .running => suspend site (.step (conditionPhase case))

/-- Runs the action of the first case whose condition succeeds. Conditions and actions run directly, not through
their case. -/
def switch (site : Site) : TickM σ Status := do
  match ← saved? site with
  | none => e.tryCases site 0 site.children
  | some (.step phase) =>
    let status ← childStatus site
    let case := phase / 2
    if phase = actionPhase case then return status
    else if status = .success then
      let pair := (← node (← child site case)).children
      e.caseAction site case pair
    else e.tryCases site (case + 1) (site.children.drop (case + 1))
  | some _ => rejectPayload site

def branchAt (site : Site) (position : Nat) : TickM σ Status := do
  match ← e.run (← child site position) with
  | .running => suspend site (.step position)
  | status => return status

/-- Runs one of two branches, the first of them at position `1`. -/
def branch (site : Site) (condition : Status) : TickM σ Status :=
  match condition with
  | .running => suspend site (.step 0)
  | _ => e.branchAt site (if condition = .success then 1 else 2)

/-- Runs the second child if the first succeeds, the third otherwise. -/
def ifElse (site : Site) : TickM σ Status := do
  match ← saved? site with
  | none => e.branch site (← e.run (← child site 0))
  | some (.step 0) => e.branch site (← childStatus site)
  | some (.step _) => childStatus site
  | some _ => rejectPayload site

inductive PassEnd where
  | passed
  | failed
  | suspended
  deriving DecidableEq, Repr

/-- Runs the children of a pass from a position on until one does not succeed. -/
def pass (site : Site) (iteration i : Nat) : List NodeId → TickM σ PassEnd
  | [] => return .passed
  | id :: ids => do
    match ← e.run id with
    | .success => pass site iteration (i + 1) ids
    | .failure => return .failed
    | .running =>
      let _ ← suspend site (.cursor iteration i)
      return .suspended

/-- Makes a number of passes, preparing each with `enter`. -/
def passes (site : Site) (enter : Nat → TickM σ Unit) : Nat → Nat → TickM σ Status
  | 0, _ => return .success
  | count + 1, iteration => do
    enter iteration
    match ← e.pass site iteration 0 site.children with
    | .passed => passes site enter count (iteration + 1)
    | .failed => return .failure
    | .suspended => return .running

/-- Makes passes over the children up to a number of iterations. A pass that was under way is finished first, unless
the number no longer reaches it. -/
def iterate (site : Site) (iterations : Nat) (enter : Nat → TickM σ Unit) : TickM σ Status := do
  match ← saved? site with
  | none => e.passes site enter iterations 0
  | some (.cursor iteration i) =>
    match ← childStatus site with
    | .success =>
      if iteration < iterations then
        match ← e.pass site iteration (i + 1) (site.children.drop (i + 1)) with
        | .passed => e.passes site enter (iterations - (iteration + 1)) (iteration + 1)
        | .failed => return .failure
        | .suspended => return .running
      else return .success
    | status => return status
  | some _ => rejectPayload site

def writeSlot (name : Option String) (value : Option Value) : TickM σ Unit :=
  match name with
  | some name => modifyEnv (·.set name value)
  | none => return

/-- Makes a pass for each element of the array in the input slot, with the element and its index in the variables
bound to the output slots. -/
def forEach (site : Site) : TickM σ Status := do
  match (← env).input? 0 with
  | some (.array items) =>
    e.iterate site items.length fun i => do
      writeSlot (site.outputVar? 0) (some (← element items i))
      writeSlot (site.outputVar? 1) (some (.int i))
  | _ =>
    report fun tree => .notAnArray tree site.id
    return .failure

/-- Makes a fixed number of passes, with the index in the variable bound to the output slot. -/
def loop (site : Site) (count : Nat) : TickM σ Status :=
  e.iterate site count fun i =>
    writeSlot (site.outputVar? 0) (some (Value.ofNumber (Binary64.nearestInt i)))

end Engine

end BehaviorTree
