import BehaviorTree.Engine.Frame

/-!
Nodes with one child whose result they change, or which they run again and again.
-/

namespace BehaviorTree
set_option autoImplicit false

namespace Engine

open TickM

variable {σ : Type} (e : Engine σ)

/-- Runs the child, or takes up its result if it was suspended. -/
def onlyChild (site : Site) : TickM σ Status := do
  match ← saved? site with
  | none => e.run (← child site 0)
  | some .marker => childStatus site
  | some _ => rejectPayload site

def wrapped (site : Site) (result : Status → Status) : Status → TickM σ Status
  | .running => suspend site .marker
  | status => return result status

def wrap (site : Site) (result : Status → Status) : TickM σ Status := do
  wrapped site result (← e.onlyChild site)

def invert (site : Site) : TickM σ Status :=
  e.wrap site fun status => if status = .success then .failure else .success

def always (site : Site) (status : Status) : TickM σ Status := e.wrap site fun _ => status

def onceName : String := "once"

/-- Runs the child only the first time and fails on every later run. -/
def once (site : Site) : TickM σ Status := do
  let env ← env
  if env.isSuspended site.id then e.wrap site id
  else if (env.getPrivate? site.id onceName).isSome then return .failure
  else
    modifyEnv (·.setPrivate site.id onceName (some (.bool true)))
    e.wrap site id

def usedUp (limit : Option Nat) (done : Nat) : Bool := limit.any (· ≤ done)

/-- Counts a run of the child that ended, and suspends unless it was the last. -/
def countRun (site : Site) (limit : Option Nat) (policy : RepeatPolicy) (done : Nat) (status : Status) :
    TickM σ Status := do
  if status = policy.stopOn then return status
  else if usedUp limit (done + 1) then return policy.exhausted
  else suspend site (.repeated (done + 1) false)

def startRun (site : Site) (limit : Option Nat) (policy : RepeatPolicy) (done : Nat) : TickM σ Status := do
  if usedUp limit done then return policy.exhausted
  else
    match ← e.run (← child site 0) with
    | .running => suspend site (.repeated done true)
    | status => countRun site limit policy done status

/-- Runs the child again and again, at most one run to its end in a tick, until it gives the result that stops the
loop or the limit is reached. -/
def repeated (site : Site) (limit : Option Nat) (policy : RepeatPolicy) : TickM σ Status := do
  match ← saved? site with
  | none => e.startRun site limit policy 0
  | some (.repeated done true) => countRun site limit policy done (← childStatus site)
  | some (.repeated done false) => e.startRun site limit policy done
  | some _ => rejectPayload site

end Engine

end BehaviorTree
