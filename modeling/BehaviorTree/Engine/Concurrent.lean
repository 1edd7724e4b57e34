import BehaviorTree.Engine.Frame

/-!
Nodes that keep children in flight beside their own frame. While such a node is suspended, the frames of its
children are saved in its payload, and it stays the top frame of the stack that it is on.
-/

namespace BehaviorTree
set_option autoImplicit false

namespace Engine

open TickM

variable {σ : Type} (e : Engine σ)

/-- The frames saved for each child; none if the node starts afresh. -/
def savedBranches (site : Site) : TickM σ (Option (List (Option Stack))) := do
  match ← saved? site with
  | none => return none
  | some (.branches saved) =>
    if saved.length = site.children.length then return some saved else rejectPayload site
  | some _ => rejectPayload site

/-- Steps every child once that has not finished, and collects the frames that are left. -/
def stepAll (fresh : Bool) : List (NodeId × Option Stack) → TickM σ (List (Option Stack))
  | [] => return []
  | (id, saved) :: rest => do
    if !fresh && saved.isNone then
      return none :: (← stepAll fresh rest)
    else
      let (status, left) ← e.stepBranch id (if fresh then none else saved)
      let here := if status = .running then some left else none
      return here :: (← stepAll fresh rest)

def stepParallel (site : Site) (fresh : Bool) (saved : List (Option Stack)) : TickM σ Status := do
  let left ← e.stepAll fresh (site.children.zip saved)
  if left.any Option.isSome then suspend site (.branches left) else return .success

/-- Runs every child each tick until all of them have finished, and then succeeds. -/
def parallel (site : Site) : TickM σ Status := do
  let previous ← savedBranches site
  e.stepParallel site previous.isNone (previous.getD (site.children.map fun _ => none))

/-- Steps the children that have not finished until one succeeds. `passed` are the frames of those that were stepped
already, the last first; the result is the winning tick's rest, or the frames that are left. -/
def raceAll (fresh : Bool) (passed : List (Option Stack)) :
    List (NodeId × Option Stack) → TickM σ (Bool × List (Option Stack))
  | [] => return (false, passed.reverse)
  | (id, saved) :: rest => do
    if saved.isNone then raceAll fresh (none :: passed) rest
    else
      let (status, left) ← e.stepBranch id (if fresh then none else saved)
      match status with
      | .running => raceAll fresh (some left :: passed) rest
      | .failure => raceAll fresh (none :: passed) rest
      | .success => return (true, passed.reverse ++ none :: rest.map (·.2))

def abandonAll (left : List (Option Stack)) : TickM σ Unit := (left.filterMap id).forM abandon

def stepRace (site : Site) (fresh : Bool) (saved : List (Option Stack)) : TickM σ Status := do
  let (won, left) ← e.raceAll fresh [] (site.children.zip saved)
  if won then
    abandonAll left
    return .success
  else if left.any Option.isSome then suspend site (.branches left)
  else return .failure

/-- Runs every child each tick until one succeeds, whose rivals are abandoned, or all have failed. -/
def race (site : Site) : TickM σ Status := do
  let previous ← savedBranches site
  e.stepRace site previous.isNone (previous.getD (site.children.map fun _ => some ∅))

/-- Runs the child of a watchdog that cleans up, and gives it up if it does not finish at once. -/
def cleanUp (site : Site) : TickM σ Unit := do
  let (status, left) ← e.runCaptured (← child site 2)
  if status = .running then
    report fun tree => .cleanupAbandoned tree site.id
    abandon left

/-- Lets the guarded child go on. -/
def guarded (site : Site) (saved : Option Stack) : TickM σ Status := do
  let (status, left) ← e.stepBranch (← child site 1) saved
  match status with
  | .running => suspend site (.guarded left)
  | status => return status

def guardFailed (site : Site) (saved : Stack) : TickM σ Status := do
  report fun tree => .guardFailed tree site.id
  abandon saved
  e.cleanUp site
  return .failure

/-- Runs the guard of a watchdog, and then what it guards. -/
def guard (site : Site) (saved : Option Stack) : TickM σ Status := do
  match ← e.run (← child site 0) with
  | .running => rejectStatus site .running
  | .success => e.guarded site saved
  | .failure =>
    match saved with
    | none => return .failure
    | some saved => e.guardFailed site saved

/-- Runs the second child while the first keeps succeeding. When the first fails, the second is abandoned and the
third cleans up, unless the second has not been started yet. -/
def watchdog (site : Site) : TickM σ Status := do
  match ← saved? site with
  | none => e.guard site none
  | some (.guarded saved) => e.guard site (some saved)
  | some _ => rejectPayload site

def expire (site : Site) (expiry : Float) : Status × Stack → TickM σ Status
  | (.running, left) => do
    if expiry ≤ (← time) then
      report fun tree => .timedOut tree site.id
      abandon left
      return .failure
    else suspend site (.deadline expiry left)
  | (status, _) => return status

/-- Fails if the child is still running once a time has passed since its first run. The child gets the tick on which
the time is up. -/
def timeout (site : Site) (limit : Float) : TickM σ Status := do
  match ← saved? site with
  | none =>
    let result ← e.runCaptured (← child site 0)
    expire site ((← time) + limit) result
  | some (.deadline expiry saved) => expire site expiry (← e.resumeCaptured saved)
  | some _ => rejectPayload site

end Engine

end BehaviorTree
