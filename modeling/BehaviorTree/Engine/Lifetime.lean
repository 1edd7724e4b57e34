import BehaviorTree.Engine.Node

/-!
The life of an instance: its ticks, the jobs that reach it between them, interruption and clearing. While anything
of an instance is under way it counts as executing; jobs are then queued, and requests to interrupt or clear it are
noted and served at the end.
-/

namespace BehaviorTree
set_option autoImplicit false

namespace Engine

open TickM

variable {σ : Type} (e : Engine σ)

def giveBack (owner : Tag) (t : Tick σ) : World σ :=
  (t.world.modifyInstance owner fun i => { i with env := t.env }).observe owner .left

/-- Lends the state of an instance to a computation, and takes it back however that ends. -/
def activate {α : Type} (owner : Tag) (m : TickM σ α) : WorldM σ (Except RunError α) := do
  modify (·.observe owner .entered)
  let i := (← get).instanceOf owner
  match m ⟨owner, i.tree⟩ ⟨i.env, ← get⟩ with
  | .ok a t =>
    set (giveBack owner t)
    return .ok a
  | .failed error t =>
    set (giveBack owner t)
    return .error error
  | .halted h => throw h

/-- Gives variables the values, or absence, in a list, one after the other. -/
def assignAll (values : List (String × Option Value)) : TickM σ Unit :=
  modifyEnv fun env => values.foldl (fun env (name, value) => env.set name value) env

def cutOff (id : NodeId) : Status × Stack → TickM σ Unit
  | (.running, left) => do
    report fun tree => .jobAbandoned tree id
    abandon left
  | _ => return

/-- Runs the child of a delay with the variables that were put by for it, and gives them back what they had just
before. A child that is still running is abandoned. -/
def runDelayed (id : NodeId) (cache : List (String × Option Value)) : TickM σ Unit := do
  let env ← env
  let before := cache.map fun (name, _) => (name, env.get? name)
  assignAll cache
  let result ← attempt do cutOff id (← e.runCaptured id)
  assignAll before
  ofExcept result

/-- Writes an event to the variables bound to a listener's output slots. -/
def writeEvent (listener : Node) (event : Event) : TickM σ Unit := do
  writeSlot (listener.outputVar? 0) (event.target.map .string)
  writeSlot (listener.outputVar? 1) (some (.array event.args))

def takeOff (listener : NodeId) : TickM σ Unit := do
  match (← env).detached[listener]? with
  | some previous =>
    modifyEnv fun env => { env with detached := env.detached.erase listener }
    abandon previous
  | none => return

def park (listener : NodeId) : Status × Stack → TickM σ Unit
  | (.running, left) => modifyEnv fun env => { env with detached := env.detached.insert listener left }
  | _ => return

/-- Lets the child of a listener run for an event. A child still running from an earlier event is abandoned first,
and one that is running now is parked. -/
def runFired (listener only : NodeId) (event : Event) : TickM σ Unit := do
  takeOff listener
  writeEvent (← node listener) event
  park listener (← e.runCaptured only)

/-- Does something on top of the suspended tree. If it fails it leaves no frames, and the last status is kept. -/
def aside (m : TickM σ Unit) : TickM σ Unit := do
  let before ← env
  let result ← attempt m
  if result matches .error _ then
    let (stack, above) := (← env).stack.splitAt before.stack.size
    modifyEnv fun env => { env with stack }
    abandon above
  modifyEnv fun env => { env with lastStatus := before.lastStatus }
  ofExcept result

def runFor : Job → TickM σ Unit
  | .delayed id cache => e.runDelayed id cache
  | .fired listener only event => e.runFired listener only event

def runJob (job : Job) : TickM σ Unit := do
  observe (.started job)
  aside (e.runFor job)

def runNext (owner : Tag) : WorldM σ Unit := do
  match ((← get).instanceOf owner).pending with
  | [] => return
  | job :: rest =>
    modify (·.modifyInstance owner fun i => { i with pending := rest })
    match ← activate owner (e.runJob job) with
    | .ok () => pure ()
    | .error error => modify (·.report (.jobFailed owner error))
    if ((← get).instanceOf owner).interrupted then return
    else e.runPending owner

/-- Drops what an instance left in the world, its waiting jobs, and every suspended node. -/
def release (owner : Tag) : WorldM σ Unit := do
  modify (·.releaseTag owner)
  modify (·.observe owner .unwound)
  modify (·.modifyInstance owner fun i => { i with pending := [], env := i.env.unwind })

def whileExecuting (owner : Tag) (m : WorldM σ Unit) : WorldM σ Unit := do
  let before := ((← get).instanceOf owner).executing
  modify (·.modifyInstance owner fun i => { i with executing := true })
  m
  modify (·.modifyInstance owner fun i => { i with executing := before })

/-- Lets those who listen for the end of an instance act, and releases it; `forget` is what becomes of its state. -/
def windUp (owner : Tag) (event : Lifecycle) (forget : Env → Env) : WorldM σ Unit :=
  whileExecuting owner do
    e.announce owner event []
    e.runPending owner
    release owner
    modify (·.modifyInstance owner fun i => { i with env := forget i.env, interrupted := false })

/-- Unwinds an instance, lets those who listen for its interruption act on the bare tree, and releases it. -/
def interruptNow (owner : Tag) : WorldM σ Unit := do
  modify (·.observe owner .unwound)
  modify (·.modifyInstance owner fun i => { i with interrupted := false, pending := [], env := i.env.unwind })
  e.windUp owner .interrupted id
  modify (·.report (.interrupted owner))

/-- Lets those who listen for its clearing act, and then forgets the whole state of an instance. -/
def clearNow (owner : Tag) : WorldM σ Unit := do
  modify (·.modifyInstance owner fun i => { i with clearRequested := false })
  e.windUp owner .cleaned fun _ => {}
  modify (·.report (.cleared owner))

def drain (owner : Tag) : WorldM σ Unit :=
  whileExecuting owner do
    e.runPending owner
    if ((← get).instanceOf owner).interrupted then e.interruptNow owner

/-- Queues a job, and runs the queue at once unless the instance is executing. An instance that was given up takes
no more jobs once nothing of it is under way. -/
def schedule (owner : Tag) (job : Job) : WorldM σ Unit := do
  let i := (← get).instanceOf owner
  if i.dropped && !i.executing then return
  modify (·.observe owner (.queued job))
  modify (·.modifyInstance owner fun i => { i with pending := i.pending ++ [job] })
  unless i.executing do e.drain owner

/-- The tick proper: nothing if an interruption is asked for already, else the suspended frames or the root. -/
def tick (owner : Tag) : WorldM σ (Except RunError Status) := do
  let i := (← get).instanceOf owner
  if i.interrupted then return .ok .running
  else if i.env.stack.isEmpty then activate owner (e.run i.tree.root)
  else activate owner (e.resume 0)

def settledEvent? : Status → Option Lifecycle
  | .success => some .afterRunSuccess
  | .failure => some .afterRunFailure
  | .running => none

def announceSettled (owner : Tag) (status : Status) : WorldM σ Unit :=
  match settledEvent? status with
  | some event => e.announce owner event []
  | none => return

/-- What follows a tick that returned a status: an interruption if one is asked for, otherwise the lifecycle events
and the jobs that were queued meanwhile. -/
def settleTick (owner : Tag) (status : Status) : WorldM σ Status := do
  if ((← get).instanceOf owner).interrupted then
    e.interruptNow owner
    return .failure
  else
    e.announce owner .afterRun [.string status.text]
    e.announceSettled owner status
    e.drain owner
    return status

def busy (i : Instance) : RunError := .alreadyRunning i.tree.name

/-- The first part of a run: those who listen for its beginning act, and then the tick runs. -/
def openRun (owner : Tag) : WorldM σ (Except RunError Status) := do
  modify (·.modifyInstance owner fun i => { i with executing := true })
  e.announce owner .beforeRun []
  e.tick owner

/-- What follows a tick. One that failed leaves nothing suspended; a clearing that is asked for comes last. -/
def afterTick (owner : Tag) : Except RunError Status → WorldM σ (Except RunError Status)
  | .error error => do
    let tree := ((← get).instanceOf owner).tree
    modify (·.report (.tickFailed tree.name error))
    release owner
    modify (·.modifyInstance owner fun i => { i with interrupted := false })
    return .error error
  | .ok status => do
    let status ← e.settleTick owner status
    if ((← get).instanceOf owner).clearRequested then e.clearNow owner
    return .ok status

def closeRun (owner : Tag) (result : Except RunError Status) : WorldM σ (Except RunError Status) := do
  let result ← e.afterTick owner result
  modify (·.modifyInstance owner fun i => { i with executing := false })
  return result

/-- Runs one tick of an instance. -/
def runTree (owner : Tag) : WorldM σ (Except RunError Status) := do
  let i := (← get).instanceOf owner
  if i.executing then return .error (busy i)
  else
    let result ← e.openRun owner
    e.closeRun owner result

/-- Interrupts an instance: at once if it is idle, else when what is under way returns. -/
def interruptTree (owner : Tag) : WorldM σ Unit := do
  modify (·.observe owner (.requested false))
  if ((← get).instanceOf owner).executing then
    modify (·.modifyInstance owner fun i => { i with interrupted := true })
  else e.interruptNow owner

/-- Clears an instance: at once if it is idle, else when what is under way returns. -/
def clearTree (owner : Tag) : WorldM σ Unit := do
  modify (·.observe owner (.requested true))
  if ((← get).instanceOf owner).executing then
    modify (·.modifyInstance owner fun i => { i with interrupted := true, clearRequested := true })
  else e.clearNow owner

/-- Gives an idle instance another tree. User variables stay. -/
def setTree (owner : Tag) (tree : Tree) : WorldM σ (Except RunError Unit) := do
  let i := (← get).instanceOf owner
  if i.executing then return .error (busy i)
  else
    release owner
    modify (·.modifyInstance owner fun i => { i with tree, env := { i.env with privates := ∅ } })
    return .ok ()

end Engine

end BehaviorTree
