import BehaviorTree.Engine.Acting
import BehaviorTree.Engine.Concurrent
import BehaviorTree.Engine.Sequential
import BehaviorTree.Engine.Signaling
import BehaviorTree.Engine.Wrapping

/-!
Running one node: its frame, its slots, its behavior, and what its result does to the frame and to the variables
bound to its output slots.
-/

namespace BehaviorTree
set_option autoImplicit false

namespace Engine

open TickM

variable {σ : Type} (e : Engine σ)

/-- The behavior of a node. -/
def behave (site : Site) : Behavior → TickM σ Status
  | .sequence => e.sequence site
  | .selector => e.selector site
  | .parallel => e.parallel site
  | .race => e.race site
  | .switch => e.switch site
  | .case => do fail (.misplaced (← tree).name site.name site.id "Switch")
  | .ifElse => e.ifElse site
  | .forEach => e.forEach site
  | .loop count => e.loop site count
  | .watchdog => e.watchdog site
  | .repeated limit policy => e.repeated site limit policy
  | .invert => e.invert site
  | .always status => e.always site status
  | .once => e.once site
  | .timeout limit => e.timeout site limit
  | .delay span cache => putOff site span cache
  | .wait span => wait site span
  | .listen event => listen site event
  | .dispatch event => e.dispatchNode site event
  | .check expr => check site expr
  | .calculate expr => calculate site expr
  | .copy => copy site
  | .isNull => isNull
  | .notNull => notNull
  | .log level text => log site level text
  | .now => now
  | .leaf react => leaf site react
  | .routine steps => e.routine site (steps site)

/-- Runs a behavior with slot values of its own: the inputs that are bound now and no outputs. The caller's values
are there again afterwards, also after a failure. The result comes with the outputs. -/
def withSlots (node : Node) : TickM σ (Except RunError Status × List (Option Value)) := do
  let before ← env
  modifyEnv fun env => { env with input := node.input.map env.get?, output := [] }
  let result ← attempt (e.behave node.toSite node.behavior)
  let output := (← env).output
  modifyEnv fun env => { env with input := before.input, output := before.output }
  return (result, output)

/-- Writes values to the variables bound to the output slots; a slot without a name keeps nothing. -/
def writeOutputs (env : Env) (names : List String) (values : List (Option Value)) : Env :=
  (names.zip values).foldl (fun env (name, value) => if name = "" then env else env.set name value) env

/-- Takes the frame of a node that has ended off the stack, where it must be on top. -/
def leaveFrame (id : NodeId) (status : Status) : TickM σ Status := do
  let top := (← env).stack.top?
  if top = some id then
    modifyEnv Env.popFrame
    return status
  else fail (.corruptStack (← tree).name id top)

/-- What the result of a node does: a node that is running keeps its frame and has a payload; one that has ended
writes its outputs and leaves. -/
def conclude (node : Node) (status : Status) (output : List (Option Value)) : TickM σ Status := do
  modifyEnv fun env => { env with lastStatus := status }
  match status with
  | .running =>
    if (← env).isSuspended node.id then return .running
    else suspend node.toSite .marker
  | status =>
    modifyEnv fun env => writeOutputs env node.output output
    leaveFrame node.id status

/-- Runs a node that has its frame. Once an interruption is asked for, every node counts as running and nothing more
is written. -/
def runFramed (node : Node) (resumed : Bool) : TickM σ Status := do
  observe (.called node.id resumed)
  let (result, output) ← e.withSlots node
  observe (.returned node.id result.toOption)
  let status ← ofExcept result
  if ← interrupted then return .running
  else
    if node.debug then report fun tree => .nodeRun tree node.id node.name status resumed
    conclude node status output

/-- Runs a node, or resumes it if it is suspended. -/
def runNode (node : Node) : TickM σ Status := do
  let resumed := (← env).isSuspended node.id
  unless resumed do modifyEnv fun env => { env with stack := env.stack.push node.id }
  e.runFramed node resumed

end Engine

end BehaviorTree
