import BehaviorTree.Engine.Frame

/-!
Nodes that reach beyond their tick: they dispatch events, listen to them, or put work off. What they leave in the
world names their instance by its tag only.
-/

namespace BehaviorTree
set_option autoImplicit false

namespace Engine

open TickM

variable {σ : Type} (e : Engine σ)

/-- The target in an input slot; a value that is no string is reported and gives nothing. -/
def target? (site : Site) (slot : Nat) : TickM σ (Option (Option String)) := do
  match (← env).input? slot with
  | none => return some none
  | some (.string target) => return some (some target)
  | some _ =>
    report fun tree => .notATarget tree site.id
    return none

def startListening (site : Site) (event : String) (target : Option String) : TickM σ Status := do
  let owner ← owner
  let only ← child site 0
  modifyWorld fun w => (w.subscribe ⟨event, target⟩ owner (.node owner site.id only)).2
  modifyEnv fun env => { env with listening := env.listening.insert site.id }
  report fun tree => .listening tree site.id event
  return .success

/-- Subscribes the child unless that is done already. Lifecycle events are heard on the instance's own tag. -/
def listen (site : Site) (event : String) : TickM σ Status := do
  if (← env).listening.contains site.id then return .success
  else if (Lifecycle.ofName? event).isSome then startListening site event (some (← owner).text)
  else
    match ← target? site 0 with
    | some target => startListening site event target
    | none => return .failure

/-- The arguments of an event from an input slot: the items of an array, or the one value. -/
def argsOf : Option Value → List Value
  | none => []
  | some (.array items) => items
  | some v => [v]

def dispatchNode (site : Site) (event : String) : TickM σ Status := do
  match ← target? site 0 with
  | none => return .failure
  | some target =>
    let args := argsOf ((← env).input? 1)
    let heard ← onWorld (e.dispatch ⟨event, target⟩ args)
    if heard = 0 then modifyWorld (·.report (.noListener event))
    return .success

/-- Puts the child off, with the values that some variables have now. -/
def putOff (site : Site) (span : Float) (cache : List String) : TickM σ Status := do
  let owner ← owner
  let env ← env
  let only ← child site 0
  let job := Job.delayed only (cache.map fun name => (name, env.get? name))
  modifyWorld fun w => (w.delay span owner (.job owner job)).2
  return .success

end Engine

end BehaviorTree
