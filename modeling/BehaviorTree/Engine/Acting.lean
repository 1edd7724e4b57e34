import BehaviorTree.Engine.Frame

/-!
Nodes without children: they evaluate, copy, test, log or wait, or are leaves and routines that the host defines.
-/

namespace BehaviorTree
set_option autoImplicit false

namespace Engine

open TickM

variable {σ : Type} (e : Engine σ)

/-- Evaluates against the variables of the instance; an error is reported and gives no value. -/
def evaluate (site : Site) (expr : Expression) : TickM σ (Option Value) := do
  let env ← env
  match expr.evaluate env.get? with
  | .ok v => return some v
  | .error error =>
    report fun tree => .expressionFailed tree site.id expr.source error
    return none

def check (site : Site) (expr : Expression) : TickM σ Status := do
  match ← evaluate site expr with
  | some v => return if v.isTruthy then .success else .failure
  | none => return .failure

def pushOutput (value : Option Value) : TickM σ Unit := modifyEnv (·.pushOutput value)

def calculate (site : Site) (expr : Expression) : TickM σ Status := do
  match ← evaluate site expr with
  | some v =>
    pushOutput (some v)
    return .success
  | none => return .failure

/-- Puts the bound input out, or else the argument `value`. -/
def copy (site : Site) : TickM σ Status := do
  let bound := (site.input.head?).any (· ≠ "")
  let env ← env
  pushOutput (if bound then env.input? 0 else site.arg? "value")
  return .success

def inputIsNull : TickM σ Bool := do
  match (← env).input? 0 with
  | none | some .null => return true
  | some _ => return false

def isNull : TickM σ Status := do return if ← inputIsNull then .success else .failure

def notNull : TickM σ Status := do return if ← inputIsNull then .failure else .success

def log (site : Site) (level : Level) (text : String) : TickM σ Status := do
  let hasValue := ((← env).input? 0).isSome
  report fun tree => .message level text tree site.id hasValue
  return .success

def now : TickM σ Status := do
  pushOutput (some (Value.ofNumber (← time)))
  return .success

def waitUntil (site : Site) (expiry : Float) : TickM σ Status := do
  if expiry ≤ (← time) then return .success else suspend site (.wakeAt expiry)

/-- Waits for the time in the input slot, or else for its own. -/
def wait (site : Site) (own : Float) : TickM σ Status := do
  match ← saved? site with
  | some (.wakeAt expiry) => waitUntil site expiry
  | some _ => rejectPayload site
  | none =>
    match (← env).input? 0 with
    | none => waitUntil site ((← time) + own)
    | some v =>
      match v.asFloat? with
      | some span => waitUntil site ((← time) + span)
      | none =>
        report fun tree => .notATime tree site.id
        return .failure

def settle (site : Site) : Ending → TickM σ Status
  | .finish status => return status
  | .suspend none => suspend site .marker
  | .suspend (some memo) => suspend site (.value memo)
  | .reject => rejectPayload site

def leaf (site : Site) (react : Leaf) : TickM σ Status := do
  let env ← env
  let reaction := react ⟨env.vars, env.temps[site.id]?, env.input, ← time⟩
  modifyEnv fun env => reaction.writes.foldl (fun env (name, value) => env.set name value) env
  modifyEnv fun env => reaction.outputs.foldl Env.pushOutput env
  if reaction.interrupt then interrupt
  settle site reaction.ending

def routine (site : Site) : Routine → TickM σ Status
  | .finish status => return status
  | .suspend payload => suspend site payload
  | .reject => rejectPayload site
  | .look next => do
    let glimpse : Glimpse := ⟨← env, ← time, ← owner, ← interrupted⟩
    routine site (next glimpse)
  | .write name value next => do
    modifyEnv (·.set name value)
    routine site next
  | .remember name value next => do
    modifyEnv (·.setPrivate site.id name value)
    routine site next
  | .plant id payload next => do
    let target ← node id
    modifyEnv (·.setPayload target.id payload)
    routine site next
  | .push value next => do
    pushOutput value
    routine site next
  | .interrupt next => do
    interrupt
    routine site next
  | .note v next => do
    modifyWorld (·.record (.note v))
    routine site next
  | .run id next => do
    let status ← e.run id
    routine site (next status)
  | .childStatus next => do
    let status ← childStatus site
    routine site (next status)

end Engine

end BehaviorTree
