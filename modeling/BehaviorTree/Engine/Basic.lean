import BehaviorTree.World

/-!
Computations on a world, and those of a tick, which also hold the state of the instance that is running. Both may
halt without a result: when calls nest deeper than provided for, or when a node has fewer children than it asks for.
An `Engine` holds the calls that nodes, callbacks and jobs make of each other, so that each of these can be defined
on its own; they are tied together elsewhere.
-/

namespace BehaviorTree
set_option autoImplicit false

/-- Why a computation stops without a result. -/
inductive Halt where
  /-- Calls are nested deeper than provided for. -/
  | tooDeep
  /-- A child, branch or element is asked for that is not there. -/
  | outOfRange
  deriving DecidableEq, Repr

abbrev WorldM (σ : Type) := StateT (World σ) (Except Halt)

/-- What a tick works on: the state of its instance and the rest of the world. -/
structure Tick (σ : Type) where
  env : Env
  world : World σ

/-- Whose tick it is, and the tree that it runs. -/
structure Activation where
  owner : Tag
  tree : Tree

/-- How a computation of a tick ends. A failure leaves the state as it is at that point. -/
inductive Outcome (σ α : Type) where
  | ok (a : α) (t : Tick σ)
  | failed (e : RunError) (t : Tick σ)
  | halted (h : Halt)

def TickM (σ α : Type) := Activation → Tick σ → Outcome σ α

namespace TickM

variable {σ α β : Type}

protected def pure (a : α) : TickM σ α := fun _ t => .ok a t

protected def bind (m : TickM σ α) (f : α → TickM σ β) : TickM σ β := fun c t =>
  match m c t with
  | .ok a t => f a c t
  | .failed e t => .failed e t
  | .halted h => .halted h

instance : Monad (TickM σ) where
  pure := TickM.pure
  bind := TickM.bind

@[simp] theorem pure_apply (a : α) (c : Activation) (t : Tick σ) : (pure a : TickM σ α) c t = .ok a t := rfl

theorem bind_apply (m : TickM σ α) (f : α → TickM σ β) (c : Activation) (t : Tick σ) :
    (m >>= f) c t =
      match m c t with
      | .ok a t => f a c t
      | .failed e t => .failed e t
      | .halted h => .halted h := rfl

instance : LawfulMonad (TickM σ) :=
  LawfulMonad.mk' (TickM σ)
    (fun m => by
      funext c t
      change TickM.bind m (fun a => TickM.pure a) c t = m c t
      unfold TickM.bind
      split <;> simp_all [TickM.pure])
    (fun _ _ => rfl)
    (fun m f g => by
      funext c t
      simp only [bind_apply]
      cases m c t <;> rfl)

def fail (e : RunError) : TickM σ α := fun _ t => .failed e t

def halt (h : Halt) : TickM σ α := fun _ _ => .halted h

def attempt (m : TickM σ α) : TickM σ (Except RunError α) := fun c t =>
  match m c t with
  | .ok a t => .ok (.ok a) t
  | .failed e t => .ok (.error e) t
  | .halted h => .halted h

/-- Taking a failure as a result leaves the state as the failure left it. -/
theorem attempt_apply (m : TickM σ α) (c : Activation) (t : Tick σ) :
    attempt m c t =
      match m c t with
      | .ok a t => .ok (.ok a) t
      | .failed e t => .ok (.error e) t
      | .halted h => .halted h := rfl

def ofExcept : Except RunError α → TickM σ α
  | .ok a => pure a
  | .error e => fail e

def owner : TickM σ Tag := fun c t => .ok c.owner t

def tree : TickM σ Tree := fun c t => .ok c.tree t

def env : TickM σ Env := fun _ t => .ok t.env t

def modifyEnv (f : Env → Env) : TickM σ Unit := fun _ t => .ok () { t with env := f t.env }

def world : TickM σ (World σ) := fun _ t => .ok t.world t

/-- Does something with the world; the state of the running instance stays as it is. -/
def onWorld (m : WorldM σ α) : TickM σ α := fun _ t =>
  match m.run t.world with
  | .ok (a, world) => .ok a { t with world }
  | .error h => .halted h

def modifyWorld (f : World σ → World σ) : TickM σ Unit := fun _ t => .ok () { t with world := f t.world }

def report (r : String → Report) : TickM σ Unit := do
  let tree ← tree
  modifyWorld (·.report (r tree.name))

def observe (a : Activity) : TickM σ Unit := do
  let owner ← owner
  modifyWorld (·.observe owner a)

def time : TickM σ Float := do return (← world).time

/-- Whether someone has asked for the running instance to be interrupted. -/
def interrupted : TickM σ Bool := do return ((← world).instanceOf (← owner)).interrupted

def interrupt : TickM σ Unit := do
  let owner ← owner
  observe (.requested false)
  modifyWorld (·.modifyInstance owner fun i => { i with interrupted := true })

def element (items : List α) (i : Nat) : TickM σ α :=
  match items[i]? with
  | some a => pure a
  | none => halt .outOfRange

end TickM

/-- The calls that everything else is defined with. -/
structure Engine (σ : Type) where
  /-- Runs a node, or resumes it if it is suspended. -/
  run : NodeId → TickM σ Status
  /-- Resumes the frames above a level, deepest first, until one is still running or none is left. -/
  resume : Nat → TickM σ Status
  /-- Lets a listener hear an event. -/
  hear : Listener σ → Event → WorldM σ Unit
  /-- Sets an alarm off. -/
  alarm : Alarm σ → WorldM σ Unit
  /-- Runs the waiting jobs of an instance until none is left or an interruption is asked for. -/
  runPending : Tag → WorldM σ Unit

namespace Engine

variable {σ : Type} (e : Engine σ)

/-- Lets everyone hear an event who listened to it when it was dispatched; says how many those were. -/
def dispatch (key : EventKey) (args : List Value) : WorldM σ Nat := do
  let listeners := (← get).subscriptions.callbacks key
  listeners.forM fun l => e.hear l ⟨key.name, key.target, args⟩
  return listeners.length

/-- Dispatches a lifecycle event of an instance. -/
def announce (owner : Tag) (event : Lifecycle) (args : List Value) : WorldM σ Unit := do
  modify (·.observe owner (.announced event.name args))
  let _ ← e.dispatch ⟨event.name, some owner.text⟩ args

/-- Advances the clock and sets off the alarms that are due. -/
def update (dt : Float) : WorldM σ Unit := do
  let now := (← get).time + dt
  let (due, delays) := (← get).delays.takeDue now
  modify fun w => { w with time := now, delays }
  due.forM e.alarm

end Engine

end BehaviorTree
