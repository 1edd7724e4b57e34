import BehaviorTree.Delays
import BehaviorTree.Program

/-!
A world: node types, installed expressions, subscriptions, delays, the clock, and the instances of trees that share
all these. The state of an instance is lent to its tick while that runs; what stands here in the meantime is the
state before it.
-/

namespace BehaviorTree
set_option autoImplicit false

/-- One running tree. -/
structure Instance where
  tree : Tree := {}
  env : Env := {}
  /-- Jobs that wait, oldest first. -/
  pending : List Job := []
  /-- A tick or job of the instance, or the end of one, is under way. -/
  executing : Bool := false
  interrupted : Bool := false
  clearRequested : Bool := false
  /-- The host has given the instance up; only what is under way still reaches it. -/
  dropped : Bool := false

/-- Who hears an event: a listening node of an instance, or the host. -/
inductive Listener (σ : Type) where
  | node (owner : Tag) (listener child : NodeId)
  | host (react : Event → Program σ)

/-- What a delay does when it is due: it hands a job to an instance, or acts for the host. -/
inductive Alarm (σ : Type) where
  | job (owner : Tag) (job : Job)
  | host (act : Program σ)

structure World (σ : Type) where
  registry : Registry
  /-- Expressions that stand for their text in place of compiled ones. -/
  installed : Std.ExtTreeMap String Expression := ∅
  subscriptions : Subscriptions (Listener σ) := ∅
  delays : Delays (Alarm σ) := ∅
  time : Float := 0.0
  nextTag : Nat := 0
  instances : Std.ExtTreeMap Tag Instance := ∅
  journal : Array Entry := #[]
  /-- The host's own state. -/
  host : σ

namespace World

variable {σ : Type}

/-- The instance that a tag belongs to; a tag that is no instance's stands for one of an empty tree. -/
def instanceOf (w : World σ) (owner : Tag) : Instance := w.instances.getD owner {}

def setInstance (w : World σ) (owner : Tag) (i : Instance) : World σ :=
  { w with instances := w.instances.insert owner i }

def modifyInstance (w : World σ) (owner : Tag) (f : Instance → Instance) : World σ :=
  w.setInstance owner (f (w.instanceOf owner))

@[simp] theorem instanceOf_modifyInstance_self (w : World σ) (owner : Tag) (f : Instance → Instance) :
    (w.modifyInstance owner f).instanceOf owner = f (w.instanceOf owner) := by
  rw [instanceOf, modifyInstance, setInstance, Std.ExtTreeMap.getD_insert_self]

def record (w : World σ) (e : Entry) : World σ := { w with journal := w.journal.push e }

def report (w : World σ) (r : Report) : World σ := w.record (.report r)

def observe (w : World σ) (owner : Tag) (a : Activity) : World σ := w.record (.activity owner a)

def assign (w : World σ) (owner : Tag) (name : String) (value : Option Value) : World σ :=
  (w.observe owner (.assigned name value)).modifyInstance owner fun i => { i with env := i.env.set name value }

/-- The expression of a text: the installed one, or else the compiled one. -/
def compile (w : World σ) : Compiler := fun code =>
  match w.installed[code]? with
  | some e => .ok e
  | none => Expression.compile code

def install (w : World σ) (code : String) (f : Lookup → Except ExprError Value) : World σ :=
  { w with installed := w.installed.insert code ⟨code, .native f⟩ }

/-- Loads a tree with the node types of this world. -/
def load (w : World σ) (spec : TreeSpec) (strict : Bool) : Except LoadError Tree × World σ :=
  let (result, reports) := Tree.load w.registry w.compile strict spec
  (result, reports.foldl report w)

def newTag (w : World σ) : Tag × World σ := (⟨w.nextTag⟩, { w with nextTag := w.nextTag + 1 })

/-- Makes an instance under a tag of its own. -/
def create (w : World σ) (tree : Tree) (vars : Variables) : Tag × World σ :=
  let (owner, w) := w.newTag
  (owner, w.setInstance owner { tree, env := { vars } })

def subscribe (w : World σ) (key : EventKey) (tag : Tag) (l : Listener σ) : SubscriptionId × World σ :=
  let (id, subscriptions) := w.subscriptions.add key tag l
  (id, { w with subscriptions })

/-- Sets an alarm some time from now. -/
def delay (w : World σ) (time : Float) (tag : Tag) (a : Alarm σ) : DelayId × World σ :=
  let (id, delays) := w.delays.schedule (w.time + time) tag a
  (id, { w with delays })

/-- Removes all subscriptions and delays of an owner, and reports it if there were any. -/
def releaseTag (w : World σ) (tag : Tag) : World σ :=
  let (events, subscriptions) := w.subscriptions.removeOwner tag
  let (count, delays) := w.delays.cancelOwner tag
  let w := { w with subscriptions, delays }
  if 0 < events + count then w.report (.released tag events count) else w

def drop (w : World σ) (owner : Tag) : World σ :=
  (w.modifyInstance owner fun i => { i with dropped := true }).releaseTag owner

def overview (w : World σ) : Overview σ :=
  { host := w.host
    time := w.time
    compile := w.compile
    tree := fun owner => (w.instanceOf owner).tree
    env := fun owner => (w.instanceOf owner).env
    executing := fun owner => (w.instanceOf owner).executing
    subscriptions := w.subscriptions.count
    delays := w.delays.count }

end World

end BehaviorTree
