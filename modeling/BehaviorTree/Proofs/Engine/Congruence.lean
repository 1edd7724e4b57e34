import BehaviorTree.Proofs.Engine.Correspondence

/-!
Relations between computations of ticks that everything respects from which nodes are put together. Two engines whose
calls are related run every node alike, and every job; so what holds of the calls of an engine, and of the few things
that a node does besides calling it, holds of every tree.
-/

namespace BehaviorTree
set_option autoImplicit false

variable {σ α β : Type} {o : Tag}

/-- A relation between computations of ticks of an instance with a clause for each thing that nodes are put together
from. -/
structure TickM.Congruence (o : Tag) (Rel : TickM.Relation σ) : Prop where
  pure {α : Type} (a : α) : Rel.Self (pure a)
  bind {α β : Type} {m m' : TickM σ α} {f f' : α → TickM σ β} :
    Rel _ m m' → (∀ a, Rel _ (f a) (f' a)) → Rel _ (m >>= f) (m' >>= f')
  fail {α : Type} (e : RunError) : Rel.Self (fail e : TickM σ α)
  halt {α : Type} (h : Halt) : Rel.Self (halt h : TickM σ α)
  attempt {α : Type} {m m' : TickM σ α} : Rel _ m m' → Rel _ (attempt m) (attempt m')
  /-- The owner is known. -/
  bindOwner {α : Type} {f f' : Tag → TickM σ α} : Rel _ (f o) (f' o) → Rel _ (owner >>= f) (owner >>= f')
  tree : Rel.Self tree
  env : Rel.Self env
  world : Rel.Self world
  modifyEnv (f : Env → Env) : Rel.Self (modifyEnv f)
  /-- What is recorded is no activity. -/
  record {e : World σ → Entry} : (∀ w p, (e w).of? p = none) → Rel.Self (modifyWorld fun w => w.record (e w))
  called (id : NodeId) (resumed : Bool) : Rel.Self (observe (.called id resumed))
  returned (id : NodeId) (status : Option Status) : Rel.Self (observe (.returned id status))
  interrupt : Rel.Self interrupt
  subscribe (key : EventKey) (listener child : NodeId) :
    Rel.Self (modifyWorld fun w => (w.subscribe key o (.node o listener child)).2)
  delay (span : Float) (job : Job) : Rel.Self (modifyWorld fun w => (w.delay span o (.job o job)).2)

structure Engine.Alike (o : Tag) (Rel : TickM.Relation σ) (e e' : Engine σ) : Prop
    extends TickM.Congruence o Rel where
  run (id : NodeId) : Rel _ (e.run id) (e'.run id)
  resume (level : Nat) : Rel _ (e.resume level) (e'.resume level)
  dispatch (key : EventKey) (args : List Value) :
    Rel _ (TickM.onWorld (e.dispatch key args)) (TickM.onWorld (e'.dispatch key args))

namespace TickM.Congruence

variable {Rel : TickM.Relation σ} (h : TickM.Congruence o Rel)
include h

/-- If states are only related to themselves, nothing that a node looks at makes a difference. -/
theorem respects : TickM.Respects o (fun _ => True) (fun _ => True) Rel := by
  have howner : Rel.Self owner := h.bindOwner (h.pure o)
  have hedit : ∀ {f f' : Env → Env}, Env.Edits (fun _ => True) f f' → Rel _ (TickM.modifyEnv f) (TickM.modifyEnv f') := by
    intro f f' hf
    have hsame : f' = f := funext fun env => (hf.like (.refl _ env)).eq
    rw [hsame]
    exact h.modifyEnv f
  exact
    { pure := h.pure
      bind := h.bind
      fail := h.fail
      halt := h.halt
      attempt := h.attempt
      bindOwner := h.bindOwner
      bindTree := fun hf => h.bind h.tree fun t => hf t fun _ _ _ => trivial
      bindEnv := fun hf => h.bind h.env fun env => hf env env (.refl _ env)
      time := h.bind h.world fun _ => h.pure _
      interrupted := h.bind h.world fun _ => h.bind howner fun _ => h.pure _
      edit := hedit
      remember := fun _ _ _ _ => h.modifyEnv _
      record := fun he => h.record fun _ => he
      interrupt := h.interrupt
      delay := fun span _ _ => h.delay span _ }

theorem correspondence : TickM.Correspondence o (fun _ => True) (fun _ => True) Rel := by
  refine { h.respects with returned := fun status _ _ => h.returned _ status, listens := ?_ }
  intro n event _ hn hb
  refine h.respects.listens hn hb (h.returned n.id) fun target _ => h.bindOwner ?_
  refine h.bind (h.respects.child _ _) fun only => h.bind (h.subscribe _ _ _) fun _ => h.bind (h.modifyEnv _) fun _ => ?_
  exact h.bind (h.respects.report _) fun _ => h.pure _

theorem node (id : NodeId) : Rel.Self (TickM.node id : TickM σ Node) := by
  have hnode : Rel.Self (TickM.node id >>= Pure.pure) := h.correspondence.bindNode id fun n _ => h.pure n
  rwa [bind_pure] at hnode

theorem aside {m m' : TickM σ Unit} (hm : Rel _ m m') : Rel _ (Engine.aside m) (Engine.aside m') :=
  h.correspondence.aside hm

end TickM.Congruence

namespace Engine.Alike

variable {Rel : TickM.Relation σ} {e e' : Engine σ} (he : Engine.Alike o Rel e e')
include he

theorem corresponds : Engine.Corresponds o (fun _ => True) (fun _ => True) Rel e e' :=
  { he.correspondence with
    called := he.called
    heeds := fun _ => Node.heeds_all _
    run := he.run
    resume := he.resume
    dispatch := fun _ _ => he.dispatch }

theorem resumeAbove (level : Nat) : Rel _ (e.resumeAbove level) (e'.resumeAbove level) := he.corresponds.resumeAbove level

theorem runNode (node : Node) : Rel _ (e.runNode node) (e'.runNode node) :=
  he.corresponds.runNode trivial (he.called _)

theorem runFor (job : Job) : Rel _ (e.runFor job) (e'.runFor job) := he.corresponds.runFor job.heeds_all

end Engine.Alike

end BehaviorTree
