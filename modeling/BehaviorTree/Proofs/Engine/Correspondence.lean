import BehaviorTree.Engine.Knot
import BehaviorTree.Proofs.World.Watch

/-!
Two computations of ticks side by side. The states that they work on may differ in variables that nothing looks at, and
the worlds in whatever a tick does not see. A relation between computations that everything respects from which nodes
are put together holds of every node that looks at no other variables, and of every job.
-/

namespace BehaviorTree
set_option autoImplicit false

variable {σ α β : Type} {o : Tag} {Seen : String → Prop} {Fits : Node → Prop}

def Env.Like (Seen : String → Prop) (env env' : Env) : Prop :=
  ∃ vars, env' = { env with vars } ∧ ∀ name, Seen name → vars[name]? = env.vars[name]?

/-- Two changes of states that keep them alike, and who is listening and what nodes remember as it is. -/
structure Env.Edits (Seen : String → Prop) (f f' : Env → Env) : Prop where
  like {env env' : Env} : Env.Like Seen env env' → Env.Like Seen (f env) (f' env')
  listening (env : Env) : (f env).listening = env.listening
  listening' (env : Env) : (f' env).listening = env.listening
  privates (env : Env) : (f env).privates = env.privates
  privates' (env : Env) : (f' env).privates = env.privates

namespace Env

theorem Like.refl (Seen : String → Prop) (env : Env) : Like Seen env env := ⟨env.vars, rfl, fun _ _ => rfl⟩

theorem Like.eq {env env' : Env} (h : Like (fun _ => True) env env') : env' = env := by
  obtain ⟨vars, rfl, hv⟩ := h
  have hvars : vars = env.vars := Std.ExtTreeMap.ext_getElem? fun name => hv name trivial
  rw [hvars]

theorem Like.get? {env env' : Env} (h : Like Seen env env') {name : String} (hname : Seen name) :
    env'.get? name = env.get? name := by
  obtain ⟨vars, rfl, hv⟩ := h
  exact hv name hname

theorem Like.input? {env env' : Env} (h : Like Seen env env') (slot : Nat) : env'.input? slot = env.input? slot := by
  obtain ⟨vars, rfl, -⟩ := h
  rfl

theorem Like.set {env env' : Env} (h : Like Seen env env') (name : String) (value : Option Value) :
    Like Seen (env.set name value) (env'.set name value) := by
  obtain ⟨vars, rfl, hv⟩ := h
  refine ⟨vars.assign name value, rfl, ?_⟩
  intro key hkey
  unfold Env.set
  rw [Variables.getElem?_assign, Variables.getElem?_assign, hv key hkey]

theorem Like.setPrivate {env env' : Env} (h : Like Seen env env') (id : NodeId) (name : String) (value : Option Value) :
    Like Seen (env.setPrivate id name value) (env'.setPrivate id name value) := by
  obtain ⟨vars, rfl, hv⟩ := h
  cases value with
  | some v => exact ⟨vars, rfl, hv⟩
  | none => exact ⟨vars, rfl, hv⟩

namespace Edits

/-- A change that does not look at variables, and touches neither them nor who is listening nor what nodes remember. -/
theorem beside {f : Env → Env} (hf : ∀ env vars, f { env with vars } = { f env with vars })
    (hvars : ∀ env, (f env).vars = env.vars) (hl : ∀ env, (f env).listening = env.listening)
    (hp : ∀ env, (f env).privates = env.privates) : Edits Seen f f := by
  refine ⟨?_, hl, hl, hp, hp⟩
  rintro env _ ⟨vars, rfl, hv⟩
  refine ⟨vars, hf env vars, ?_⟩
  rw [hvars]
  exact hv

theorem set (name : String) (value : Option Value) : Edits Seen (·.set name value) (·.set name value) :=
  ⟨fun h => h.set name value, fun _ => rfl, fun _ => rfl, fun _ => rfl, fun _ => rfl⟩

theorem comp {f f' g g' : Env → Env} (hf : Edits Seen f f') (hg : Edits Seen g g') :
    Edits Seen (fun env => g (f env)) fun env => g' (f' env) where
  like h := hg.like (hf.like h)
  listening env := (hg.listening _).trans (hf.listening env)
  listening' env := (hg.listening' _).trans (hf.listening' env)
  privates env := (hg.privates _).trans (hf.privates env)
  privates' env := (hg.privates' _).trans (hf.privates' env)

theorem foldl {f : Env → β → Env} (hf : ∀ b, Edits Seen (fun env => f env b) fun env => f env b) (bs : List β) :
    Edits Seen (fun env => bs.foldl f env) fun env => bs.foldl f env := by
  induction bs with
  | nil => exact ⟨id, fun _ => rfl, fun _ => rfl, fun _ => rfl, fun _ => rfl⟩
  | cons b bs ih => exact (hf b).comp ih

end Edits

end Env

/-! ### What nodes look at -/

def Routine.Heeds (Seen : String → Prop) : Routine → Prop
  | .look next =>
    (∀ (g : Glimpse) (env : Env), Env.Like Seen g.env env → next { g with env } = next g) ∧ ∀ g, (next g).Heeds Seen
  | .write _ _ next | .remember _ _ next | .plant _ _ next | .push _ next | .interrupt next | .note _ next =>
    next.Heeds Seen
  | .run _ next | .childStatus next => ∀ status, (next status).Heeds Seen
  | .finish _ | .suspend _ | .reject => True

def Behavior.Heeds (Seen : String → Prop) : Behavior → Prop
  | .check expr | .calculate expr =>
    ∀ env env' : Env, Env.Like Seen env env' → expr.evaluate env'.get? = expr.evaluate env.get?
  | .delay _ cache => ∀ name ∈ cache, Seen name
  | .leaf react =>
    ∀ (m : Moment) (vars : Variables), (∀ name, Seen name → vars[name]? = m.vars[name]?) → react { m with vars } = react m
  | .routine steps => ∀ site, (steps site).Heeds Seen
  | _ => True

/-- A node that looks at no variables but those that are seen. -/
structure Node.Heeds (Seen : String → Prop) (n : Node) : Prop where
  input {name : String} : name ∈ n.input → Seen name
  behavior : n.behavior.Heeds Seen

def Job.Heeds (Seen : String → Prop) : Job → Prop
  | .delayed _ cache => ∀ entry ∈ cache, Seen entry.1
  | .fired .. => True

theorem Routine.heeds_all (r : Routine) : r.Heeds fun _ => True := by
  induction r with
  | look next ih =>
    refine ⟨fun g env h => ?_, ih⟩
    rw [h.eq]
  | write _ _ _ ih | remember _ _ _ ih | plant _ _ _ ih | push _ _ ih | interrupt _ ih | note _ _ ih => exact ih
  | run _ _ ih | childStatus _ ih => exact ih
  | finish | suspend | reject => trivial

/-- If every variable is seen, every node looks at those only. -/
theorem Node.heeds_all (n : Node) : n.Heeds fun _ => True := by
  refine ⟨fun _ => trivial, ?_⟩
  cases h : n.behavior with
  | check expr | calculate expr =>
    intro env env' he
    rw [he.eq]
  | delay => exact fun _ _ => trivial
  | leaf react =>
    intro m vars hv
    have hvars : vars = m.vars := Std.ExtTreeMap.ext_getElem? fun name => hv name trivial
    rw [hvars]
  | routine steps => exact fun site => (steps site).heeds_all
  | _ => trivial

theorem Job.heeds_all (job : Job) : job.Heeds fun _ => True := by
  cases job with
  | delayed => exact fun _ _ => trivial
  | fired => trivial

/-! ### Relations between computations -/

def TickM.Relation (σ : Type) : Type 1 := ∀ α : Type, TickM σ α → TickM σ α → Prop

abbrev TickM.Relation.Self (Rel : TickM.Relation σ) (m : TickM σ α) : Prop := Rel α m m

theorem TickM.Relation.ite (Rel : TickM.Relation σ) {P : Prop} [Decidable P] {m m' n n' : TickM σ α}
    (hm : Rel _ m m') (hn : Rel _ n n') : Rel _ (if P then m else n) (if P then m' else n') := by
  split
  · exact hm
  · exact hn

/-- The key may be that of a listening node: it hears lifecycle events of its own instance only. -/
def EventKey.Heard (key : EventKey) (o : Tag) : Prop :=
  (Lifecycle.ofName? key.name).isSome → key.target = some o.text

/-- A relation between computations of ticks of an instance, on states that are alike and in trees of nodes that fit,
with a clause for each thing that what such nodes are there for is put together from, but for listening. Nothing of it
takes a failure as a result, nor halts but for something that is not there. -/
structure TickM.Composes (o : Tag) (Seen : String → Prop) (Fits : Node → Prop) (Rel : TickM.Relation σ) : Prop where
  pure {α : Type} (a : α) : Rel.Self (pure a)
  bind {α β : Type} {m m' : TickM σ α} {f f' : α → TickM σ β} :
    Rel _ m m' → (∀ a, Rel _ (f a) (f' a)) → Rel _ (m >>= f) (m' >>= f')
  fail {α : Type} (e : RunError) : Rel.Self (fail e : TickM σ α)
  range {α : Type} : Rel.Self (halt .outOfRange : TickM σ α)
  /-- The owner is known. -/
  bindOwner {α : Type} {f f' : Tag → TickM σ α} : Rel _ (f o) (f' o) → Rel _ (owner >>= f) (owner >>= f')
  bindTree {α : Type} {f f' : Tree → TickM σ α} :
    (∀ t : Tree, (∀ id n, t.get? id = some n → Fits n) → Rel _ (f t) (f' t)) → Rel _ (tree >>= f) (tree >>= f')
  bindEnv {α : Type} {f f' : Env → TickM σ α} :
    (∀ env env', Env.Like Seen env env' → Rel _ (f env) (f' env')) → Rel _ (env >>= f) (env >>= f')
  time : Rel.Self time
  interrupted : Rel.Self interrupted
  edit {f f' : Env → Env} : Env.Edits Seen f f' → Rel _ (modifyEnv f) (modifyEnv f')
  /-- A node has private variables of its own; what tells that it has run its child once is not forgotten. -/
  remember {n : Node} (name : String) {value : Option Value} : Fits n → (n.behavior = .once → value.isSome = true) →
    Rel.Self (modifyEnv (·.setPrivate n.id name value))
  /-- What is recorded is no activity. -/
  record {e : Entry} : (∀ p, e.of? p = none) → Rel.Self (modifyWorld fun w => w.record e)
  interrupt : Rel.Self interrupt
  delay (span : Float) {job : Job} : job.Heeds Seen → Rel.Self (modifyWorld fun w => (w.delay span o (.job o job)).2)

/-- A relation between computations of ticks of an instance, on states that are alike and in trees of nodes that fit,
with a clause for each thing that such nodes are put together from, but for what listening nodes do and for what is seen
of the beginning and the end of a node. -/
structure TickM.Respects (o : Tag) (Seen : String → Prop) (Fits : Node → Prop) (Rel : TickM.Relation σ) : Prop
    extends TickM.Composes o Seen Fits Rel where
  halt {α : Type} (h : Halt) : Rel.Self (halt h : TickM σ α)
  attempt {α : Type} {m m' : TickM σ α} : Rel _ m m' → Rel _ (attempt m) (attempt m')
  range := halt .outOfRange

/-- Does what a node is there for, with slot values of its own, and lets the result be seen. -/
def Engine.attend (e : Engine σ) (n : Node) : TickM σ (Except RunError Status × List (Option Value)) := do
  let r ← e.withSlots n
  TickM.observe (.returned n.id r.1.toOption)
  return r

def Engine.takeUp (n : Node) (resumed : Bool) (r : Except RunError Status × List (Option Value)) : TickM σ Status := do
  let status ← TickM.ofExcept r.1
  if ← TickM.interrupted then return .running
  else
    if n.debug then TickM.report fun tree => .nodeRun tree n.id n.name status resumed
    Engine.conclude n status r.2

theorem Engine.runFramed_attend (e : Engine σ) (n : Node) (resumed : Bool) : e.runFramed n resumed =
    TickM.observe (.called n.id resumed) >>= fun _ => e.attend n >>= fun r => Engine.takeUp n resumed r := by
  unfold Engine.runFramed Engine.attend Engine.takeUp
  simp only [bind_assoc, pure_bind]

/-- A relation between computations of ticks of an instance that respects everything that nodes are put together from,
but for what is seen of the beginning of a node. What a listening node does is taken as a whole; it is the same for all engines. -/
structure TickM.Correspondence (o : Tag) (Seen : String → Prop) (Fits : Node → Prop) (Rel : TickM.Relation σ) :
    Prop extends TickM.Respects o Seen Fits Rel where
  returned {n : Node} (status : Option Status) : Fits n → (∀ event, n.behavior ≠ .listen event) →
    Rel.Self (observe (.returned n.id status))
  listens {n : Node} {event : String} : Fits n → n.Heeds Seen → n.behavior = .listen event → ∀ e e' : Engine σ,
    Rel _ (e.attend n) (e'.attend n)

def Engine.deeper (e : Engine σ) : Engine σ where
  run id := do e.runNode (← TickM.node id)
  resume level := e.resumeAbove level
  hear l event := e.hearEvent l event
  alarm a := e.setOff a
  runPending owner := e.runNext owner

/-- Two engines whose calls are related, by a relation that what nodes are there for is put together from. -/
structure Engine.Calls (o : Tag) (Seen : String → Prop) (Fits : Node → Prop) (Rel : TickM.Relation σ)
    (e e' : Engine σ) : Prop extends TickM.Composes o Seen Fits Rel where
  heeds {n : Node} : Fits n → n.Heeds Seen
  run (id : NodeId) : Rel _ (e.run id) (e'.run id)
  resume (level : Nat) : Rel _ (e.resume level) (e'.resume level)
  dispatch {n : Node} {event : String} : Fits n → n.behavior = .dispatch event → ∀ (key : EventKey) (args : List Value),
    Rel _ (TickM.onWorld (e.dispatch key args)) (TickM.onWorld (e'.dispatch key args))

structure Engine.Relates (o : Tag) (Seen : String → Prop) (Fits : Node → Prop) (Rel : TickM.Relation σ)
    (e e' : Engine σ) : Prop extends TickM.Correspondence o Seen Fits Rel, Engine.Calls o Seen Fits Rel e e'

/-- Two engines whose calls correspond, in whatever order nodes are called. -/
structure Engine.Corresponds (o : Tag) (Seen : String → Prop) (Fits : Node → Prop) (Rel : TickM.Relation σ)
    (e e' : Engine σ) : Prop extends Engine.Relates o Seen Fits Rel e e' where
  called (id : NodeId) (resumed : Bool) : Rel.Self (TickM.observe (.called id resumed))

namespace TickM.Composes

variable {Rel : TickM.Relation σ} (h : TickM.Composes o Seen Fits Rel)
include h

theorem ofExcept (r : Except RunError α) : Rel.Self (TickM.ofExcept r) := by
  cases r with
  | ok a => exact h.pure a
  | error e => exact h.fail e

theorem owner : Rel.Self TickM.owner := h.bindOwner (h.pure o)

theorem report (r : String → Report) : Rel.Self (TickM.report r) := h.bindTree fun _ _ => h.record fun _ => rfl

theorem note (v : Value) : Rel.Self (TickM.modifyWorld fun w => w.record (.note v)) := h.record fun _ => rfl

/-- A change of the state that has nothing to do with variables, with who is listening or with what nodes remember. -/
theorem beside {f : Env → Env} (hf : ∀ env vars, f { env with vars } = { f env with vars })
    (hvars : ∀ env, (f env).vars = env.vars) (hl : ∀ env, (f env).listening = env.listening)
    (hp : ∀ env, (f env).privates = env.privates) : Rel.Self (modifyEnv f) := h.edit (.beside hf hvars hl hp)

theorem saved? (site : Site) : Rel.Self (TickM.saved? site : TickM σ (Option Payload)) := by
  apply h.bindEnv
  rintro env _ ⟨vars, rfl, -⟩
  exact h.pure _

theorem suspend (site : Site) (payload : Payload) : Rel.Self (TickM.suspend site payload : TickM σ Status) :=
  h.bind (h.beside (fun _ _ => rfl) (fun _ => rfl) (fun _ => rfl) fun _ => rfl) fun _ => h.pure _

theorem rejectPayload (site : Site) : Rel.Self (TickM.rejectPayload site : TickM σ α) :=
  h.bindTree fun _ _ => h.fail _

theorem rejectStatus (site : Site) (status : Status) : Rel.Self (TickM.rejectStatus site status : TickM σ α) :=
  h.bindTree fun _ _ => h.fail _

theorem childStatus (site : Site) : Rel.Self (TickM.childStatus site : TickM σ Status) := by
  apply h.bindEnv
  rintro env _ ⟨vars, rfl, -⟩
  dsimp only
  cases env.lastStatus with
  | running => exact h.rejectStatus site .running
  | success => exact h.pure _
  | failure => exact h.pure _

theorem bindNode (id : NodeId) {f f' : Node → TickM σ α} (hf : ∀ n, Fits n → Rel _ (f n) (f' n)) :
    Rel _ (TickM.node id >>= f) (TickM.node id >>= f') := by
  have hnode : ∀ g : Node → TickM σ α,
      TickM.node id >>= g = TickM.tree >>= fun t => (t.get? id).elim (TickM.fail (.unknownNode t.name id)) g := by
    intro g
    unfold TickM.node
    rw [bind_assoc]
    congr 1
    funext t
    cases t.get? id <;> rfl
  rw [hnode f, hnode f']
  apply h.bindTree
  intro t ht
  cases hn : t.get? id with
  | some n => exact hf n (ht id n hn)
  | none => exact h.fail _

theorem element (items : List α) (i : Nat) : Rel.Self (TickM.element items i : TickM σ α) := by
  rw [TickM.element]
  cases items[i]? with
  | some a => exact h.pure a
  | none => exact h.range

theorem child (site : Site) (i : Nat) : Rel.Self (TickM.child site i : TickM σ NodeId) := h.element _ _

theorem capture (status : Status) (level : Nat) : Rel.Self (TickM.capture status level : TickM σ Stack) := by
  cases status with
  | running =>
    apply h.bindEnv
    rintro env _ ⟨vars, rfl, -⟩
    exact h.bind (h.beside (fun _ _ => rfl) (fun _ => rfl) (fun _ => rfl) fun _ => rfl) fun _ => h.pure _
  | success => exact h.pure _
  | failure => exact h.pure _

theorem abandon (saved : Stack) : Rel.Self (TickM.abandon saved : TickM σ Unit) :=
  h.beside (fun _ _ => rfl) (fun _ => rfl) (fun _ => rfl) fun _ => rfl

theorem pushOutput (value : Option Value) : Rel.Self (Engine.pushOutput value : TickM σ Unit) :=
  h.beside (fun _ _ => rfl) (fun _ => rfl) (fun _ => rfl) fun _ => rfl

theorem setLastStatus (status : Status) :
    Rel.Self (TickM.modifyEnv fun env => { env with lastStatus := status } : TickM σ Unit) :=
  h.beside (fun _ _ => rfl) (fun _ => rfl) (fun _ => rfl) fun _ => rfl

theorem forM {f f' : β → TickM σ PUnit} (xs : List β) (hf : ∀ x, Rel _ (f x) (f' x)) :
    Rel _ (xs.forM f) (xs.forM f') := by
  induction xs with
  | nil => exact h.pure _
  | cons x xs ih => exact h.bind (hf x) fun _ => ih

theorem when {P : Prop} [Decidable P] {m m' : TickM σ PUnit} {f f' : PUnit → TickM σ α} (hm : Rel _ m m')
    (hf : Rel _ (f ⟨⟩) (f' ⟨⟩)) :
    Rel _ (if P then m >>= f else f ⟨⟩) (if P then m' >>= f' else f' ⟨⟩) :=
  Rel.ite (h.bind hm fun _ => hf) hf

theorem unlessDone {P : Prop} [Decidable P] {m m' : TickM σ PUnit} {f f' : PUnit → TickM σ α} (hm : Rel _ m m')
    (hf : Rel _ (f ⟨⟩) (f' ⟨⟩)) :
    Rel _ (if P then f ⟨⟩ else m >>= f) (if P then f' ⟨⟩ else m' >>= f') :=
  Rel.ite hf (h.bind hm fun _ => hf)

theorem evaluate (site : Site) {expr : Expression}
    (hexpr : ∀ env env' : Env, Env.Like Seen env env' → expr.evaluate env'.get? = expr.evaluate env.get?) :
    Rel.Self (Engine.evaluate site expr : TickM σ (Option Value)) := by
  apply h.bindEnv
  intro env env' henv
  rw [hexpr env env' henv]
  cases expr.evaluate env.get? with
  | ok v => exact h.pure _
  | error err => exact h.bind (h.report _) fun _ => h.pure _

theorem check (site : Site) {expr : Expression} (hb : (Behavior.check expr).Heeds Seen) :
    Rel.Self (Engine.check site expr : TickM σ Status) := by
  refine h.bind (h.evaluate site hb) fun v => ?_
  cases v with
  | some v => exact h.pure _
  | none => exact h.pure _

theorem calculate (site : Site) {expr : Expression} (hb : (Behavior.calculate expr).Heeds Seen) :
    Rel.Self (Engine.calculate site expr : TickM σ Status) := by
  refine h.bind (h.evaluate site hb) fun v => ?_
  cases v with
  | some v => exact h.bind (h.pushOutput _) fun _ => h.pure _
  | none => exact h.pure _

theorem copy (site : Site) : Rel.Self (Engine.copy site : TickM σ Status) := by
  apply h.bindEnv
  rintro env _ ⟨vars, rfl, -⟩
  exact h.bind (h.pushOutput _) fun _ => h.pure _

theorem inputIsNull : Rel.Self (Engine.inputIsNull : TickM σ Bool) := by
  apply h.bindEnv
  intro env env' henv
  rw [henv.input? 0]
  split
  · exact h.pure _
  · exact h.pure _
  · exact h.pure _

theorem isNull : Rel.Self (Engine.isNull : TickM σ Status) := h.bind h.inputIsNull fun _ => h.pure _

theorem notNull : Rel.Self (Engine.notNull : TickM σ Status) := h.bind h.inputIsNull fun _ => h.pure _

theorem log (site : Site) (level : Level) (text : String) : Rel.Self (Engine.log site level text : TickM σ Status) := by
  apply h.bindEnv
  rintro env _ ⟨vars, rfl, -⟩
  exact h.bind (h.report _) fun _ => h.pure _

theorem now : Rel.Self (Engine.now : TickM σ Status) :=
  h.bind h.time fun _ => h.bind (h.pushOutput _) fun _ => h.pure _

theorem waitUntil (site : Site) (expiry : Float) : Rel.Self (Engine.waitUntil site expiry : TickM σ Status) :=
  h.bind h.time fun _ => Rel.ite (h.pure _) (h.suspend _ _)

theorem wait (site : Site) (own : Float) : Rel.Self (Engine.wait site own : TickM σ Status) := by
  refine h.bind (h.saved? site) fun payload => ?_
  split
  · exact h.waitUntil _ _
  · exact h.rejectPayload site
  · apply h.bindEnv
    intro env env' henv
    rw [henv.input? 0]
    cases env.input? 0 with
    | none => exact h.bind h.time fun _ => h.waitUntil _ _
    | some v =>
      dsimp only
      cases v.asFloat? with
      | some span => exact h.bind h.time fun _ => h.waitUntil _ _
      | none => exact h.bind (h.report _) fun _ => h.pure _

theorem settle (site : Site) (ending : Ending) : Rel.Self (Engine.settle site ending : TickM σ Status) := by
  rw [Engine.settle.eq_def]
  split
  · exact h.pure _
  · exact h.suspend _ _
  · exact h.suspend _ _
  · exact h.rejectPayload site

theorem leaf (site : Site) {react : Leaf} (hb : (Behavior.leaf react).Heeds Seen) :
    Rel.Self (Engine.leaf site react : TickM σ Status) := by
  apply h.bindEnv
  rintro env _ ⟨vars, rfl, hv⟩
  refine h.bind h.time fun now => ?_
  have hreact : react ⟨vars, env.temps[site.id]?, env.input, now⟩ = react ⟨env.vars, env.temps[site.id]?, env.input, now⟩ :=
    hb ⟨env.vars, env.temps[site.id]?, env.input, now⟩ vars hv
  dsimp only
  rw [hreact]
  refine h.bind (h.edit (.foldl (fun _ => .set _ _) _)) fun _ => h.bind (h.edit (.foldl ?_ _)) fun _ => ?_
  · exact fun _ => .beside (fun _ _ => rfl) (fun _ => rfl) (fun _ => rfl) fun _ => rfl
  · exact h.when h.interrupt (h.settle _ _)

theorem target? (site : Site) (slot : Nat) :
    Rel.Self (Engine.target? site slot : TickM σ (Option (Option String))) := by
  apply h.bindEnv
  intro env env' henv
  rw [henv.input? slot]
  split
  · exact h.pure _
  · exact h.pure _
  · exact h.bind (h.report _) fun _ => h.pure _

theorem listen (site : Site) {event : String}
    (hstart : ∀ target, EventKey.Heard ⟨event, target⟩ o → Rel.Self (Engine.startListening site event target)) :
    Rel.Self (Engine.listen site event : TickM σ Status) := by
  apply h.bindEnv
  rintro env _ ⟨vars, rfl, -⟩
  apply Rel.ite (h.pure _)
  split
  · exact h.bindOwner (hstart _ fun _ => rfl)
  · rename_i hname
    refine h.bind (h.target? site 0) fun target => ?_
    cases target with
    | some target => exact hstart _ fun hlifecycle => absurd hlifecycle hname
    | none => exact h.pure _

/-- The values that are put by for a job are those of variables that are seen. -/
theorem putOff (site : Site) (span : Float) {cache : List String} (hb : (Behavior.delay span cache).Heeds Seen) :
    Rel.Self (Engine.putOff site span cache : TickM σ Status) := by
  apply h.bindOwner
  apply h.bindEnv
  intro env env' henv
  have hcache : (cache.map fun name => (name, env'.get? name)) = cache.map fun name => (name, env.get? name) := by
    apply List.map_congr_left
    intro name hname
    rw [henv.get? (hb name hname)]
  dsimp only
  rw [hcache]
  refine h.bind (h.child site 0) fun only => h.bind (h.delay _ ?_) fun _ => h.pure _
  intro entry hentry
  obtain ⟨name, hname, rfl⟩ := List.mem_map.mp hentry
  exact hb name hname

theorem writeSlot (name : Option String) (value : Option Value) :
    Rel.Self (Engine.writeSlot name value : TickM σ Unit) := by
  cases name with
  | some name => exact h.edit (.set name value)
  | none => exact h.pure _

theorem countRun (site : Site) (limit : Option Nat) (policy : RepeatPolicy) (done : Nat) (status : Status) :
    Rel.Self (Engine.countRun site limit policy done status : TickM σ Status) :=
  Rel.ite (h.pure _) (Rel.ite (h.pure _) (h.suspend _ _))

theorem expire (site : Site) (expiry : Float) (result : Status × Stack) :
    Rel.Self (Engine.expire site expiry result : TickM σ Status) := by
  rw [Engine.expire.eq_def]
  split
  · refine h.bind h.time fun now => Rel.ite ?_ (h.suspend _ _)
    exact h.bind (h.report _) fun _ => h.bind (h.abandon _) fun _ => h.pure _
  · exact h.pure _

theorem savedBranches (site : Site) :
    Rel.Self (Engine.savedBranches site : TickM σ (Option (List (Option Stack)))) := by
  refine h.bind (h.saved? site) fun payload => ?_
  split
  · exact h.pure _
  · exact Rel.ite (h.pure _) (h.rejectPayload site)
  · exact h.rejectPayload site

theorem leaveFrame (id : NodeId) (status : Status) : Rel.Self (Engine.leaveFrame id status : TickM σ Status) := by
  apply h.bindEnv
  rintro env _ ⟨vars, rfl, -⟩
  apply Rel.ite
  · exact h.bind (h.beside (fun _ _ => rfl) (fun _ => rfl) (fun _ => rfl) fun _ => rfl) fun _ => h.pure _
  · exact h.bindTree fun _ _ => h.fail _

theorem writeOutputs (names : List String) (values : List (Option Value)) :
    Rel.Self (TickM.modifyEnv fun env => Engine.writeOutputs env names values : TickM σ Unit) := by
  refine h.edit (.foldl (fun entry => ?_) _)
  obtain ⟨name, value⟩ := entry
  dsimp only
  split
  · exact ⟨id, fun _ => rfl, fun _ => rfl, fun _ => rfl, fun _ => rfl⟩
  · exact .set name value

theorem conclude (node : Node) (status : Status) (output : List (Option Value)) :
    Rel.Self (Engine.conclude node status output : TickM σ Status) := by
  refine h.bind (h.setLastStatus status) fun _ => ?_
  cases status with
  | running =>
    apply h.bindEnv
    rintro env _ ⟨vars, rfl, -⟩
    exact Rel.ite (h.pure _) (h.suspend _ _)
  | success => exact h.bind (h.writeOutputs _ _) fun _ => h.leaveFrame _ _
  | failure => exact h.bind (h.writeOutputs _ _) fun _ => h.leaveFrame _ _

theorem cutOff (id : NodeId) (r : Status × Stack) : Rel.Self (Engine.cutOff id r : TickM σ Unit) := by
  obtain ⟨status, left⟩ := r
  cases status with
  | running => exact h.bind (h.report _) fun _ => h.abandon _
  | success => exact h.pure _
  | failure => exact h.pure _

theorem takeOff (listener : NodeId) : Rel.Self (Engine.takeOff listener : TickM σ Unit) := by
  apply h.bindEnv
  rintro env _ ⟨vars, rfl, -⟩
  dsimp only
  cases env.detached[listener]? with
  | some previous =>
    exact h.bind (h.beside (fun _ _ => rfl) (fun _ => rfl) (fun _ => rfl) fun _ => rfl) fun _ => h.abandon _
  | none => exact h.pure _

theorem park (listener : NodeId) (r : Status × Stack) : Rel.Self (Engine.park listener r : TickM σ Unit) := by
  obtain ⟨status, left⟩ := r
  cases status with
  | running =>
    exact h.beside (f := fun env => { env with detached := env.detached.insert listener left }) (fun _ _ => rfl)
      (fun _ => rfl) (fun _ => rfl) fun _ => rfl
  | success => exact h.pure _
  | failure => exact h.pure _

theorem writeEvent (listener : Node) (event : Event) : Rel.Self (Engine.writeEvent listener event : TickM σ Unit) :=
  h.bind (h.writeSlot _ _) fun _ => h.writeSlot _ _

theorem assignAll (values : List (String × Option Value)) :
    Rel.Self (Engine.assignAll values : TickM σ Unit) := h.edit (.foldl (fun _ => .set _ _) _)

theorem openSlots {n : Node} (hn : n.Heeds Seen) :
    Rel.Self (TickM.modifyEnv fun env => { env with input := n.input.map env.get?, output := [] } : TickM σ Unit) := by
  refine h.edit ⟨?_, fun _ => rfl, fun _ => rfl, fun _ => rfl, fun _ => rfl⟩
  intro env env' henv
  have hinput : n.input.map env'.get? = n.input.map env.get? :=
    List.map_congr_left fun name hname => henv.get? (hn.input hname)
  rw [hinput]
  obtain ⟨vars, rfl, hv⟩ := henv
  exact ⟨vars, rfl, hv⟩

theorem closeSlots (input output : List (Option Value)) :
    Rel.Self (TickM.modifyEnv fun env => { env with input, output } : TickM σ Unit) :=
  h.beside (fun _ _ => rfl) (fun _ => rfl) (fun _ => rfl) fun _ => rfl

end TickM.Composes

namespace TickM.Respects

variable {Rel : TickM.Relation σ} (h : TickM.Respects o Seen Fits Rel)
include h

theorem withSlots {e e' : Engine σ} {n : Node} (hn : n.Heeds Seen)
    (hb : Rel _ (e.behave n.toSite n.behavior) (e'.behave n.toSite n.behavior)) :
    Rel _ (e.withSlots n) (e'.withSlots n) := by
  apply h.bindEnv
  rintro before _ ⟨vars, rfl, -⟩
  refine h.bind (h.openSlots hn) fun _ => h.bind (h.attempt hb) fun result => ?_
  apply h.bindEnv
  rintro env _ ⟨vars, rfl, -⟩
  exact h.bind (h.closeSlots before.input before.output) fun _ => h.pure _

/-- It is enough to know how a listening node subscribes, and what is seen of its end. -/
theorem listens {n : Node} {event : String} (hn : n.Heeds Seen) (hb : n.behavior = .listen event)
    (hreturned : ∀ status, Rel.Self (observe (.returned n.id status)))
    (hstart : ∀ target, EventKey.Heard ⟨event, target⟩ o → Rel.Self (Engine.startListening n.toSite event target))
    (e e' : Engine σ) : Rel _ (e.attend n) (e'.attend n) := by
  refine h.bind (h.withSlots hn ?_) fun r => h.bind (hreturned _) fun _ => h.pure r
  rw [hb]
  exact h.listen n.toSite hstart

theorem aside {m m' : TickM σ Unit} (hm : Rel _ m m') : Rel _ (Engine.aside m) (Engine.aside m') := by
  apply h.bindEnv
  rintro before _ ⟨vars, rfl, -⟩
  refine h.bind (h.attempt hm) fun r => ?_
  have hrest : Rel.Self (do
      TickM.modifyEnv fun env => { env with lastStatus := before.lastStatus }
      TickM.ofExcept r : TickM σ Unit) := h.bind (h.setLastStatus _) fun _ => h.ofExcept _
  cases r with
  | ok => exact hrest
  | error =>
    apply h.bindEnv
    rintro env _ ⟨vars, rfl, -⟩
    refine h.bind (h.beside (fun _ _ => rfl) (fun _ => rfl) (fun _ => rfl) fun _ => rfl) fun _ => ?_
    exact h.bind (h.abandon _) fun _ => hrest

end TickM.Respects

namespace Engine.Calls

variable {Rel : TickM.Relation σ} {e e' : Engine σ} (he : Engine.Calls o Seen Fits Rel e e')
include he

theorem dispatchNode {n : Node} {event : String} (hn : Fits n) (hb : n.behavior = .dispatch event) :
    Rel _ (e.dispatchNode n.toSite event) (e'.dispatchNode n.toSite event) := by
  refine he.bind (he.target? n.toSite 0) fun target => ?_
  cases target with
  | none => exact he.pure _
  | some target =>
    apply he.bindEnv
    rintro env _ ⟨vars, rfl, -⟩
    refine he.bind (he.dispatch hn hb _ _) fun heard => ?_
    exact he.when (he.record fun _ => rfl) (he.pure _)

theorem resumeAbove (level : Nat) : Rel _ (e.resumeAbove level) (e'.resumeAbove level) := by
  apply he.bindEnv
  rintro env _ ⟨vars, rfl, -⟩
  dsimp only
  cases env.stack.top? with
  | none => exact he.pure _
  | some top =>
    refine Rel.ite (he.pure _) (he.bind (he.run top) fun status => ?_)
    cases status with
    | running => exact he.pure _
    | success => exact he.resume level
    | failure => exact he.resume level

theorem runCaptured (id : NodeId) : Rel _ (e.runCaptured id) (e'.runCaptured id) := by
  apply he.bindEnv
  rintro env _ ⟨vars, rfl, -⟩
  exact he.bind (he.run id) fun _ => he.bind (he.capture _ _) fun _ => he.pure _

theorem resumeCaptured (saved : Stack) : Rel _ (e.resumeCaptured saved) (e'.resumeCaptured saved) := by
  apply he.bindEnv
  rintro env _ ⟨vars, rfl, -⟩
  refine he.bind (he.beside (fun _ _ => rfl) (fun _ => rfl) (fun _ => rfl) fun _ => rfl) fun _ => he.bind (he.resume _) fun _ => ?_
  exact he.bind (he.capture _ _) fun _ => he.pure _

theorem stepBranch (id : NodeId) (saved : Option Stack) : Rel _ (e.stepBranch id saved) (e'.stepBranch id saved) := by
  cases saved with
  | none => exact he.runCaptured id
  | some saved => exact he.resumeCaptured saved

theorem chain (site : Site) (next : Status) (i : Nat) (ids : List NodeId) :
    Rel _ (e.chain site next i ids) (e'.chain site next i ids) := by
  induction ids generalizing i with
  | nil => exact he.pure _
  | cons id ids ih =>
    refine he.bind (he.run id) fun status => ?_
    cases status with
    | running => exact he.suspend _ _
    | success => exact Rel.ite (ih _) (he.pure _)
    | failure => exact Rel.ite (ih _) (he.pure _)

theorem resumeChain (site : Site) (next : Status) : Rel _ (e.resumeChain site next) (e'.resumeChain site next) := by
  refine he.bind (he.saved? site) fun payload => ?_
  split
  · exact he.chain _ _ _ _
  · exact he.bind (he.childStatus site) fun _ => Rel.ite (he.chain _ _ _ _) (he.pure _)
  · exact he.rejectPayload site

theorem caseAction (site : Site) (case : Nat) (pair : List NodeId) :
    Rel _ (e.caseAction site case pair) (e'.caseAction site case pair) := by
  refine he.bind (he.element _ _) fun id => he.bind (he.run id) fun status => ?_
  cases status with
  | running => exact he.suspend _ _
  | success => exact he.pure _
  | failure => exact he.pure _

theorem tryCases (site : Site) (case : Nat) (ids : List NodeId) :
    Rel _ (e.tryCases site case ids) (e'.tryCases site case ids) := by
  induction ids generalizing case with
  | nil => exact he.pure _
  | cons id ids ih =>
    apply he.bindNode
    intro n _
    refine he.bind (he.element _ _) fun first => he.bind (he.run first) fun status => ?_
    cases status with
    | running => exact he.suspend _ _
    | success => exact he.caseAction _ _ _
    | failure => exact ih _

theorem switch (site : Site) : Rel _ (e.switch site) (e'.switch site) := by
  refine he.bind (he.saved? site) fun payload => ?_
  split
  · exact he.tryCases _ _ _
  · refine he.bind (he.childStatus site) fun status => Rel.ite (he.pure _) (Rel.ite ?_ (he.tryCases _ _ _))
    exact he.bind (he.child _ _) fun id => he.bindNode id fun n _ => he.caseAction _ _ _
  · exact he.rejectPayload site

theorem branchAt (site : Site) (position : Nat) : Rel _ (e.branchAt site position) (e'.branchAt site position) := by
  refine he.bind (he.child _ _) fun id => he.bind (he.run id) fun status => ?_
  cases status with
  | running => exact he.suspend _ _
  | success => exact he.pure _
  | failure => exact he.pure _

theorem branch (site : Site) (condition : Status) : Rel _ (e.branch site condition) (e'.branch site condition) := by
  cases condition with
  | running => exact he.suspend _ _
  | success => exact he.branchAt site 1
  | failure => exact he.branchAt site 2

theorem ifElse (site : Site) : Rel _ (e.ifElse site) (e'.ifElse site) := by
  refine he.bind (he.saved? site) fun payload => ?_
  split
  · exact he.bind (he.child _ _) fun id => he.bind (he.run id) fun status => he.branch _ _
  · exact he.bind (he.childStatus site) fun status => he.branch _ _
  · exact he.childStatus site
  · exact he.rejectPayload site

theorem pass (site : Site) (iteration i : Nat) (ids : List NodeId) :
    Rel _ (e.pass site iteration i ids) (e'.pass site iteration i ids) := by
  induction ids generalizing i with
  | nil => exact he.pure _
  | cons id ids ih =>
    refine he.bind (he.run id) fun status => ?_
    cases status with
    | running => exact he.bind (he.suspend _ _) fun _ => he.pure _
    | success => exact ih _
    | failure => exact he.pure _

theorem passes (site : Site) {enter : Nat → TickM σ Unit} (henter : ∀ i, Rel.Self (enter i))
    (count iteration : Nat) :
    Rel _ (e.passes site enter count iteration) (e'.passes site enter count iteration) := by
  induction count generalizing iteration with
  | zero => exact he.pure _
  | succ count ih =>
    refine he.bind (henter iteration) fun _ => he.bind (he.pass _ _ _ _) fun ending => ?_
    cases ending with
    | passed => exact ih _
    | failed => exact he.pure _
    | suspended => exact he.pure _

theorem iterate (site : Site) (iterations : Nat) {enter : Nat → TickM σ Unit} (henter : ∀ i, Rel.Self (enter i)) :
    Rel _ (e.iterate site iterations enter) (e'.iterate site iterations enter) := by
  refine he.bind (he.saved? site) fun payload => ?_
  split
  · exact he.passes site henter _ _
  · refine he.bind (he.childStatus site) fun status => ?_
    cases status with
    | success =>
      refine Rel.ite (he.bind (he.pass _ _ _ _) fun ending => ?_) (he.pure _)
      cases ending with
      | passed => exact he.passes site henter _ _
      | failed => exact he.pure _
      | suspended => exact he.pure _
    | failure => exact he.pure _
    | running => exact he.pure _
  · exact he.rejectPayload site

theorem forEach (site : Site) : Rel _ (e.forEach site) (e'.forEach site) := by
  apply he.bindEnv
  intro env env' henv
  rw [henv.input? 0]
  split
  · refine he.iterate site _ fun i => ?_
    exact he.bind (he.element _ _) fun v => he.bind (he.writeSlot _ _) fun _ => he.writeSlot _ _
  · exact he.bind (he.report _) fun _ => he.pure _

theorem loop (site : Site) (count : Nat) : Rel _ (e.loop site count) (e'.loop site count) :=
  he.iterate site count fun _ => he.writeSlot _ _

theorem stepAll (fresh : Bool) (children : List (NodeId × Option Stack)) :
    Rel _ (e.stepAll fresh children) (e'.stepAll fresh children) := by
  induction children with
  | nil => exact he.pure _
  | cons entry rest ih =>
    refine Rel.ite (he.bind ih fun _ => he.pure _) (he.bind (he.stepBranch _ _) fun r => ?_)
    exact he.bind ih fun _ => he.pure _

theorem parallel (site : Site) : Rel _ (e.parallel site) (e'.parallel site) :=
  he.bind (he.savedBranches site) fun _ => he.bind (he.stepAll _ _) fun _ => Rel.ite (he.suspend _ _) (he.pure _)

theorem raceAll (fresh : Bool) (passed : List (Option Stack)) (children : List (NodeId × Option Stack)) :
    Rel _ (e.raceAll fresh passed children) (e'.raceAll fresh passed children) := by
  induction children generalizing passed with
  | nil => exact he.pure _
  | cons entry rest ih =>
    refine Rel.ite (ih _) (he.bind (he.stepBranch _ _) fun r => ?_)
    obtain ⟨status, left⟩ := r
    cases status with
    | running => exact ih _
    | success => exact he.pure _
    | failure => exact ih _

theorem race (site : Site) : Rel _ (e.race site) (e'.race site) := by
  refine he.bind (he.savedBranches site) fun previous => he.bind (he.raceAll _ _ _) fun r => ?_
  refine Rel.ite (he.bind (he.forM _ fun _ => he.abandon _) fun _ => he.pure _) (Rel.ite (he.suspend _ _) (he.pure _))

theorem cleanUp (site : Site) : Rel _ (e.cleanUp site) (e'.cleanUp site) := by
  refine he.bind (he.child _ _) fun id => he.bind (he.runCaptured id) fun r => ?_
  exact Rel.ite (he.bind (he.report _) fun _ => he.abandon _) (he.pure _)

theorem guarded (site : Site) (saved : Option Stack) : Rel _ (e.guarded site saved) (e'.guarded site saved) := by
  refine he.bind (he.child _ _) fun id => he.bind (he.stepBranch id saved) fun r => ?_
  obtain ⟨status, left⟩ := r
  cases status with
  | running => exact he.suspend _ _
  | success => exact he.pure _
  | failure => exact he.pure _

theorem guardFailed (site : Site) (saved : Stack) : Rel _ (e.guardFailed site saved) (e'.guardFailed site saved) :=
  he.bind (he.report _) fun _ => he.bind (he.abandon _) fun _ => he.bind (he.cleanUp site) fun _ => he.pure _

theorem guard (site : Site) (saved : Option Stack) : Rel _ (e.guard site saved) (e'.guard site saved) := by
  refine he.bind (he.child _ _) fun id => he.bind (he.run id) fun status => ?_
  cases status with
  | running => exact he.rejectStatus _ _
  | success => exact he.guarded _ _
  | failure =>
    cases saved with
    | none => exact he.pure _
    | some saved => exact he.guardFailed _ _

theorem watchdog (site : Site) : Rel _ (e.watchdog site) (e'.watchdog site) := by
  refine he.bind (he.saved? site) fun payload => ?_
  split
  · exact he.guard _ _
  · exact he.guard _ _
  · exact he.rejectPayload site

theorem timeout (site : Site) (limit : Float) : Rel _ (e.timeout site limit) (e'.timeout site limit) := by
  refine he.bind (he.saved? site) fun payload => ?_
  split
  · refine he.bind (he.child _ _) fun id => he.bind (he.runCaptured id) fun r => he.bind he.time fun now => ?_
    exact he.expire _ _ _
  · exact he.bind (he.resumeCaptured _) fun r => he.expire _ _ _
  · exact he.rejectPayload site

theorem onlyChild (site : Site) : Rel _ (e.onlyChild site) (e'.onlyChild site) := by
  refine he.bind (he.saved? site) fun payload => ?_
  split
  · exact he.bind (he.child _ _) fun id => he.run id
  · exact he.childStatus site
  · exact he.rejectPayload site

theorem wrap (site : Site) (result : Status → Status) : Rel _ (e.wrap site result) (e'.wrap site result) := by
  refine he.bind (he.onlyChild site) fun status => ?_
  cases status with
  | running => exact he.suspend _ _
  | success => exact he.pure _
  | failure => exact he.pure _

theorem once {n : Node} (hn : Fits n) : Rel _ (e.once n.toSite) (e'.once n.toSite) := by
  apply he.bindEnv
  rintro env _ ⟨vars, rfl, -⟩
  refine Rel.ite (he.wrap _ _) (Rel.ite (he.pure _) ?_)
  exact he.bind (he.remember Engine.onceName hn fun _ => rfl) fun _ => he.wrap _ _

theorem startRun (site : Site) (limit : Option Nat) (policy : RepeatPolicy) (done : Nat) :
    Rel _ (e.startRun site limit policy done) (e'.startRun site limit policy done) := by
  refine Rel.ite (he.pure _) (he.bind (he.child _ _) fun id => he.bind (he.run id) fun status => ?_)
  cases status with
  | running => exact he.suspend _ _
  | success => exact he.countRun _ _ _ _ _
  | failure => exact he.countRun _ _ _ _ _

theorem repeated (site : Site) (limit : Option Nat) (policy : RepeatPolicy) :
    Rel _ (e.repeated site limit policy) (e'.repeated site limit policy) := by
  refine he.bind (he.saved? site) fun payload => ?_
  split
  · exact he.startRun _ _ _ _
  · exact he.bind (he.childStatus site) fun status => he.countRun _ _ _ _ _
  · exact he.startRun _ _ _ _
  · exact he.rejectPayload site

/-- A routine goes through the same steps, since what it sees when it looks around makes no difference to it. -/
theorem routine {n : Node} (hn : Fits n) (honce : n.behavior ≠ .once) {r : Routine} (hr : r.Heeds Seen) :
    Rel _ (e.routine n.toSite r) (e'.routine n.toSite r) := by
  induction r with
  | finish status => exact he.pure _
  | suspend payload => exact he.suspend _ _
  | reject => exact he.rejectPayload _
  | look next ih =>
    apply he.bindEnv
    intro env env' henv
    refine he.bind he.time fun now => he.bind he.owner fun tag => he.bind he.interrupted fun flagged => ?_
    have hsame : next ⟨env', now, tag, flagged⟩ = next ⟨env, now, tag, flagged⟩ := hr.1 ⟨env, now, tag, flagged⟩ env' henv
    dsimp only
    rw [hsame]
    exact ih _ (hr.2 _)
  | write name value next ih => exact he.bind (he.edit (.set name value)) fun _ => ih hr
  | remember name value next ih =>
    exact he.bind (he.remember name hn fun hb => absurd hb honce) fun _ => ih hr
  | plant id payload next ih =>
    apply he.bindNode
    intro n _
    exact he.bind (he.beside (fun _ _ => rfl) (fun _ => rfl) (fun _ => rfl) fun _ => rfl) fun _ => ih hr
  | push value next ih => exact he.bind (he.pushOutput value) fun _ => ih hr
  | interrupt next ih => exact he.bind he.interrupt fun _ => ih hr
  | note v next ih => exact he.bind (he.note v) fun _ => ih hr
  | run id next ih => exact he.bind (he.run id) fun status => ih status (hr status)
  | childStatus next ih => exact he.bind (he.childStatus _) fun status => ih status (hr status)

theorem behave {n : Node} (hn : Fits n) (hlisten : ∀ event, n.behavior ≠ .listen event) :
    Rel _ (e.behave n.toSite n.behavior) (e'.behave n.toSite n.behavior) := by
  have hheeds := (he.heeds hn).behavior
  cases hb : n.behavior with
  | sequence => exact he.resumeChain _ _
  | selector => exact he.resumeChain _ _
  | parallel => exact he.parallel _
  | race => exact he.race _
  | switch => exact he.switch _
  | case => exact he.bindTree fun _ _ => he.fail _
  | ifElse => exact he.ifElse _
  | forEach => exact he.forEach _
  | loop count => exact he.loop _ count
  | watchdog => exact he.watchdog _
  | repeated limit policy => exact he.repeated _ limit policy
  | invert => exact he.wrap _ _
  | always status => exact he.wrap _ _
  | once => exact he.once hn
  | timeout limit => exact he.timeout _ limit
  | delay span cache => exact he.putOff _ span (hb ▸ hheeds)
  | wait span => exact he.wait _ span
  | listen event => exact absurd hb (hlisten event)
  | dispatch event => exact he.dispatchNode hn hb
  | check expr => exact he.check _ (hb ▸ hheeds)
  | calculate expr => exact he.calculate _ (hb ▸ hheeds)
  | copy => exact he.copy _
  | isNull => exact he.isNull
  | notNull => exact he.notNull
  | log level text => exact he.log _ level text
  | now => exact he.now
  | leaf react => exact he.leaf _ (hb ▸ hheeds)
  | routine steps =>
    have hsteps : (Behavior.routine steps).Heeds Seen := hb ▸ hheeds
    have honce : n.behavior ≠ .once := by
      rw [hb]
      nofun
    exact he.routine hn honce (hsteps n.toSite)

end Engine.Calls

namespace Engine.Relates

variable {Rel : TickM.Relation σ} {e e' : Engine σ} (he : Engine.Relates o Seen Fits Rel e e')
include he

theorem attend {n : Node} (hn : Fits n) : Rel _ (e.attend n) (e'.attend n) := by
  by_cases hb : ∃ event, n.behavior = .listen event
  · obtain ⟨event, hb⟩ := hb
    exact he.listens hn (he.heeds hn) hb e e'
  · have hlisten : ∀ event, n.behavior ≠ .listen event := fun event hbehavior => hb ⟨event, hbehavior⟩
    refine he.bind (he.withSlots (he.heeds hn) (he.behave hn hlisten)) fun r => ?_
    exact he.bind (he.returned _ hn hlisten) fun _ => he.pure r

theorem takeUp (n : Node) (resumed : Bool) (r : Except RunError Status × List (Option Value)) :
    Rel.Self (Engine.takeUp n resumed r : TickM σ Status) := by
  refine he.bind (he.ofExcept _) fun status => he.bind he.interrupted fun flagged => Rel.ite (he.pure _) ?_
  exact he.when (he.report _) (he.conclude _ _ _)

theorem runDelayed (id : NodeId) {cache : List (String × Option Value)} (hcache : ∀ entry ∈ cache, Seen entry.1) :
    Rel _ (e.runDelayed id cache) (e'.runDelayed id cache) := by
  apply he.bindEnv
  intro env env' henv
  have hbefore : (cache.map fun entry => (entry.1, env'.get? entry.1)) =
      cache.map fun entry => (entry.1, env.get? entry.1) := by
    apply List.map_congr_left
    intro entry hentry
    rw [henv.get? (hcache entry hentry)]
  dsimp only
  rw [hbefore]
  refine he.bind (he.assignAll _) fun _ => he.bind (he.attempt ?_) fun r => ?_
  · exact he.bind (he.runCaptured id) fun r => he.cutOff id r
  · exact he.bind (he.assignAll _) fun _ => he.ofExcept _

theorem runFired (listener only : NodeId) (event : Event) :
    Rel _ (e.runFired listener only event) (e'.runFired listener only event) := by
  refine he.bind (he.takeOff listener) fun _ => he.bindNode listener fun n _ => ?_
  exact he.bind (he.writeEvent _ _) fun _ => he.bind (he.runCaptured only) fun _ => he.park listener _

theorem runFor {job : Job} (hjob : job.Heeds Seen) : Rel _ (e.runFor job) (e'.runFor job) := by
  cases job with
  | delayed id cache => exact he.runDelayed id hjob
  | fired listener only event => exact he.runFired listener only event

theorem runAside {job : Job} (hjob : job.Heeds Seen) :
    Rel _ (Engine.aside (e.runFor job)) (Engine.aside (e'.runFor job)) := he.aside (he.runFor hjob)

/-- A node may be called whose beginning may be seen. -/
theorem runFramed {n : Node} (hn : Fits n) {resumed : Bool} (hcalled : Rel.Self (TickM.observe (.called n.id resumed))) :
    Rel _ (e.runFramed n resumed) (e'.runFramed n resumed) := by
  rw [Engine.runFramed_attend, Engine.runFramed_attend]
  exact he.bind hcalled fun _ => he.bind (he.attend hn) fun r => he.takeUp n resumed r

theorem runNode {n : Node} (hn : Fits n) (hcalled : ∀ resumed, Rel.Self (TickM.observe (.called n.id resumed))) :
    Rel _ (e.runNode n) (e'.runNode n) := by
  apply he.bindEnv
  rintro env _ ⟨vars, rfl, -⟩
  refine he.unlessDone ?_ (he.runFramed hn (hcalled _))
  exact he.beside (fun _ _ => rfl) (fun _ => rfl) (fun _ => rfl) fun _ => rfl

end Engine.Relates

theorem Engine.Corresponds.runDeeper {Rel : TickM.Relation σ} {e e' : Engine σ}
    (he : Engine.Corresponds o Seen Fits Rel e e') (id : NodeId) : Rel _ (e.deeper.run id) (e'.deeper.run id) :=
  he.bindNode id fun _ hn => he.runNode hn (he.called _)

end BehaviorTree
