import BehaviorTree.Proofs.Isolation.Nodes
import BehaviorTree.Proofs.Steps.Runs
import BehaviorTree.Proofs.World.Lookout

/-!
Runners: instances in worlds where nothing else goes on. What a runner does in a tick is what its tree does from the
state that it was left in.
-/

namespace BehaviorTree
set_option autoImplicit false

variable {σ : Type}

theorem World.Around.calls {w w' : World σ} {o : Tag} (h : World.Around o w w') :
    w'.calls o = w.calls o :=
  h.filterMap_acts fun a ha => by cases a <;> first | rfl | exact ha.elim

theorem Stack.isEmpty_iff {s : Stack} : s.isEmpty = true ↔ s = ∅ :=
  ⟨fun h => congrArg Stack.mk (List.isEmpty_iff.mp h), fun h => h ▸ rfl⟩

namespace Tree

def Holds (t : Tree) (id : NodeId) : Prop := ∃ n, t.get? id = some n

theorem Region.holds {t : Tree} {a x : NodeId} (h : t.Region a x) (ht : t.Orderly) (ha : t.Holds a) : t.Holds x := by
  rcases h.cases_tail with rfl | ⟨y, _, hstarts⟩
  · exact ha
  · exact ht.exists_of_starts hstarts

end Tree

/-! ## Machines -/

inductive Action where
  | run
  | update (dt : Float)

/-- What is seen of a tick: its result, the labels that it appends to the trace, and the nodes that it calls. -/
structure Sight where
  status : Status
  labels : List Value
  calls : List NodeId

/-- Something that has ticks and a clock. Where it fails, nothing is said of it. -/
structure Machine (S : Type) where
  tick : S → Option (Sight × S)
  update : Float → S → Option S

namespace Machine

variable {S S' : Type}

def play (m : Machine S) : List Action → S → Option (List Sight)
  | [], _ => some []
  | .run :: actions, s => do
    let ticked ← m.tick s
    let sights ← m.play actions ticked.2
    return ticked.1 :: sights
  | .update dt :: actions, s => do
    let s ← m.update dt s
    m.play actions s

/-- A machine is seen to do what another does if each of its steps follows one of the other. -/
theorem play_of_follows {m : Machine S} {m' : Machine S'} {F : S → S' → Prop}
    (htick : ∀ {s s' sight u}, F s s' → m.tick s = some (sight, u) → ∃ u', m'.tick s' = some (sight, u') ∧ F u u')
    (hupdate : ∀ {dt s s' u}, F s s' → m.update dt s = some u → ∃ u', m'.update dt s' = some u' ∧ F u u')
    {actions : List Action} {s : S} {s' : S'} {sights : List Sight} (h : F s s') (hp : m.play actions s = some sights) :
    m'.play actions s' = some sights := by
  induction actions generalizing s s' sights with
  | nil => exact hp
  | cons action actions ih =>
    cases action with
    | run =>
      obtain ⟨⟨sight, u⟩, hu, hrest⟩ := Option.bind_eq_some_iff.mp hp
      obtain ⟨rest, hplay, heq⟩ := Option.bind_eq_some_iff.mp hrest
      obtain ⟨u', hu', hf⟩ := htick h hu
      rw [play, hu', Option.bind_eq_bind, Option.bind_some, ih hf hplay]
      exact heq
    | update dt =>
      obtain ⟨u, hu, hplay⟩ := Option.bind_eq_some_iff.mp hp
      obtain ⟨u', hu', hf⟩ := hupdate h hu
      rw [play, hu', Option.bind_eq_bind, Option.bind_some]
      exact ih hf hplay

end Machine

namespace Workbench

def labels : Option Value → List Value
  | some (.array labels) => labels
  | _ => []

def isTrace : Option Value → Bool
  | none | some (.array _) => true
  | some _ => false

theorem isTrace_extendBy (trace : Option Value) (ls : List Value) : isTrace (extendBy trace ls) = isTrace trace := by
  induction ls generalizing trace with
  | nil => rfl
  | cons label ls ih =>
    rw [extendBy, List.foldl_cons, ← extendBy, ih]
    cases trace with
    | none => rfl
    | some v => cases v <;> rfl

theorem labels_extendBy (trace : Option Value) (ls : List Value) :
    labels (extendBy trace ls) = labels trace ++ if isTrace trace then ls else [] := by
  induction ls generalizing trace with
  | nil => simp [extendBy]
  | cons label ls ih =>
    rw [extendBy, List.foldl_cons, ← extendBy, ih]
    cases trace with
    | none => simp [extendTrace, labels, isTrace]
    | some v => cases v <;> simp [extendTrace, labels, isTrace]

end Workbench

/-- An instance, in the world that it is run in. -/
structure Runner (σ : Type) where
  owner : Tag
  world : World σ

namespace Runner

open Workbench

def of (w : World σ) (tree : Tree) (vars : Variables) : Runner σ := ⟨(w.create tree vars).1, (w.create tree vars).2⟩

def tree (r : Runner σ) : Tree := (r.world.instanceOf r.owner).tree

def env (r : Runner σ) : Env := (r.world.instanceOf r.owner).env

/-- The frames that the next tick goes on from. -/
def saved (r : Runner σ) : Option Stack := if r.env.stack.isEmpty then none else some r.env.stack

section Of

variable {w : World σ} {tree : Tree} {vars : Variables}

theorem instanceOf_of : (of w tree vars).world.instanceOf (of w tree vars).owner = { tree, env := { vars } } :=
  Std.ExtTreeMap.getD_insert_self

@[simp] theorem tree_of : (of w tree vars).tree = tree := congrArg Instance.tree instanceOf_of

@[simp] theorem env_of : (of w tree vars).env = { vars } := congrArg Instance.env instanceOf_of

@[simp] theorem saved_of : (of w tree vars).saved = none := by
  rw [saved, env_of]
  rfl

end Of

def labels (r : Runner σ) : List Value := Workbench.labels r.env.vars["trace"]?

def calls (r : Runner σ) : List NodeId := r.world.calls r.owner

/-- Runs of the instance, with calls nested up to a depth. -/
def machine (depth : Nat) : Machine (Runner σ) where
  tick r :=
    match ((Engine.ofDepth depth).runTree r.owner).run r.world with
    | .ok (.ok status, world) =>
      let after : Runner σ := { r with world }
      some (⟨status, after.labels.drop r.labels.length, after.calls.drop r.calls.length⟩, after)
    | _ => none
  update dt r :=
    match ((Engine.ofDepth depth).update dt).run r.world with
    | .ok (_, world) => some { r with world }
    | .error _ => none

/-- Some time later. -/
def later (r : Runner σ) (dt : Float) : Runner σ := { r with world := { r.world with time := r.world.time + dt } }

/-- The state in which the next tick begins. -/
def start (r : Runner σ) (env : Env) : Tick σ := ⟨env, r.world.entered r.owner⟩

def step (depth : Nat) (tree : Tree) (env : Env) : TickM σ Status :=
  if env.stack.isEmpty then (Engine.ofDepth depth).run tree.root else (Engine.ofDepth depth).resume 0

/-- A runner between ticks. Nothing else goes on in its world. -/
structure Idles (tree : Tree) (env : Env) (r : Runner σ) : Prop where
  instanceOf : r.world.instanceOf r.owner = { tree, env }
  subscriptions : r.world.subscriptions = ∅
  delays : r.world.delays = ∅

variable {depth : Nat} {r : Runner σ} {tree : Tree} {env : Env} {t : Tick σ} {status : Status}

namespace Idles

variable (h : r.Idles tree env)
include h

theorem solo : r.world.Solo r.owner tree env := by
  refine ⟨h.instanceOf, fun event => ?_⟩
  rw [h.subscriptions]
  rfl

theorem calm : ((r.start env).world.instanceOf r.owner).interrupted = false :=
  congrArg Instance.interrupted h.solo.instanceOf_entered

theorem tree_eq : r.tree = tree := by rw [Runner.tree, h.instanceOf]

theorem env_eq : r.env = env := by rw [Runner.env, h.instanceOf]

theorem labels_eq : r.labels = Workbench.labels env.vars["trace"]? := by rw [labels, h.env_eq]

theorem update_eq (dt : Float) : (machine depth).update dt r = some (r.later dt) := by
  have hdue : (∅ : Delays (Alarm σ)).takeDue (r.world.time + dt) = ([], ∅) := by
    have hnone : (∅ : Delays (Alarm σ)).pending.toList = [] := Std.ExtTreeMap.toList_eq_nil_iff.mpr rfl
    rw [Delays.takeDue, Delays.due, hnone, List.filterMap_nil, List.mergeSort_nil]
    rfl
  have hrun : ((Engine.ofDepth depth).update dt).run r.world =
      .ok ((), { r.world with time := r.world.time + dt }) := by
    rw [Engine.update, StateT.run_bind, StateT.run_get, pure_bind, StateT.run_bind, StateT.run_get, pure_bind,
      h.delays, hdue, StateT.run_bind, StateT.run_modify, ← h.delays]
    rfl
  rw [machine]
  simp only [hrun]
  rfl

theorem later (dt : Float) : (r.later dt).Idles tree env := ⟨h.instanceOf, h.subscriptions, h.delays⟩

/-- A step that ends with a status, and leaves the world alone, is seen as a tick. -/
theorem tick_of_ok (hm : step depth tree env ⟨r.owner, tree⟩ (r.start env) = .ok status t)
    (ht : ∃ journal, t.world = { (r.start env).world with journal }) :
    ∃ r' : Runner σ, r'.owner = r.owner ∧ r'.Idles tree t.env ∧ r'.world.time = r.world.time ∧
      ((Engine.ofDepth depth).runTree r.owner).run r.world = .ok (.ok status, r'.world) ∧
      (machine depth).tick r = some (⟨status, (Workbench.labels t.env.vars["trace"]?).drop r.labels.length,
        (t.world.calls r.owner).drop r.calls.length⟩, r') := by
  obtain ⟨d, rfl⟩ : ∃ d, depth = d + 1 := by
    refine Nat.exists_eq_add_one_of_ne_zero fun hzero => ?_
    subst hzero
    rw [step] at hm
    split at hm <;> cases hm
  obtain ⟨w', hrun, haround, hsolo⟩ := Engine.runTree_of_ok h.solo (fun w hw => Engine.gives_runPending d hw) hm ht
  obtain ⟨journal, hworld⟩ := ht
  have hidles : (⟨r.owner, w'⟩ : Runner σ).Idles tree t.env := by
    refine ⟨hsolo.instanceOf, ?_, ?_⟩
    · rw [haround.subscriptions, hworld]
      exact h.subscriptions
    · rw [haround.delays, hworld]
      exact h.delays
  refine ⟨⟨r.owner, w'⟩, rfl, hidles, ?_, hrun, ?_⟩
  · rw [haround.time, hworld]
    exact (r.world.around_entered (o := r.owner)).time
  · rw [machine]
    have hcalls : (⟨r.owner, w'⟩ : Runner σ).calls = t.world.calls r.owner := haround.calls
    simp only [hrun, hidles.labels_eq, hcalls]

theorem tick_of_failed {error : RunError} (hm : step depth tree env ⟨r.owner, tree⟩ (r.start env) = .failed error t) :
    (machine depth).tick r = none := by
  obtain ⟨w', hrun⟩ := Engine.runTree_of_failed h.solo hm
  rw [machine]
  simp only [hrun]

theorem tick_of_halted {halt : Halt} (hm : step depth tree env ⟨r.owner, tree⟩ (r.start env) = .halted halt) :
    (machine depth).tick r = none := by
  have hrun := Engine.runTree_of_halted h.solo hm
  rw [machine]
  simp only [hrun]

end Idles

/-- A runner between ticks, in a world that keeps the rules. What is suspended has reported so. -/
structure Kept (R : Rules σ) (tree : Tree) (env : Env) (r : Runner σ) : Prop extends r.Idles tree env where
  good : r.world.Good R
  here : r.world.instances[r.owner]? = some { tree, env }
  last : env.stack ≠ ∅ → env.lastStatus = .running

namespace Kept

variable {R : Rules σ} (h : r.Kept R tree env)
include h

theorem orderly : tree.Orderly := h.good.orderly h.here

theorem rests : R.Rests tree env (r.world.spilled r.owner tree) := ((h.good.holds h.here).idle rfl).2.2

theorem begun : (r.start env).Runs R ⟨r.owner, tree⟩ := by
  have hchanges : r.world.Changes (r.world.entered r.owner) r.owner { tree, env, executing := true }
      [.announced Lifecycle.beforeRun.name [], .entered] :=
    (((World.Changes.refl h.here).modify fun i => { i with executing := true }).observe _).observe _
  refine ⟨h.good.of_changes h.here hchanges rfl (by simp) (by simp), _, hchanges.self, rfl, rfl⟩

theorem ticked (depth : Nat) : (step depth tree env ⟨r.owner, tree⟩ (r.start env)).Meets
    (fun status => (r.start env).Ticked R ⟨r.owner, tree⟩ (.ok status)) fun error =>
      (r.start env).Ticked R ⟨r.owner, tree⟩ (.error error) := by
  refine (Engine.serves_ofDepth depth).sound.ticked h.begun ?_
  have hacts : (r.start env).world.acts r.owner =
      r.world.acts r.owner ++ [.announced Lifecycle.beforeRun.name [], .entered] := by
    simp [start, World.entered, World.opened, World.acts_observe]
  rw [Tick.watch, World.watch_of_acts hacts]
  exact h.rests

theorem later (dt : Float) : (r.later dt).Kept R tree env :=
  ⟨h.toIdles.later dt, h.good.of_eq rfl h.good.host rfl rfl rfl (Nat.le_refl _) fun _ => rfl, h.here, h.last⟩

/-- A tick keeps the rules, and frames are left just if it is running. -/
theorem tick (hs : R.swap = false) (hm : step depth tree env ⟨r.owner, tree⟩ (r.start env) = .ok status t)
    (ht : ∃ journal, t.world = { (r.start env).world with journal }) (hstatus : t.env.lastStatus = status) :
    (status = .running ↔ t.env.stack ≠ ∅) ∧
    ∃ r' : Runner σ, r'.owner = r.owner ∧ r'.Kept R tree t.env ∧ r'.world.time = r.world.time ∧
      (machine depth).tick r = some (⟨status, (Workbench.labels t.env.vars["trace"]?).drop r.labels.length,
        (t.world.calls r.owner).drop r.calls.length⟩, r') := by
  have hticked := h.ticked depth
  rw [hm] at hticked
  have hcalm : ¬ t.Flagged ⟨r.owner, tree⟩ := by
    obtain ⟨journal, hworld⟩ := ht
    rw [Tick.Flagged, hworld]
    exact fun hf => Bool.false_ne_true (h.calm.symm.trans hf)
  have hrunning := hticked.running rfl hcalm hs
  obtain ⟨r', howner, hidles, htime, hrun, htick⟩ := h.tick_of_ok hm ht
  have hserves := (Engine.serves_ofDepth depth).runTree h.good h.here rfl
  rw [World.After, hrun] at hserves
  obtain ⟨i', _, hgoes, -⟩ := hserves
  have hhere : r'.world.instances[r'.owner]? = some { tree, env := t.env } := by
    rw [howner, hgoes.here, ← hidles.instanceOf, howner, World.instanceOf_eq hgoes.here]
  refine ⟨hrunning, r', howner, ⟨hidles, hgoes.good, hhere, fun hne => ?_⟩, htime, htick⟩
  rw [hstatus, hrunning.mpr hne]

section Still

variable (hs : R.swap = false) (hl : ∀ (x : NodeId) (n : Node), tree.get? x = some n → n.behavior.Local)
include hs

theorem frames {x : NodeId} (hx : x ∈ env.stack.frames) : tree.Holds x := by
  rcases (h.rests.ordered hs).main with ⟨hnil, _⟩ | hsuspended
  · rw [hnil] at hx
    cases hx
  · exact (hsuspended.mem_frames hx).1.holds h.orderly h.orderly.rooted

theorem nested {x y : NodeId} {p : Payload} (hp : env.temps[x]? = some p) (hy : y ∈ p.nestedFrames) :
    tree.Holds y := by
  obtain ⟨c, hstarts, hregion⟩ := (h.rests.ordered hs).inward hp hy
  exact hregion.holds h.orderly (h.orderly.exists_of_starts hstarts)

include hl

/-- Where something is suspended, frames are left, and all stacks that are cut off have some. -/
theorem waits {x : NodeId} {p : Payload} (hp : env.temps[x]? = some p) :
    env.lastStatus = .running ∧ ∀ s ∈ p.nested, s.frames ≠ [] := by
  have hordered := h.rests.ordered hs
  obtain ⟨k, hbase, hregion⟩ := hordered.based (x := x) (by simp [hp])
  have hk : k = tree.root := by
    rcases hbase with rfl | ⟨l, n, event, hn, hb, _⟩ | ⟨d, n, span, cache, hn, hb, _⟩
    · rfl
    · have hlocal := hl l n hn
      rw [hb] at hlocal
      exact hlocal.elim
    · have hlocal := hl d n hn
      rw [hb] at hlocal
      exact hlocal.elim
  subst hk
  rcases hordered.main with ⟨_, hidle⟩ | hsuspended
  · rw [hidle x hregion] at hp
    cases hp
  · refine ⟨h.last fun hempty => hsuspended.ne_nil (congrArg Stack.frames hempty), fun s hs' => ?_⟩
    obtain ⟨c, _, hc⟩ := hsuspended.nested h.orderly hregion hp hs'
    exact hc.ne_nil

end Still

end Kept

end Runner

end BehaviorTree
