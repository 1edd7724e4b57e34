import Mathlib.Data.List.Nodup
import BehaviorTree.Proofs.Isolation.Teams
import BehaviorTree.Proofs.Tree.Documents

/-!
Parallel branches are isolated: a tree with a parallel root, whose branches share no variable but the trace, is seen
to do what runners of its branches do side by side.
-/

namespace BehaviorTree
set_option autoImplicit false

variable {σ : Type}

namespace Team

/-- A runner of a tree with a parallel root, beside runners of the branches. -/
structure Follows (R : Rules σ) (tree : Tree) (n : Node) (team : Team σ) (r : Runner σ) : Prop where
  idles : r.Idles tree r.env
  waits : Waits R tree n team r.env r.world.time

variable {R : Rules σ} {tree : Tree} {n : Node} {team : Team σ} {r : Runner σ} {depth depth' : Nat}

/-- A team some time later. -/
def later (team : Team σ) (dt : Float) : Team σ := team.map fun m => { m with runner := m.runner.later dt }

theorem trees_later (team : Team σ) (dt : Float) : trees (later team dt) = trees team := by
  rw [trees, later, List.map_map]
  rfl

theorem saved_later (team : Team σ) (dt : Float) : saved (later team dt) = saved team := by
  rw [saved, later, List.map_map]
  rfl

theorem any_busy_later (team : Team σ) (dt : Float) : (later team dt).any Member.busy = team.any Member.busy := by
  rw [later, List.any_map]
  rfl

theorem update_eq (root : NodeId) (dt : Float) (h : ∀ m ∈ team, m.runner.Kept R m.runner.tree m.runner.env) :
    (machine root depth).update dt team = some (later team dt) := by
  change team.mapM (fun m => do
    let runner ← (Runner.machine depth).update dt m.runner
    return ({ m with runner } : Member σ)) = some (later team dt)
  induction team with
  | nil => rfl
  | cons m team ih =>
    obtain ⟨hm, hrest⟩ := List.forall_mem_cons.mp h
    rw [List.mapM_cons, hm.update_eq, ih hrest]
    rfl

namespace Follows

variable (h : Follows R tree n team r)
include h

theorem later (dt : Float) : Follows R tree n (Team.later team dt) (r.later dt) := by
  refine ⟨h.idles.later dt, List.forall_mem_map.mpr fun m hm => ?_, ?_, List.forall_mem_map.mpr h.waits.busy, ?_, ?_,
    ?_⟩
  · have hj := h.waits.joins m hm
    exact ⟨hj.kept.later dt, hj.part, hj.alike, congrArg (· + dt) hj.time⟩
  · rw [trees_later]
    exact h.waits.apart
  · rw [trees_later]
    exact h.waits.children
  · rw [any_busy_later]
    exact h.waits.stack
  · rw [payload, any_busy_later, saved_later]
    exact h.waits.payload

theorem of_ticked {sights : List Sight} {team' : Team σ} {s : Status} {u : Tick σ}
    (hm : Runner.step depth' tree r.env ⟨r.owner, tree⟩ (r.start r.env) = .ok s u)
    (hu : Ticked R ⟨r.owner, tree⟩ n (r.start r.env) sights team' s u) :
    ∃ r', (Runner.machine depth').tick r =
        some (⟨status team', sights.flatMap Sight.labels, n.id :: sights.flatMap Sight.calls⟩, r') ∧
      Follows R tree n team' r' := by
  obtain ⟨r', -, hidles, htime, -, htick⟩ := h.idles.tick_of_ok hm hu.world
  obtain ⟨journal, hworld⟩ := hu.world
  have hlabels : (Workbench.labels u.env.vars["trace"]?).drop r.labels.length = sights.flatMap Sight.labels := by
    rw [hu.labels]
    exact List.drop_left
  have hcalls : (u.world.calls r.owner).drop r.calls.length = n.id :: sights.flatMap Sight.calls := by
    rw [show u.world.calls r.owner = _ from hu.calls,
      show (r.start r.env).world.calls r.owner = r.calls from (World.around_entered r.world).calls]
    exact List.drop_left
  have htime' : u.world.time = r'.world.time := by
    rw [htime, hworld]
    exact (World.around_entered (o := r.owner) r.world).time
  refine ⟨r', ?_, ?_⟩
  · rw [htick, hlabels, hcalls, hu.status]
  · have henv := hidles.env_eq
    refine ⟨henv ▸ hidles, ?_⟩
    rw [henv, ← htime']
    exact hu.waits

variable (hswap : R.swap = false) (hget : tree.get? tree.root = some n) (hn : n.id = tree.root)
  (hb : n.behavior = .parallel)
include hswap hget hn hb

theorem echoes {forward : Prop} (hd : depth + 2 ≤ depth' ∧ forward ∨ depth' ≤ depth ∧ ¬ forward) :
    Outcome.Echoes forward
      (fun stepped s u => Ticked R ⟨r.owner, tree⟩ n (r.start r.env) stepped.1 stepped.2 s u)
      (step depth (round team)) (Runner.step depth' tree r.env ⟨r.owner, tree⟩ (r.start r.env)) := by
  refine Team.tick hswap hd ?_ hget hn hb h.idles.calm
  have htime : (r.start r.env).world.time = r.world.time := (World.around_entered (o := r.owner) r.world).time
  rw [htime]
  exact h.waits

/-- If no tick of the runners fails, none of the tree does. -/
theorem tick {sight : Sight} {team' : Team σ} (hd : depth + 2 ≤ depth')
    (ht : (machine tree.root depth).tick team = some (sight, team')) :
    ∃ r', (Runner.machine depth').tick r = some (sight, r') ∧ Follows R tree n team' r' := by
  obtain ⟨stepped, hstepped, heq⟩ := Option.bind_eq_some_iff.mp ht
  obtain ⟨rfl, rfl⟩ := Prod.mk.inj (Option.some.inj heq)
  have hechoes := h.echoes hswap hget hn hb (.inl ⟨hd, trivial⟩)
  obtain ⟨s, u, hm, hu⟩ := hechoes.forward_ok hstepped
  rw [← hn]
  exact h.of_ticked hm hu

theorem tick_team {sight : Sight} {r' : Runner σ} (hd : depth' ≤ depth)
    (ht : (Runner.machine depth').tick r = some (sight, r')) :
    ∃ team', (machine tree.root depth).tick team = some (sight, team') ∧ Follows R tree n team' r' := by
  have hechoes := h.echoes hswap hget hn hb (.inr ⟨hd, not_false⟩)
  cases hm : Runner.step depth' tree r.env ⟨r.owner, tree⟩ (r.start r.env) with
  | ok s u =>
    obtain ⟨stepped, hstepped, hu⟩ := hechoes.backward_some hm
    obtain ⟨r'', htick, hfollows⟩ := h.of_ticked hm hu
    obtain ⟨rfl, rfl⟩ := Prod.mk.inj (Option.some.inj (ht.symm.trans htick))
    refine ⟨stepped.2, Option.bind_eq_some_iff.mpr ⟨stepped, hstepped, ?_⟩, hfollows⟩
    rw [hn]
    rfl
  | failed error u =>
    rw [h.idles.tick_of_failed hm] at ht
    cases ht
  | halted halt =>
    rw [h.idles.tick_of_halted hm] at ht
    cases ht

/-- The tree is seen to do what the runners do, and the other way round. -/
theorem play {actions : List Action} {sights : List Sight} :
    ((machine tree.root depth).play actions team = some sights →
      ∀ depth' ≥ depth + 2, (Runner.machine depth').play actions r = some sights) ∧
    ((Runner.machine depth).play actions r = some sights →
      ∀ depth' ≥ depth, (machine tree.root depth').play actions team = some sights) := by
  have hupdate : ∀ {dt : Float} {team : Team σ} {r : Runner σ} (d d' : Nat), Follows R tree n team r →
      (machine tree.root d).update dt team = some (Team.later team dt) ∧
        (Runner.machine d').update dt r = some (r.later dt) ∧ Follows R tree n (Team.later team dt) (r.later dt) :=
    fun d d' hf => ⟨update_eq _ _ fun m hm => (hf.waits.joins m hm).kept, hf.idles.update_eq _, hf.later _⟩
  refine ⟨fun hplay d' hd => ?_, fun hplay d' hd => ?_⟩
  · refine Machine.play_of_follows (F := Follows R tree n) (fun hf => hf.tick hswap hget hn hb hd) (fun hf hu => ?_) h
      hplay
    obtain ⟨hteam, hrunner, hlater⟩ := hupdate depth d' hf
    obtain rfl := Option.some.inj (hteam.symm.trans hu)
    exact ⟨_, hrunner, hlater⟩
  · refine Machine.play_of_follows (F := fun r team => Follows R tree n team r)
      (fun hf => hf.tick_team hswap hget hn hb hd) (fun hf hu => ?_) h hplay
    obtain ⟨hteam, hrunner, hlater⟩ := hupdate d' depth hf
    obtain rfl := Option.some.inj (hrunner.symm.trans hu)
    exact ⟨_, hteam, hlater⟩

end Follows

end Team

/-! ## Loaded trees -/

/-- A world without instances, where nobody waits for anything. -/
structure World.Fresh (w : World σ) : Prop where
  instances : w.instances = ∅
  subscriptions : w.subscriptions = ∅
  delays : w.delays = ∅
  acts (o : Tag) : w.acts o = []

/-- The rules of a world whose host does nothing but run trees. -/
def World.rules (w : World σ) (h : w.registry.Plain) : Rules σ where
  registry := w.registry
  plain := h
  host := fun _ => True
  swap := false

theorem World.Fresh.good {w : World σ} (h : w.Fresh) (hr : w.registry.Plain) : w.Good (w.rules hr) := by
  have hstart : ({ registry := w.registry, host := w.host } : World σ).Good (w.rules hr) := .start trivial
  exact hstart.of_eq rfl trivial h.subscriptions h.delays h.instances (Nat.zero_le _) h.acts

theorem World.Fresh.kept {w : World σ} (h : w.Fresh) (hr : w.registry.Plain) {tree : Tree} (ht : w.registry.Loads tree)
    (vars : Variables) : (Runner.of w tree vars).Kept (w.rules hr) tree { vars } := by
  have hhere : (w.create tree vars).2.instances[(w.create tree vars).1]? = some { tree, env := { vars } } := by
    simp [World.create, World.newTag, World.setInstance]
  have habides : w.Abides (w.rules hr) false (w.create tree vars).2 := .create (h.good hr) ht vars
  exact ⟨⟨Runner.instanceOf_of, h.subscriptions, h.delays⟩, habides.good, hhere, fun hne => absurd rfl hne⟩

namespace Tree

/-- The root is a parallel node. Below it, nodes reach for nothing beyond their ticks, and no branch depends on a
variable that another may change; the trace is left to the labels. -/
structure Isolates (t : Tree) : Prop where
  root : ∃ n, t.get? t.root = some n ∧ n.behavior = .parallel
  behavior {id : NodeId} {n : Node} : t.get? id = some n → id ≠ t.root → n.behavior.Local
  trace {id : NodeId} {n : Node} : t.get? id = some n → id ≠ t.root → ¬ n.Reads "trace" ∧ ¬ n.Sets "trace"
  apart {c d x y : NodeId} {n m : Node} {name : String} : t.Parent t.root c → t.Parent t.root d → c ≠ d →
    Relation.ReflTransGen t.Parent c x → Relation.ReflTransGen t.Parent d y → t.get? x = some n → t.get? y = some m →
    n.Sets name → ¬ m.Reads name

section Branches

variable {registry : Registry} {compile : Compiler} {strict : Bool} {spec : TreeSpec} {t u v : Tree} {d e : NodeSpec}

theorem mem_loaded_of_enabled (hd : d ∈ spec.root.enabled) (he : e ∈ d.loaded) : e ∈ spec.root.loaded := by
  rw [NodeSpec.loaded_eq]
  exact List.mem_cons_of_mem _ (List.mem_flatMap.mpr ⟨d, hd, he⟩)

theorem nodup_branches (h : (load registry compile strict spec).1 = .ok t) :
    (∀ d ∈ spec.root.enabled, spec.root.id ∉ d.loaded.map (·.id)) ∧
      (∀ d ∈ spec.root.enabled, (d.loaded.map (·.id)).Nodup) ∧
      spec.root.enabled.Pairwise fun d e => (d.loaded.map (·.id)).Disjoint (e.loaded.map (·.id)) := by
  have hnodup := (load_succeeds_iff.mp ⟨t, h⟩).2
  rw [NodeSpec.loaded_eq, List.map_cons, List.map_flatMap, List.nodup_cons, List.nodup_flatMap] at hnodup
  obtain ⟨hroot, heach, hpairs⟩ := hnodup
  exact ⟨fun d hd hmem => hroot (List.mem_flatMap.mpr ⟨d, hd, hmem⟩), heach, hpairs⟩

theorem exists_branch (h : (load registry compile strict spec).1 = .ok t) (hd : d ∈ spec.root.enabled) :
    ∃ u, (load registry compile strict { spec with root := d }).1 = .ok u :=
  load_succeeds_iff.mpr ⟨fun e he => (load_succeeds_iff.mp ⟨t, h⟩).1 e (mem_loaded_of_enabled hd he),
    (nodup_branches h).2.1 d hd⟩

variable (h : t.Mirrors registry compile spec) (hd : d ∈ spec.root.enabled)
  (hu : u.Mirrors registry compile { spec with root := d })
include hu

theorem Mirrors.holds_iff {id : NodeId} : u.Holds id ↔ id ∈ d.loaded.map (·.id) := (hu.keys id).trans List.mem_map.symm

include h hd

theorem Mirrors.get?_of_branch {id : NodeId} {n : Node} (hn : u.get? id = some n) : t.get? id = some n := by
  obtain ⟨e, he, rfl, stands⟩ := hu.get? hn
  obtain ⟨m, hm, stands'⟩ := h.nodes e (mem_loaded_of_enabled hd he)
  rw [hm, stands'.unique stands]

/-- A branch lies below its root, which is a child of the root of all. -/
theorem Mirrors.under_branch {id : NodeId} {n : Node} (hn : u.get? id = some n) :
    t.Parent t.root d.id ∧ Relation.ReflTransGen t.Parent d.id id := by
  refine ⟨?_, ?_⟩
  · rw [h.root]
    exact h.parent_of_encloses (NodeSpec.mem_loaded_self _) hd
  · have hreached := hu.reached hn
    rw [hu.root] at hreached
    have hparent : u.Parent ≤ t.Parent := fun a b ⟨n, hn, hc⟩ => ⟨n, h.get?_of_branch hd hu hn, hc⟩
    exact Relation.ReflTransGen.mono hparent _ _ hreached

variable (hload : (load registry compile strict spec).1 = .ok t) (ht : t.Isolates)
include hload ht

omit h in
theorem Isolates.partOf : u.PartOf t := by
  have h := mirrors_of_load hload
  have hroot : ¬ u.Holds t.root := fun hholds => by
    rw [h.root] at hholds
    exact (nodup_branches hload).1 d hd (hu.holds_iff.mp hholds)
  have hne : ∀ {id : NodeId} {n : Node}, u.get? id = some n → id ≠ t.root := fun hn he => hroot (he ▸ ⟨_, hn⟩)
  refine ⟨h.get?_of_branch hd hu, hroot, fun hn => ht.behavior (h.get?_of_branch hd hu hn) (hne hn), ?_, ?_⟩
  · rintro ⟨id, n, hn, hr⟩
    exact (ht.trace (h.get?_of_branch hd hu hn) (hne hn)).1 hr
  · rintro ⟨id, n, hn, hs⟩
    exact (ht.trace (h.get?_of_branch hd hu hn) (hne hn)).2 hs

omit h in
theorem Isolates.apart_of_disjoint (he : e ∈ spec.root.enabled)
    (hv : v.Mirrors registry compile { spec with root := e })
    (hdisjoint : (d.loaded.map (·.id)).Disjoint (e.loaded.map (·.id))) : u.Apart v := by
  have h := mirrors_of_load hload
  have hne : d.id ≠ e.id := fun heq => hdisjoint (List.mem_map_of_mem (NodeSpec.mem_loaded_self d))
    (heq ▸ List.mem_map_of_mem (NodeSpec.mem_loaded_self e))
  refine ⟨fun hid hid' => hdisjoint (hu.holds_iff.mp hid) (hv.holds_iff.mp hid'), ?_, ?_⟩
  · rintro name ⟨x, n, hn, hr⟩ ⟨y, m, hm, hs⟩
    obtain ⟨hparent, hunder⟩ := h.under_branch hd hu hn
    obtain ⟨hparent', hunder'⟩ := h.under_branch he hv hm
    exact ht.apart hparent' hparent (Ne.symm hne) hunder' hunder (h.get?_of_branch he hv hm) (h.get?_of_branch hd hu hn)
      hs hr
  · rintro name ⟨x, n, hn, hs⟩ ⟨y, m, hm, hr⟩
    obtain ⟨hparent, hunder⟩ := h.under_branch hd hu hn
    obtain ⟨hparent', hunder'⟩ := h.under_branch he hv hm
    exact ht.apart hparent hparent' hne hunder hunder' (h.get?_of_branch hd hu hn) (h.get?_of_branch he hv hm) hs hr

end Branches

end Tree

section Branches

variable {w : World σ} {strict : Bool} {spec : TreeSpec} {t : Tree} (hload : (w.load spec strict).1 = .ok t)
include hload

theorem World.exists_branches :
    ∃ branch : NodeSpec → Tree,
      ∀ d ∈ spec.root.enabled, (w.load { spec with root := d } strict).1 = .ok (branch d) := by
  have hexists : ∀ d, ∃ u, d ∈ spec.root.enabled → (w.load { spec with root := d } strict).1 = .ok u := fun d => by
    by_cases hd : d ∈ spec.root.enabled
    · obtain ⟨u, hu⟩ := Tree.exists_branch hload hd
      exact ⟨u, fun _ => hu⟩
    · exact ⟨t, fun hd' => absurd hd' hd⟩
  exact Classical.skolem.mp hexists

variable (hw : w.Fresh) (hr : w.registry.Plain) (ht : t.Isolates)
include hw ht

/-- Before the first run, the runners of the branches wait beside the tree. -/
theorem World.Fresh.waits {branch : NodeSpec → Tree} {n : Node}
    (hbranch : ∀ d ∈ spec.root.enabled, (w.load { spec with root := d } strict).1 = .ok (branch d))
    (hget : t.get? t.root = some n) (vars : Variables) :
    Team.Waits (w.rules hr) t n (Team.of w (spec.root.enabled.map branch) vars) { vars } w.time := by
  have hmirrors : ∀ d ∈ spec.root.enabled, (branch d).Mirrors w.registry w.compile { spec with root := d } :=
    fun d hd => Tree.mirrors_of_load (hbranch d hd)
  refine ⟨List.forall_mem_map.mpr (List.forall_mem_map.mpr fun d hd => ⟨?_, ?_, ?_, rfl⟩), ?_,
    List.forall_mem_map.mpr fun u hu => ?_, ?_, ?_, ?_⟩
  · rw [Runner.tree_of, Runner.env_of]
    exact hw.kept hr ⟨w.compile, strict, _, _, Prod.ext (hbranch d hd) rfl⟩ vars
  · rw [Runner.tree_of]
    exact Tree.Isolates.partOf hd (hmirrors d hd) hload ht
  · rw [Runner.env_of]
    exact ⟨fun _ => rfl, fun _ => rfl, fun _ => rfl, rfl⟩
  · rw [Team.trees_of, List.pairwise_map]
    refine (Tree.nodup_branches hload).2.2.imp_of_mem fun {d e} hd he hdisjoint => ?_
    exact Tree.Isolates.apart_of_disjoint hd (hmirrors d hd) hload ht he (hmirrors e he) hdisjoint
  · rw [Runner.saved_of]
    rfl
  · have h : t.Mirrors w.registry w.compile spec := Tree.mirrors_of_load hload
    obtain ⟨m, hm, stands⟩ := h.nodes spec.root (NodeSpec.mem_loaded_self _)
    obtain rfl : n = m := Option.some.inj (hget.symm.trans (h.root ▸ hm))
    rw [Team.trees_of, List.map_map, stands.children]
    exact List.map_congr_left fun d hd => (hmirrors d hd).root.symm
  · rw [Team.any_busy_of]
    rfl
  · rw [Team.payload, Team.any_busy_of]
    rfl

end Branches

/-- Parallel branches are isolated. Each branch of the loaded tree loads by itself, and whatever runs and updates there
are: as long as no tick of the runners of the branches fails, none of the tree does, and it is seen to do what they do
in rounds, and the other way round. The tree needs two calls more than the runners. -/
theorem World.Fresh.play_parallel {w : World σ} (hw : w.Fresh) (hr : w.registry.Plain) {strict : Bool} {spec : TreeSpec}
    {t : Tree} (hload : (w.load spec strict).1 = .ok t) (ht : t.Isolates) :
    ∃ parts : List Tree,
      List.Forall₂ (fun d u => (w.load { spec with root := d } strict).1 = .ok u) spec.root.enabled parts ∧
      ∀ (vars : Variables) (actions : List Action) (sights : List Sight) (depth : Nat),
        ((Team.machine t.root depth).play actions (Team.of w parts vars) = some sights →
          ∀ depth' ≥ depth + 2, (Runner.machine depth').play actions (Runner.of w t vars) = some sights) ∧
        ((Runner.machine depth).play actions (Runner.of w t vars) = some sights →
          ∀ depth' ≥ depth, (Team.machine t.root depth').play actions (Team.of w parts vars) = some sights) := by
  obtain ⟨branch, hbranch⟩ := w.exists_branches hload
  refine ⟨spec.root.enabled.map branch, List.forall₂_map_right_iff.mpr (List.forall₂_same.mpr hbranch),
    fun vars actions sights depth => ?_⟩
  obtain ⟨n, hget, hb⟩ := ht.root
  have hkept : (Runner.of w t vars).Kept (w.rules hr) t { vars } :=
    hw.kept hr ⟨w.compile, strict, spec, _, Prod.ext hload rfl⟩ vars
  have hfollows : Team.Follows (w.rules hr) t n (Team.of w (spec.root.enabled.map branch) vars)
      (Runner.of w t vars) := by
    refine ⟨?_, ?_⟩
    · rw [Runner.env_of]
      exact hkept.toIdles
    · rw [Runner.env_of]
      exact World.Fresh.waits hload hw hr ht hbranch hget vars
  exact hfollows.play rfl hget (hkept.orderly.id_eq hget) hb

namespace Duet

open Workbench

def world : World Unit := { registry := rules.registry, host := () }

theorem fresh : world.Fresh := ⟨rfl, rfl, rfl, fun _ => rfl⟩

/-- One voice takes a note and goes by it, the other waits for a tick. -/
def spec : TreeSpec where
  name := "duet"
  root :=
    { id := ⟨0⟩, name := "Parallel"
      children :=
        [{ id := ⟨1⟩, name := "Sequence"
           children :=
            [{ id := ⟨2⟩, name := "Let", args := [("value", .string "C")], output := ["note"] },
              { id := ⟨3⟩, name := "NotNull", input := ["note"] },
              { id := ⟨4⟩, name := "Step", args := [("label", .string "low")] }] },
          { id := ⟨5⟩, name := "Sequence"
            children :=
              [{ id := ⟨6⟩, name := "Step", args := [("label", .string "high"), ("ticks", .int 1)] },
                { id := ⟨7⟩, name := "Step", args := [("label", .string "close")] }] }] }

def voice (id : NodeId) : NodeId := if id.val < 5 then ⟨1⟩ else ⟨5⟩

section Loaded

variable {t : Tree} (hload : (world.load spec true).1 = .ok t)
include hload

theorem mirrors : t.Mirrors rules.registry world.compile spec := by
  have hload' : (Tree.load rules.registry world.compile true spec).1 = .ok t := hload
  exact Tree.mirrors_of_load hload'

theorem stands {id : NodeId} {n : Node} (h : t.get? id = some n) :
    ∃ d ∈ spec.root.loaded, d.id = id ∧ n.children = d.enabled.map (·.id) ∧ n.input = d.input ∧ n.output = d.output ∧
      (d.id = ⟨0⟩ → n.behavior = .parallel) ∧ n.behavior.Local ∧
      ∀ e, ¬ (n.behavior = .check e ∨ n.behavior = .calculate e) := by
  obtain ⟨d, hd, hid, type, behavior, htype, hconfigure, rfl⟩ := (mirrors hload).get? h
  refine ⟨d, hd, hid, rfl, rfl, rfl, ?_⟩
  simp only [spec, NodeSpec.loaded, NodeSpec.loadedAll, Bool.false_eq_true, if_false, List.append_nil,
    List.cons_append, List.nil_append, List.mem_cons, List.not_mem_nil, or_false] at hd
  rcases hd with rfl | rfl | rfl | rfl | rfl | rfl | rfl | rfl
  all_goals
    obtain rfl := Option.some.inj htype
    cases hconfigure
    simp [Behavior.Local]

theorem voice_of_parent {p x : NodeId} (h : t.Parent p x) :
    x ≠ t.root ∧ voice x = if p = t.root then x else voice p := by
  have hall : ∀ d ∈ spec.root.loaded, ∀ x ∈ d.enabled.map (·.id),
      x ≠ spec.root.id ∧ voice x = if d.id = spec.root.id then x else voice d.id := by decide +kernel
  obtain ⟨n, hn, hx⟩ := h
  obtain ⟨d, hd, rfl, hchildren, -⟩ := stands hload hn
  rw [(mirrors hload).root]
  exact hall d hd x (hchildren ▸ hx)

theorem voice_of_branch {c x : NodeId} (hc : t.Parent t.root c) (h : Relation.ReflTransGen t.Parent c x) :
    x ≠ t.root ∧ voice x = c := by
  induction h with
  | refl =>
    obtain ⟨hne, hvoice⟩ := voice_of_parent hload hc
    rw [if_pos rfl] at hvoice
    exact ⟨hne, hvoice⟩
  | tail _ hp ih =>
    obtain ⟨hx, hvoice⟩ := voice_of_parent hload hp
    rw [if_neg ih.1] at hvoice
    exact ⟨hx, hvoice.trans ih.2⟩

theorem isolates : t.Isolates where
  root := by
    obtain ⟨n, hn, -⟩ := (mirrors hload).nodes spec.root (NodeSpec.mem_loaded_self _)
    obtain ⟨d, -, hid, -, -, -, hparallel, -⟩ := stands hload hn
    exact ⟨n, (mirrors hload).root ▸ hn, hparallel hid⟩
  behavior h _ := by
    obtain ⟨d, -, -, -, -, -, -, hlocal, -⟩ := stands hload h
    exact hlocal
  trace h _ := by
    have hall : ∀ d ∈ spec.root.loaded, "trace" ∉ d.input ∧ "trace" ∉ d.output := by decide +kernel
    obtain ⟨d, hd, -, -, hinput, houtput, -, -, hno⟩ := stands hload h
    refine ⟨fun hreads => ?_, fun hsets => (hall d hd).2 (houtput ▸ hsets.2)⟩
    rcases hreads with hread | ⟨e, he, -⟩
    · exact (hall d hd).1 (hinput ▸ hread)
    · exact hno e he
  apart hc hd hne hx hy hn hm hsets hreads := by
    have hall : ∀ d ∈ spec.root.loaded, ∀ e ∈ spec.root.loaded, ∀ name ∈ d.output, name ∈ e.input →
        voice d.id = voice e.id := by decide +kernel
    obtain ⟨d, hd', rfl, -, -, houtput, -⟩ := stands hload hn
    obtain ⟨e, he', rfl, -, hinput, -, -, -, hno⟩ := stands hload hm
    rcases hreads with hread | ⟨e, he, -⟩
    · have hvoice := hall d hd' e he' _ (houtput ▸ hsets.2) (hinput ▸ hread)
      rw [(voice_of_branch hload hc hx).2, (voice_of_branch hload hd hy).2] at hvoice
      exact hne hvoice
    · exact hno e he

end Loaded

def tree : Tree := (world.load spec true).1.toOption.getD default

theorem loads : (world.load spec true).1 = .ok tree := rfl

end Duet

open Duet Workbench in
/-- The low voice ends in the first run. In the second the high one does, and then a new round begins. -/
theorem play_parallel_duet : ∃ parts sights,
    List.Forall₂ (fun d u => (world.load { spec with root := d } true).1 = .ok u) spec.root.enabled parts ∧
      (Team.machine tree.root 8).play [.run, .update 1, .run, .run] (Team.of world parts ∅) = some sights ∧
      (Runner.machine 8).play [.run, .update 1, .run, .run] (Runner.of world tree ∅) = some sights ∧
      sights.map (fun sight => (sight.status, sight.labels.map Value.asString?, sight.calls.map (·.val))) =
        [(.running, [some "low", some "high"], [0, 1, 2, 3, 4, 5, 6]),
          (.success, [some "high", some "close"], [0, 6, 5, 7]),
          (.running, [some "low", some "high"], [0, 1, 2, 3, 4, 5, 6])] := by
  have hplays : ((Runner.machine 8).play [.run, .update 1, .run, .run] (Runner.of world tree ∅)).map (fun sights =>
      sights.map fun sight => (sight.status, sight.labels.map Value.asString?, sight.calls.map (·.val))) =
        some [(.running, [some "low", some "high"], [0, 1, 2, 3, 4, 5, 6]),
          (.success, [some "high", some "close"], [0, 6, 5, 7]),
          (.running, [some "low", some "high"], [0, 1, 2, 3, 4, 5, 6])] := by
    decide +kernel
  obtain ⟨sights, hsights, hseen⟩ := Option.map_eq_some_iff.mp hplays
  obtain ⟨parts, hparts, hplay⟩ := World.Fresh.play_parallel fresh rules.plain loads (isolates loads)
  exact ⟨parts, sights, hparts, (hplay ∅ _ sights 8).2 hsights 8 (Nat.le_refl 8), hsights, hseen⟩

end BehaviorTree
