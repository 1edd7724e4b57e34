import BehaviorTree.Proofs.Engine.Attendance

/-!
What is seen of a watchdog. In each of its ticks the guard has a turn, and after it the guarded child if the guard has
succeeded. Once that child has started, a guard that fails is followed by the child that cleans up.
-/

namespace BehaviorTree
set_option autoImplicit false

open TickM

variable {σ : Type} {R : Rules σ} {c : Activation} {t u : Tick σ} {e : Engine σ} {s : Stance} {n : Node}
  {a b d x : NodeId} {left : NodeId → Option Stack} {marked : Bool} {todo : NodeId → Prop} {status : Status}
  {acts : List Activity} {ticks : List Appearance}

namespace Tree

/-- One tick of a watchdog with a guard, a child that is guarded, and one that cleans up. -/
inductive Patrol (t : Tree) (guard guarded cleanUp : NodeId) : Bool → Status → List Activity → Prop where
  /-- The guard fails before anything has started. -/
  | dismissed {acts : List Activity} : t.Turn guard false .failure acts →
      Patrol t guard guarded cleanUp false .failure acts
  /-- The guard succeeds, and the guarded child starts or goes on. -/
  | guards {begun : Bool} {status : Status} {acts acts' : List Activity} : t.Turn guard false .success acts →
      t.Turn guarded begun status acts' → Patrol t guard guarded cleanUp begun status (acts ++ acts')
  /-- The guard fails once the guarded child has started. -/
  | aborts {result : Status} {acts acts' : List Activity} : t.Turn guard false .failure acts →
      t.Turn cleanUp false result acts' → Patrol t guard guarded cleanUp true .failure (acts ++ acts')

/-- What is seen of a watchdog, tick by tick. The guarded child has started in the first tick, or the watchdog has come
to its end there. -/
inductive Watched (t : Tree) (n : Node) (guard guarded cleanUp : NodeId) : List Appearance → Prop where
  | start : Watched t n guard guarded cleanUp []
  | tick {ticks : List Appearance} {status : Status} {acts : List Activity} {clock : Float} :
      Watched t n guard guarded cleanUp ticks → t.Patrol guard guarded cleanUp (!ticks.isEmpty) status acts →
      Watched t n guard guarded cleanUp (ticks ++ [n.appearance (!ticks.isEmpty) acts status clock])

end Tree

namespace Engine.Shows

variable (hs : e.Shows R) (he : e.Sound R)
include hs he

theorem guarded {saved : Option Stack} (h : t.Stands R c s [] left marked todo) (hone : s.node.children[1]? = some b)
    (hk : b ∈ c.tree.started s.node) (hl : left b = saved) (hf : ¬ t.Flagged c)
    (hclean : ∀ k ∈ c.tree.started s.node, ¬ c.tree.CleansUp b k) :
    (e.guarded s.node.toSite saved c t).Meets
      (fun status u => t.Tells c u (c.tree.Turn b saved.isSome status) ∧
        (status = .running → ∃ left, u.env.temps[s.node.id]? = some (.guarded left)))
      (fun _ _ => True) fun _ => True := by
  rw [Engine.guarded, meets_bind, meets_child hone, meets_bind]
  refine (hs.stepBranch he h hk hl (fun hf' => absurd hf' hf) fun k hk hc => absurd hc (hclean k hk)).mono ?_
    fun _ _ _ => trivial
  rintro ⟨status, rest⟩ u hturn
  cases status with
  | success => exact ⟨hturn, by simp⟩
  | failure => exact ⟨hturn, by simp⟩
  | running => exact ⟨hturn.world rfl, fun _ => ⟨rest, by simp [Env.setPayload]⟩⟩

/-- The child that cleans up has one turn, whatever comes of it. -/
theorem guardFailed {saved : Stack} (h : t.Stands R c s [] left marked todo) (htwo : s.node.children[2]? = some d)
    (hb : b ∈ c.tree.started s.node) (hd : d ∈ c.tree.started s.node) (hl : left b = some saved)
    (hl' : ∀ k ∈ c.tree.started s.node, k ≠ b → left k = none) (hf : ¬ t.Flagged c) :
    (e.guardFailed s.node.toSite saved c t).Meets
      (fun status u => status = .failure ∧ t.Tells c u fun acts => ∃ result, c.tree.Turn d false result acts)
      (fun _ _ => True) fun _ => True := by
  have hgone := (h.calm ((Tick.Calm.refl h.runs).report (.guardFailed c.tree.name s.node.id))).abandon hf hb hl
  have hnone := update_none hl'
  rw [Engine.guardFailed, meets_bind, meets_report, meets_bind, meets_abandon, Engine.cleanUp, meets_bind, meets_bind,
    meets_child htwo, meets_bind]
  refine (hs.stepBranch he hgone hd (hnone d hd) (fun hf' => absurd hf' hf)
    fun k hk _ => hnone k hk).mono ?_ fun _ _ _ => trivial
  rintro ⟨result, rest⟩ u hturn
  have htold : t.Tells c u fun acts => ∃ result, c.tree.Turn d false result acts :=
    hturn.after_report.mono fun _ h => ⟨result, h⟩
  cases result with
  | success => exact ⟨rfl, htold⟩
  | failure => exact ⟨rfl, htold⟩
  | running => exact ⟨rfl, htold.report _ _⟩

/-- The guard has its turn, and what follows depends on its status. -/
theorem guard {saved : Option Stack} (hb : s.node.behavior = .watchdog) (h : t.Begins R c s)
    (hzero : s.node.children[0]? = some a) (hone : s.node.children[1]? = some b) (htwo : s.node.children[2]? = some d)
    (hl : s.parked b = saved) (hl' : ∀ k, k ≠ b → s.parked k = none) :
    (e.guard s.node.toSite saved c t).Meets
      (fun status u => t.Tells c u (c.tree.Patrol a b d saved.isSome status) ∧
        (status = .running → ∃ left, u.env.temps[s.node.id]? = some (.guarded left)))
      (fun _ _ => True) fun _ => True := by
  obtain ⟨a', b', d', hzero', hone', htwo', hab, had, hbd, hstart⟩ := Engine.Sound.exists_guard hb h.stands
  obtain rfl := Option.some.inj (hzero.symm.trans hzero')
  obtain rfl := Option.some.inj (hone.symm.trans hone')
  obtain rfl := Option.some.inj (htwo.symm.trans htwo')
  have ha : a ∈ c.tree.started s.node := by simp [hstart]
  have hb' : b ∈ c.tree.started s.node := by simp [hstart]
  have hd : d ∈ c.tree.started s.node := by simp [hstart]
  have hclean : ∀ {k x : NodeId}, k ∈ c.tree.started s.node → k ≠ d → ¬ c.tree.CleansUp k x :=
    fun hk hne => Engine.Sound.not_cleansUp h.stands hk htwo hne
  have hnone := hl' a hab
  unfold Engine.guard
  rw [meets_bind, meets_child hzero, meets_bind]
  refine ((he.run_child h.stands ha hnone (fun _ => trivial) (fun hown => by simp [Stance.parked_of_none hown])
      fun _ _ hc => absurd hc (hclean ha had)).and
    (hs.runChild he h.stands ha hnone (fun _ => trivial) fun _ _ hc => absurd hc (hclean ha had))).mono ?_
    fun _ _ _ => trivial
  rintro status u ⟨hret, hturn⟩
  cases status with
  | running => trivial
  | success =>
    obtain ⟨hst, _, hf⟩ := hret.stands hnone (by simp)
    refine (hs.guarded he hst hone hb' hl hf fun _ _ => hclean hb' hbd).mono ?_ fun _ _ _ => trivial
    rintro status v ⟨hturn', hgoes⟩
    refine ⟨(hturn.trans hturn').mono ?_, hgoes⟩
    rintro _ ⟨before, after, rfl, hbefore, hafter⟩
    exact .guards hbefore hafter
  | failure =>
    cases saved with
    | none => exact ⟨hturn.mono fun _ => .dismissed, by simp⟩
    | some saved =>
      obtain ⟨hst, _, hf⟩ := hret.stands hnone (by simp)
      refine (hs.guardFailed he hst htwo hb' hd hl (fun k _ => hl' k) hf).mono ?_ fun _ _ _ => trivial
      rintro status v ⟨rfl, hturn'⟩
      refine ⟨(hturn.trans hturn').mono ?_, by simp⟩
      rintro _ ⟨before, after, rfl, hbefore, result, hafter⟩
      exact .aborts hbefore hafter

/-- The guarded child has started if the watchdog has a payload. -/
theorem watchdog (hb : s.node.behavior = .watchdog) (h : t.Begins R c s) (hzero : s.node.children[0]? = some a)
    (hone : s.node.children[1]? = some b) (htwo : s.node.children[2]? = some d) :
    (e.watchdog s.node.toSite c t).Meets
      (fun status u => t.Tells c u (c.tree.Patrol a b d s.own.isSome status) ∧
        (status = .running → ∃ left, u.env.temps[s.node.id]? = some (.guarded left)))
      (fun _ _ => True) fun _ => True := by
  rw [Engine.watchdog, h.meets_saved]
  cases hown : s.own with
  | none =>
    have hnone := Stance.parked_of_none hown
    exact hs.guard he hb h hzero hone htwo (hnone b) fun k _ => hnone k
  | some p =>
    have hsaves := h.saves hown
    cases p
    case guarded saved =>
      have hself : Tree.parked s.node (.guarded saved) = [(b, saved)] := by simp [Tree.parked, hb, hone]
      have hparked := Stance.parked_of_one hown hself
      exact hs.guard he hb h hzero hone htwo (by rw [hparked, if_pos rfl]) fun k hkb => by rw [hparked, if_neg hkb]
    all_goals simp [Node.Saves, hb] at hsaves

end Engine.Shows

theorem Node.lasts_watchdog (hb : n.behavior = .watchdog) (hzero : n.children[0]? = some a)
    (hone : n.children[1]? = some b) (htwo : n.children[2]? = some d) :
    n.Lasts R c (fun ticks _ => c.tree.Watched n a b d ticks) (c.tree.Watched n a b d) := by
  rintro e s t ticks hs he rfl h hresumed hwatched
  rw [hb]
  refine (hs.watchdog he hb h hzero hone htwo).mono ?_ fun _ _ _ => trivial
  rintro status v ⟨htells, hgoes⟩
  refine htells.mono fun acts hpatrol => ?_
  have hnext : c.tree.Watched s.node a b d (ticks ++ [s.node.appearance (!ticks.isEmpty) acts status v.world.time]) :=
    hwatched.tick (hresumed ▸ hpatrol)
  refine ⟨hnext, fun hr => ?_⟩
  obtain ⟨left, hp⟩ := hgoes hr
  exact ⟨_, hp, hnext⟩

/-- The protocol of a watchdog. In each tick the guard has a turn, and then the guarded child if the guard has
succeeded, whose status is the watchdog's. If the guard fails it is over; once the guarded child has started, the child
that cleans up then has its only turn. Nothing is left of any of them when the watchdog has ended. -/
theorem Tick.Attended.watchdog_protocol {depth : Nat} (hn : c.tree.get? n.id = some n) (hb : n.behavior = .watchdog)
    (h : t.Attended R c n ticks) (hrun : (Engine.ofDepth depth).run n.id c t = .ok status u) (hf : ¬ u.Flagged c) :
    ∃ guard guarded cleanUp acts, n.children[0]? = some guard ∧ n.children[1]? = some guarded ∧
      n.children[2]? = some cleanUp ∧ t.Adds c acts u ∧
      c.tree.Watched n guard guarded cleanUp (ticks ++ [⟨acts, status, u.world.time⟩]) ∧
      (status ≠ .running → ∀ x, c.tree.Below n.id x → u.env.temps[x]? = none) := by
  have hneeds := h.runs.orderly.supplied hn
  rw [hb, Behavior.needs] at hneeds
  have hzero : n.children[0]? = some n.children[0] := List.getElem?_eq_getElem (by omega)
  have hone : n.children[1]? = some n.children[1] := List.getElem?_eq_getElem (by omega)
  have htwo : n.children[2]? = some n.children[2] := List.getElem?_eq_getElem (by omega)
  obtain ⟨acts, hadds, hwatched, hidle⟩ :=
    h.exists_told hn (Node.lasts_watchdog hb hzero hone htwo) .start hrun hf
  exact ⟨_, _, _, acts, hzero, hone, htwo, hadds, hwatched, hidle⟩

namespace Kennel

/-- A long step is guarded as long as nothing has left a trace, and it leaves one. Cleaning up takes long as well. -/
def spec : TreeSpec where
  name := "kennel"
  root :=
    { id := ⟨0⟩, name := "Watchdog"
      children :=
        [{ id := ⟨1⟩, name := "IsNull", input := ["trace"] },
          { id := ⟨2⟩, name := "Step", args := [("label", .string "long"), ("ticks", .int 5)] },
          { id := ⟨3⟩, name := "Step", args := [("label", .string "broom"), ("ticks", .int 3)] }] }

def isWatchdog (n : Node) : Bool :=
  match n.behavior with
  | .watchdog => true
  | _ => false

open Rehearsal in
/-- The watchdog is running after one run, and has failed after another. -/
theorem exists_world : ∃ w, World.perform 6 (program spec) { registry := Workbench.rules.registry, host := () } = .ok w ∧
    (ready isWatchdog w && plays w (start w) .running fun u => plays w u .failure fun _ => true) = true :=
  exists_ok_of_any (by decide +kernel)

theorem behavior_of_isWatchdog {n : Node} (h : isWatchdog n = true) : n.behavior = .watchdog := by
  unfold isWatchdog at h
  split at h
  · assumption
  · cases h

end Kennel

open Kennel Rehearsal in
/-- The guard of the kennel fails in the second tick. -/
theorem Tick.Attended.watchdog_protocol_kennel :
    ∃ (c : Activation) (n : Node) (t u v : Tick Unit) (first last : Appearance) (guard guarded cleanUp : NodeId),
      t.Attended Workbench.rules c n [] ∧ u.Attended Workbench.rules c n [first] ∧
      (Engine.ofDepth 6).run n.id c u = .ok .failure v ∧ u.Adds c last.acts v ∧
      c.tree.Watched n guard guarded cleanUp [first, last] ∧ ∀ x, c.tree.Below n.id x → v.env.temps[x]? = none := by
  obtain ⟨w, n, hid, hn, hwatchdog, hfresh, _, hplays⟩ := exists_start exists_world
  have hb := behavior_of_isWatchdog hwatchdog
  obtain ⟨u, hu, hfu, hplays⟩ := exists_ends hplays
  obtain ⟨v, hv, hfv, _⟩ := exists_ends hplays
  rw [← hid] at hu hv
  have hstart : (start w).Attended Workbench.rules (activation w) n [] := .fresh hfresh
  obtain ⟨_, _, _, acts, _, _, _, hacts, _⟩ := hstart.watchdog_protocol hn hb hu hfu
  have hnone : ∀ p, (activation w).tree.awaited n p = none := fun p => by cases p <;> simp [Tree.awaited, hb]
  have hnext := hstart.again hn hnone hu hfu hacts u.world.time
  obtain ⟨_, _, _, acts', _, _, _, hacts', hwatched, hidle⟩ := hnext.watchdog_protocol hn hb hv hfv
  exact ⟨_, n, _, u, v, _, _, _, _, _, hstart, hnext, hv, hacts', hwatched, hidle (by simp)⟩

end BehaviorTree
