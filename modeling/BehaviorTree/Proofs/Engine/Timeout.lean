import BehaviorTree.Proofs.Engine.Attendance

/-!
What is seen of a node that times its child. The child has a turn in each tick, and its deadline stands from the first
tick on: a child that is running when the clock has reached it is given up.
-/

namespace BehaviorTree
set_option autoImplicit false

open TickM

variable {σ : Type} {R : Rules σ} {c : Activation} {t u : Tick σ} {e : Engine σ} {s : Stance} {n : Node} {only : NodeId}
  {status : Status} {ticks : List Appearance} {limit expiry : Float}

/-- The status for a child that is timed: a failure if it is running and its time is up, and otherwise its own. -/
def Status.timed (result : Status) (expiry clock : Float) : Status :=
  if result = .running then if expiry ≤ clock then .failure else .running else result

theorem Status.of_timed_running {result : Status} {clock : Float} (h : result.timed expiry clock = .running) :
    result = .running ∧ ¬ expiry ≤ clock := by
  unfold timed at h
  split at h
  · rename_i hr
    split at h
    · cases h
    · exact ⟨hr, by assumption⟩
  · contradiction

namespace Tree

/-- What is seen of a node that times its child, tick by tick. The time is up when the limit has passed since the end of
the first tick. -/
inductive Timed (t : Tree) (n : Node) (only : NodeId) (limit : Float) : Float → List Appearance → Prop where
  | first {result : Status} {acts : List Activity} {clock : Float} : t.Turn only false result acts →
      Timed t n only limit (clock + limit) [n.appearance false acts (result.timed (clock + limit) clock) clock]
  | later {expiry : Float} {ticks : List Appearance} {result : Status} {acts : List Activity} {clock : Float} :
      Timed t n only limit expiry ticks → t.Turn only true result acts →
      Timed t n only limit expiry (ticks ++ [n.appearance true acts (result.timed expiry clock) clock])

theorem Timed.not_expired {t : Tree} (h : t.Timed n only limit expiry ticks) {tick : Appearance} (htick : tick ∈ ticks)
    (hr : tick.status = .running) : ¬ expiry ≤ tick.clock := by
  induction h with
  | first =>
    obtain rfl := List.mem_singleton.mp htick
    exact (Status.of_timed_running hr).2
  | later _ _ ih =>
    rcases List.mem_append.mp htick with htick | htick
    · exact ih htick
    · obtain rfl := List.mem_singleton.mp htick
      exact (Status.of_timed_running hr).2

end Tree

namespace Engine

/-- A child that was run or resumed is given up if its time is up, and kept with its deadline otherwise. -/
theorem expire_timed (site : Site) (expiry : Float) (r : Status × Stack) {P : List Activity → Prop}
    (h : t.Tells c u P) : (expire site expiry r c u).Meets
      (fun status v => t.Tells c v P ∧ v.world.time = u.world.time ∧ status = r.1.timed expiry u.world.time ∧
        (status = .running → ∃ left, v.env.temps[site.id]? = some (.deadline expiry left)))
      (fun _ _ => True) fun _ => True := by
  obtain ⟨result, left⟩ := r
  cases result with
  | success => exact ⟨h, rfl, rfl, by simp⟩
  | failure => exact ⟨h, rfl, rfl, by simp⟩
  | running =>
    rw [expire, meets_bind, meets_time]
    by_cases hexpiry : expiry ≤ u.world.time
    · rw [if_pos hexpiry]
      exact ⟨h.report _ _, rfl, by simp [Status.timed, hexpiry], by simp⟩
    · rw [if_neg hexpiry]
      exact ⟨h.world rfl, rfl, by simp [Status.timed, hexpiry], fun _ => ⟨left, by simp [Env.setPayload]⟩⟩

/-- One tick of a node that times its child: the deadline is that of its payload, if there is one. -/
theorem Shows.timeout (hs : e.Shows R) (he : e.Sound R) (hb : s.node.behavior = .timeout limit) (h : t.Begins R c s)
    (hzero : s.node.children[0]? = some only) :
    (e.timeout s.node.toSite limit c t).Meets
      (fun status u => ∃ result expiry, t.Tells c u (c.tree.Turn only s.own.isSome result) ∧
        (∀ p, s.own = some p → ∃ left, p = .deadline expiry left) ∧ (s.own = none → expiry = u.world.time + limit) ∧
        status = result.timed expiry u.world.time ∧
        (status = .running → ∃ left, u.env.temps[s.node.id]? = some (.deadline expiry left)))
      (fun _ _ => True) fun _ => True := by
  have hstart : only ∈ c.tree.started s.node := by
    rw [Tree.started, hb]
    exact List.mem_of_getElem? ((List.getElem?_take_of_lt Nat.one_pos).trans hzero)
  have hclean : ∀ {k}, ¬ c.tree.CleansUp only k := Engine.Sound.not_cleansUp_of_behavior h.stands hstart (by simp [hb])
  rw [Engine.timeout, h.meets_saved]
  cases hown : s.own with
  | none =>
    have hnone := Stance.parked_of_none hown
    simp only
    rw [meets_bind, meets_child hzero, meets_bind]
    refine (hs.stepBranch he h.stands hstart (hnone only) (fun _ => trivial)
      fun _ _ hc => absurd hc hclean).mono ?_ fun _ _ _ => trivial
    rintro r u hturn
    rw [meets_bind, meets_time]
    refine (expire_timed _ _ r hturn).mono ?_ fun _ _ _ => trivial
    rintro status v ⟨htells, htime, hstatus, hleft⟩
    rw [← htime] at hstatus hleft
    exact ⟨r.1, _, htells, by simp, fun _ => rfl, hstatus, hleft⟩
  | some p =>
    have hsaves := h.saves hown
    cases p
    case deadline expiry saved =>
      have hself : Tree.parked s.node (.deadline expiry saved) = [(only, saved)] := by simp [Tree.parked, hb, hzero]
      have hparked := Stance.parked_of_one hown hself
      simp only
      rw [meets_bind]
      refine (hs.stepBranch he h.stands hstart (by rw [hparked, if_pos rfl]) (fun _ => trivial)
        fun _ _ hc => absurd hc hclean).mono ?_ fun _ _ _ => trivial
      rintro r u hturn
      refine (expire_timed _ _ r hturn).mono ?_ fun _ _ _ => trivial
      rintro status v ⟨htells, htime, hstatus, hleft⟩
      rw [← htime] at hstatus
      exact ⟨r.1, expiry, htells, by simp, by simp, hstatus, hleft⟩
    all_goals simp [Node.Saves, hb] at hsaves

end Engine

/-- A node that times its child keeps the deadline, and the frames of the child. -/
theorem Node.lasts_timeout (hb : n.behavior = .timeout limit) (hzero : n.children[0]? = some only) :
    n.Lasts R c
      (fun ticks own => ticks = [] ∧ own = none ∨
        ∃ expiry left, own = some (.deadline expiry left) ∧ c.tree.Timed n only limit expiry ticks)
      (fun ticks => ∃ expiry, c.tree.Timed n only limit expiry ticks) := by
  rintro e s t ticks hs he rfl h hresumed hkept
  rw [hb]
  refine (hs.timeout he hb h hzero).mono ?_ fun _ _ _ => trivial
  rintro status v ⟨result, expiry, htells, hold, hnew, rfl, hleft⟩
  refine htells.mono fun acts hturn => ?_
  have hnext : c.tree.Timed s.node only limit expiry
      (ticks ++ [s.node.appearance (!ticks.isEmpty) acts (result.timed expiry v.world.time) v.world.time]) := by
    rcases hkept with ⟨rfl, hown⟩ | ⟨expiry', left, hown, htimed⟩
    · rw [hown] at hturn
      obtain rfl := hnew hown
      exact .first hturn
    · obtain ⟨_, hp⟩ := hold _ hown
      obtain ⟨rfl, rfl⟩ := Payload.deadline.inj hp
      rw [← hresumed]
      rw [hown] at hturn ⊢
      exact .later htimed hturn
  refine ⟨⟨expiry, hnext⟩, fun hr => ?_⟩
  obtain ⟨left, hp⟩ := hleft hr
  exact ⟨_, hp, .inr ⟨expiry, left, rfl, hnext⟩⟩

/-- The deadline of a node that times its child. The child has a turn in each tick. If it ends, its status is that of
the node; otherwise the node fails in the first tick that ends when the limit has passed since the end of the first
one. Nothing is left of the child when the node has ended. -/
theorem Tick.Attended.timeout_deadline {depth : Nat} (hn : c.tree.get? n.id = some n) (hb : n.behavior = .timeout limit)
    (h : t.Attended R c n ticks) (hrun : (Engine.ofDepth depth).run n.id c t = .ok status u) (hf : ¬ u.Flagged c) :
    ∃ only expiry acts, n.children[0]? = some only ∧ t.Adds c acts u ∧
      c.tree.Timed n only limit expiry (ticks ++ [⟨acts, status, u.world.time⟩]) ∧
      (∀ tick ∈ ticks, ¬ expiry ≤ tick.clock) ∧
      (status ≠ .running → ∀ x, c.tree.Below n.id x → u.env.temps[x]? = none) := by
  have hneeds := h.runs.orderly.supplied hn
  rw [hb, Behavior.needs] at hneeds
  have hzero : n.children[0]? = some n.children[0] := List.getElem?_eq_getElem (by omega)
  obtain ⟨acts, hadds, ⟨expiry, htimed⟩, hidle⟩ :=
    h.exists_told hn (Node.lasts_timeout hb hzero) (.inl ⟨rfl, rfl⟩) hrun hf
  refine ⟨_, expiry, acts, hzero, hadds, htimed, fun tick htick => ?_, hidle⟩
  exact htimed.not_expired (List.mem_append_left _ htick) (h.running htick)

namespace Egg

/-- A long step may take two units of time. -/
def spec : TreeSpec where
  name := "egg"
  root :=
    { id := ⟨0⟩, name := "Timeout", args := [("time", .int 2)]
      children := [{ id := ⟨1⟩, name := "Step", args := [("label", .string "boil"), ("ticks", .int 9)] }] }

def limit? (n : Node) : Option Float :=
  match n.behavior with
  | .timeout limit => some limit
  | _ => none

/-- Later, and nothing else has changed. -/
def later (t : Tick Unit) (time : Float) : Tick Unit := { t with world := { t.world with time } }

open Rehearsal in
/-- The step is running after one run, and is given up later. -/
theorem exists_world : ∃ w, World.perform 6 (program spec) { registry := Workbench.rules.registry, host := () } = .ok w ∧
    (ready (fun n => (limit? n).isSome) w && plays w (start w) .running fun u =>
      plays w (later u 3) .failure fun _ => true) = true :=
  exists_ok_of_any (by decide +kernel)

theorem exists_behavior {n : Node} (h : (limit? n).isSome = true) : ∃ limit, n.behavior = .timeout limit := by
  unfold limit? at h
  split at h
  · exact ⟨_, by assumption⟩
  · cases h

end Egg

open Egg Rehearsal in
/-- The egg is taken out in the second tick, three units of time after the first. -/
theorem Tick.Attended.timeout_deadline_egg :
    ∃ (c : Activation) (n : Node) (t u v : Tick Unit) (first last : Appearance) (only : NodeId) (limit expiry : Float),
      n.behavior = .timeout limit ∧ t.Attended Workbench.rules c n [] ∧
      (later u 3).Attended Workbench.rules c n [first] ∧ (Engine.ofDepth 6).run n.id c (later u 3) = .ok .failure v ∧
      (later u 3).Adds c last.acts v ∧ c.tree.Timed n only limit expiry [first, last] ∧ ¬ expiry ≤ first.clock ∧
      ∀ x, c.tree.Below n.id x → v.env.temps[x]? = none := by
  obtain ⟨w, n, hid, hn, htimeout, hfresh, _, hplays⟩ := exists_start exists_world
  obtain ⟨limit, hb⟩ := exists_behavior htimeout
  obtain ⟨u, hu, hfu, hplays⟩ := exists_ends hplays
  obtain ⟨v, hv, hfv, _⟩ := exists_ends hplays
  rw [← hid] at hu hv
  have hstart : (start w).Attended Workbench.rules (activation w) n [] := .fresh hfresh
  obtain ⟨_, _, acts, _, hacts, _⟩ := hstart.timeout_deadline hn hb hu hfu
  have hnone : ∀ p, (activation w).tree.awaited n p = none := fun p => by cases p <;> simp [Tree.awaited, hb]
  have hnext : (later u 3).Attended Workbench.rules (activation w) n _ := hstart.again hn hnone hu hfu hacts 3
  obtain ⟨only, expiry, acts', _, hacts', htimed, hpast, hidle⟩ := hnext.timeout_deadline hn hb hv hfv
  exact ⟨_, n, _, u, v, _, _, only, limit, expiry, hb, hstart, hnext, hv, hacts', htimed,
    hpast _ (List.mem_singleton_self _), hidle (by simp)⟩

end BehaviorTree
