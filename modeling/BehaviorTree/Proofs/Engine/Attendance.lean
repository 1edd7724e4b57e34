import BehaviorTree.Proofs.Engine.Race

/-!
Nodes that are seen tick by tick. A node is run afresh, and again whenever it was running, with its payload as it left
it; what one tick keeps up between what was seen and the payload holds in all ticks.
-/

namespace BehaviorTree
set_option autoImplicit false

open TickM

variable {σ : Type} {R : Rules σ} {c : Activation} {t u v : Tick σ} {e : Engine σ} {s : Stance} {n : Node} {k : NodeId}
  {left : NodeId → Option Stack} {marked : Bool} {todo : NodeId → Prop} {status : Status} {acts : List Activity}

/-- What is seen of one tick of a node: what goes on, the status that it returns, and the clock at the end. -/
structure Appearance where
  acts : List Activity
  status : Status
  clock : Float

def Node.appearance (n : Node) (resumed : Bool) (acts : List Activity) (status : Status) (clock : Float) : Appearance :=
  ⟨.called n.id resumed :: acts ++ [.returned n.id (some status)], status, clock⟩

/-- A node is about to be run that keeps its frame on top, and what was seen of it until then. It was afresh at first,
and has always been running since; what happened between its ticks has left its region alone. -/
inductive Tick.Attended (R : Rules σ) (c : Activation) (n : Node) : List Appearance → Tick σ → Prop where
  | fresh {t : Tick σ} : t.Fresh R c n.id → Attended R c n [] t
  | goesOn {ticks : List Appearance} {t u t' : Tick σ} {depth : Nat} {acts : List Activity} {p : Payload}
      {base : List NodeId} : Attended R c n ticks t → (Engine.ofDepth depth).run n.id c t = .ok .running u →
      ¬ u.Flagged c → t.Adds c acts u → t'.Poised R c n p base →
      (∀ x, c.tree.Region n.id x → t'.env.temps[x]? = u.env.temps[x]?) →
      Attended R c n (ticks ++ [⟨acts, .running, u.world.time⟩]) t'

namespace Tick

theorem Adds.report (t : Tick σ) (r : Report) (env : Env) : t.Adds c [] { env, world := t.world.report r } := by
  simp [Tick.Adds]

namespace Tells

variable {P : List Activity → Prop}

theorem report (h : t.Tells c u P) (r : Report) (env : Env) : t.Tells c { env, world := u.world.report r } P := by
  have hnone : u.Tells c ({ env, world := u.world.report r } : Tick σ) fun acts => acts = [] :=
    ⟨id, fun _ => ⟨[], .report u r env, rfl⟩⟩
  refine (h.trans hnone).mono ?_
  rintro _ ⟨before, _, rfl, hp, rfl⟩
  rwa [List.append_nil]

theorem after_report {r : Report} {env : Env} (h : ({ env, world := t.world.report r } : Tick σ).Tells c u P) :
    t.Tells c u P := by
  have hnone : t.Tells c ({ env, world := t.world.report r } : Tick σ) fun acts => acts = [] :=
    ⟨id, fun _ => ⟨[], .report t r env, rfl⟩⟩
  refine (hnone.trans h).mono ?_
  rintro _ ⟨_, after, rfl, rfl, hp⟩
  exact hp

end Tells

end Tick

theorem Engine.Shows.runChild (hs : e.Shows R) (he : e.Sound R) (h : t.Stands R c s [] left marked todo)
    (hk : k ∈ c.tree.started s.node) (hl : left k = none) (htodo : t.Flagged c → todo k)
    (hclean : ∀ b ∈ c.tree.started s.node, c.tree.CleansUp k b → left b = none) :
    (e.run k c t).Meets (fun status u => t.Tells c u (c.tree.Turn k false status)) (fun _ _ => True) fun _ => True := by
  have hfresh := h.fresh hk hl htodo hclean
  refine ((he.fresh hfresh).and (hs.fresh hfresh)).mono ?_ fun _ _ _ => trivial
  rintro status u ⟨hran, hturn⟩
  exact ⟨hran.flagged h.runs, hturn⟩

/-- What is seen of a run of a node: its call, what is told of its process, and its return. -/
theorem Tick.Begins.exists_acts {Q : Status → Tick σ → List Activity → Prop} {depth : Nat}
    (hs : (s.node.entered c t).Begins R c s)
    (hbehave : ∀ e : Engine σ, e.Shows R → e.Sound R →
      (e.behave s.node.toSite s.node.behavior c (s.node.entered c t)).Meets
        (fun status v => (s.node.entered c t).Tells c v (Q status v)) (fun _ _ => True) fun _ => True)
    (hf : ¬ u.Flagged c) (hrun : (Engine.ofDepth depth).run s.node.id c t = .ok status u) :
    ∃ acts v, t.Adds c (.called s.node.id s.own.isSome :: acts ++ [.returned s.node.id (some status)]) u ∧
      Q status v acts ∧ u.world.time = v.world.time ∧
      (status = .running → ∀ p, v.env.temps[s.node.id]? = some p → u.env.temps[s.node.id]? = some p) := by
  cases depth with
  | zero => cases hrun
  | succ depth =>
    have hshown := Engine.runNode_adds s.node
      (hbehave _ (Engine.shows_ofDepth R depth) (Engine.serves_ofDepth (R := R) depth).sound)
    rw [← Engine.run_ofDepth hs.stands.get, hrun] at hshown
    obtain ⟨result, v, htells, hclose, htime, hflag⟩ := hshown
    obtain ⟨hv, rfl, hpayload⟩ := hflag hf
    obtain ⟨acts, hacts, hq⟩ := htells.2 hv
    have hcalled := Engine.entered_adds s.node c t
    rw [Env.isSuspended_eq, ← s.node.entered_temps c t, hs.stands.own] at hcalled
    exact ⟨acts, v, (hcalled.trans hacts).trans hclose, hq, htime, fun hr p hp => by rw [hpayload hr p hp, hp]⟩

/-- What is told of a node tick by tick. `Kept` relates what was seen to the payload while the node is running, and
`Told` is what is seen once another tick is over. -/
def Node.Lasts (n : Node) (R : Rules σ) (c : Activation) (Kept : List Appearance → Option Payload → Prop)
    (Told : List Appearance → Prop) : Prop :=
  ∀ (e : Engine σ) (s : Stance) (t : Tick σ) (ticks : List Appearance), e.Shows R → e.Sound R → s.node = n →
    t.Begins R c s → s.own.isSome = !ticks.isEmpty → Kept ticks s.own →
    (e.behave n.toSite n.behavior c t).Meets
      (fun status v => t.Tells c v fun acts =>
        Told (ticks ++ [n.appearance (!ticks.isEmpty) acts status v.world.time]) ∧
        (status = .running → ∃ p, v.env.temps[n.id]? = some p ∧
          Kept (ticks ++ [n.appearance (!ticks.isEmpty) acts status v.world.time]) (some p)))
      (fun _ _ => True) fun _ => True

namespace Tick.Attended

variable {Kept : List Appearance → Option Payload → Prop} {Told : List Appearance → Prop} {ticks : List Appearance}
  {depth : Nat}

theorem tick (hn : n.Lasts R c Kept Told) (hnode : s.node = n) (hs : (n.entered c t).Begins R c s)
    (hresumed : s.own.isSome = !ticks.isEmpty) (hkept : Kept ticks s.own) (hf : ¬ u.Flagged c)
    (hrun : (Engine.ofDepth depth).run n.id c t = .ok status u) :
    ∃ acts, t.Adds c acts u ∧ Told (ticks ++ [⟨acts, status, u.world.time⟩]) ∧
      (status = .running → ∃ p, u.env.temps[n.id]? = some p ∧
        Kept (ticks ++ [⟨acts, status, u.world.time⟩]) (some p)) := by
  subst hnode
  obtain ⟨acts, v, hacts, ⟨htold, hgoes⟩, htime, hpayload⟩ :=
    hs.exists_acts (fun e hshows hsound => hn e s _ ticks hshows hsound rfl hs hresumed hkept) hf hrun
  rw [htime, hresumed] at *
  refine ⟨_, hacts, htold, fun hr => ?_⟩
  obtain ⟨p, hp, hkept⟩ := hgoes hr
  exact ⟨p, hpayload hr p hp, hkept⟩

/-- When a node that lasts is about to be run, its payload is as kept. -/
theorem exists_stance (hget : c.tree.get? n.id = some n) (hn : n.Lasts R c Kept Told) (hstart : Kept [] none)
    (h : t.Attended R c n ticks) :
    ∃ s : Stance, s.node = n ∧ (n.entered c t).Begins R c s ∧ s.own.isSome = !ticks.isEmpty ∧ Kept ticks s.own := by
  induction h with
  | fresh h => exact ⟨_, rfl, h.entered_begins hget, rfl, hstart⟩
  | goesOn _ hrun hf hacts hpoised htemps ih =>
    obtain ⟨s, hnode, hs, hresumed, hkept⟩ := ih
    obtain ⟨acts, hadds, _, hgoes⟩ := tick hn hnode hs hresumed hkept hf hrun
    obtain rfl := hacts.unique hadds
    obtain ⟨p, hp, hnext⟩ := hgoes rfl
    rw [← htemps _ (.refl _), hpoised.ready.payload] at hp
    obtain rfl := Option.some.inj hp
    exact ⟨_, rfl, hpoised.entered_begins, by simp, hnext⟩

theorem runs (h : t.Attended R c n ticks) : t.Runs R c := by
  cases h with
  | fresh h => exact h.runs
  | goesOn _ _ _ _ h _ => exact h.runs

theorem running (h : t.Attended R c n ticks) {tick : Appearance} (htick : tick ∈ ticks) : tick.status = .running := by
  induction h with
  | fresh _ => cases htick
  | goesOn _ _ _ _ _ _ ih =>
    rcases List.mem_append.mp htick with htick | htick
    · exact ih htick
    · rw [List.mem_singleton.mp htick]

theorem exists_ran (h : t.Attended R c n ticks) (hrun : (Engine.ofDepth depth).run n.id c t = .ok status u) :
    ∃ base, t.Ran R c n.id base status u ∧ (¬ t.Flagged c → c.tree.Beside t.env n.id base) := by
  have hsound := (Engine.serves_ofDepth (R := R) depth).sound
  cases h with
  | fresh h =>
    have hran := hsound.fresh h
    rw [hrun] at hran
    exact ⟨_, hran, h.beside⟩
  | goesOn _ _ _ _ h _ =>
    have hran := hsound.poised h
    rw [hrun] at hran
    exact ⟨_, hran, h.beside⟩

/-- A node that is running may go on at any time, also at once. -/
theorem again (hget : c.tree.get? n.id = some n) (hnone : ∀ p, c.tree.awaited n p = none)
    (h : t.Attended R c n ticks) (hrun : (Engine.ofDepth depth).run n.id c t = .ok .running u) (hf : ¬ u.Flagged c)
    (hacts : t.Adds c acts u) (time : Float) :
    ({ u with world := { u.world with time } } : Tick σ).Attended R c n (ticks ++ [⟨acts, .running, u.world.time⟩]) := by
  obtain ⟨base, hran, hbeside⟩ := h.exists_ran hrun
  obtain ⟨p, hpoised⟩ := hran.poised hget hnone h.runs hbeside hf
  have hgood : ({ u.world with time } : World σ).Good R :=
    hpoised.runs.good.of_delays hpoised.runs.good.delays fun _ _ he => hpoised.runs.good.alarms he
  have hlater : ({ u with world := { u.world with time } } : Tick σ).Poised R c n p base :=
    { hpoised with runs := ⟨hgood, hpoised.runs.here⟩ }
  exact h.goesOn hrun hf hacts hlater fun _ _ => rfl

/-- What is told of a node once a tick is over. If it has ended, nothing is left of the nodes below. -/
theorem exists_told (hget : c.tree.get? n.id = some n) (hn : n.Lasts R c Kept Told) (hstart : Kept [] none)
    (h : t.Attended R c n ticks) (hrun : (Engine.ofDepth depth).run n.id c t = .ok status u) (hf : ¬ u.Flagged c) :
    ∃ acts, t.Adds c acts u ∧ Told (ticks ++ [⟨acts, status, u.world.time⟩]) ∧
      (status ≠ .running → ∀ x, c.tree.Below n.id x → u.env.temps[x]? = none) := by
  obtain ⟨s, hnode, hs, hresumed, hkept⟩ := h.exists_stance hget hn hstart
  obtain ⟨acts, hadds, htold, _⟩ := tick hn hnode hs hresumed hkept hf hrun
  refine ⟨acts, hadds, htold, fun hst x hx => ?_⟩
  obtain ⟨base, hran, _⟩ := h.exists_ran hrun
  exact (hran.ends.ended hst).2.1 x hx.region

end Tick.Attended

end BehaviorTree
