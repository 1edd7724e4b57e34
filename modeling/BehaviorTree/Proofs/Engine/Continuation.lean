import BehaviorTree.Proofs.Engine.Abreast

/-!
From the behaviors of nodes to runs of them. A node that is run afresh or resumed settles, and its frame and payload
follow: they go when it has ended, and stay when it is running.
-/

namespace BehaviorTree
set_option autoImplicit false

open TickM

variable {σ : Type} {R : Rules σ} {c : Activation} {t u : Tick σ} {e e' : Engine σ} {s : Stance} {n : Node}
  {p : Payload} {base : List NodeId} {err : RunError} {status : Status} {resumed : Bool}

/-- A node that runs no other node starts none, and has no child's stack in its payload. -/
theorem Behavior.IsAction.childless (h : n.behavior.IsAction) (tree : Tree) :
    tree.started n = [] ∧ ∀ p, tree.awaited n p = none ∧ Tree.parked n p = [] := by
  cases hb : n.behavior <;> rw [hb] at h <;> simp [Behavior.IsAction] at h <;>
    simp [Tree.started, Tree.awaited, Tree.parked, hb]

namespace Engine

theorem settles_acts (ha : s.node.behavior.IsAction) (h : t.Begins R c s) (hacts : t.Acts R c s.node status u) :
    u.Settles c s status := by
  obtain ⟨hstart, hnone⟩ := ha.childless c.tree
  cases hacts with
  | done hcalm hsaves =>
    have hst := h.stands.calm hcalm
    by_cases hs : status = .running
    · refine ⟨fun hf => ⟨false, hst.watch hf⟩, fun _ hne => absurd hs hne, fun _ _ => ⟨[], hst.stack, ?_⟩⟩
      have hsaved : s.node.Saves (u.env.temps[s.node.id]?.getD .marker) := by
        rw [hst.own]
        cases hown : s.own with
        | none => exact hsaves hs
        | some p => exact h.saves hown
      have hp := u.env.temps.getElem?_insertIfNew s.node.id s.node.id .marker
      rw [if_pos rfl] at hp
      refine .mk .here hst.get hp hsaved (hnone _).1 ?_ ?_
      · rw [(hnone _).2]
        simp
      · rw [hstart]
        simp
    · refine hst.settles rfl ?_ hs
      rw [hstart]
      simp
  | suspended hcalm hs hsaves _ hu =>
    subst hs hu
    refine (h.stands.calm hcalm).settles_parking rfl hsaves (hnone _).1 ?_ ?_
    · rw [(hnone _).2]
      simp
    · rw [hstart]
      simp

namespace Sound

variable (he : e.Sound R)
include he

theorem action (ha : s.node.behavior.IsAction) (h : t.Begins R c s) :
    (e.behave s.node.toSite s.node.behavior c t).Meets (fun st u => u.Settles c s st)
      fun err u => u.Falls c s err := by
  refine (acts_behave he.honors ha h.stands.get h.stands.runs).mono ?_ ?_
  · intro status u hacts
    exact settles_acts ha h hacts
  · rintro err u ⟨hadmits, hcalm⟩
    refine (h.stands.calm hcalm).falls_here (hadmits fun p hp => h.saves (h.stands.own.symm.trans hp)) rfl ?_
    rw [(ha.childless c.tree).1]
    simp

theorem behave (h : t.Begins R c s) :
    (e.behave s.node.toSite s.node.behavior c t).Meets (fun st u => u.Settles c s st)
      fun err u => u.Falls c s err := by
  have hplain := h.stands.orderly.plain h.stands.get
  have haction := fun ha => he.action ha h
  cases hb : s.node.behavior <;> rw [hb] at haction hplain
  case sequence => exact he.resumeChain (.inl hb) (by simp) h
  case selector => exact he.resumeChain (.inr hb) (by simp) h
  case parallel => exact he.parallel hb h
  case race => exact he.race hb h
  case switch => exact he.switch hb h
  case case =>
    have hown : s.own = none := by
      cases hown : s.own with
      | none => rfl
      | some p => simpa [Node.Saves, hb] using h.saves hown
    refine h.stands.falls_here (.misplaced h.stands.get hb (h.entered hown).2) rfl fun k _ => ?_
    exact .inl (Stance.parked_of_none hown k)
  case ifElse => exact he.ifElse hb h
  case forEach => exact he.forEach hb h
  case loop => exact he.loop hb h
  case watchdog => exact he.watchdog hb h
  case repeated => exact he.repeated hb h
  case invert =>
    refine he.wrap (.inl hb) (fun status _ => ?_) h
    split <;> simp
  case always => exact he.wrap (.inr (.inl ⟨_, hb⟩)) (fun _ _ => hplain) h
  case once => exact he.once hb h
  case timeout => exact he.timeout hb h
  case routine => exact hplain.elim
  all_goals exact haction trivial

end Sound

theorem conclude_ends (ht : c.tree.Orderly) (hn : c.tree.get? s.node.id = some s.node) (hf : ¬ t.Flagged c)
    (hw : t.watch c = s.seen.after status)
    (hend : status ≠ .running →
      t.env.stack.frames = s.node.id :: s.base ∧ ∀ k ∈ c.tree.started s.node, c.tree.Idle t.env.temps k)
    (hsus : status = .running → ∃ above, t.env.stack.frames = above ++ s.node.id :: s.base ∧
      c.tree.Suspended (t.env.temps.insertIfNew s.node.id .marker) s.node.id (above ++ [s.node.id]))
    (output : List (Option Value)) (E : RunError → Tick σ → Prop) :
    (conclude s.node status output c t).Meets (fun st u => u.Ends c s.node.id s.base s.seen st) E := by
  have hended : status ≠ .running → ((do
      modifyEnv fun env => writeOutputs env s.node.output output
      leaveFrame s.node.id status) c { t with env := { t.env with lastStatus := status } }).Meets
        (fun st u => u.Ends c s.node.id s.base s.seen st) E := by
    intro hs
    obtain ⟨hstack, hidle⟩ := hend hs
    obtain ⟨vars, hvars⟩ := exists_vars_writeOutputs { t.env with lastStatus := status } s.node.output output
    rw [meets_bind, meets_modifyEnv]
    simp only [hvars]
    rw [leaveFrame, meets_bind, meets_env]
    have htop : t.env.stack.top? = some s.node.id := by
      rw [Stack.top?, hstack]
      rfl
    simp only [htop, if_true, meets_bind, meets_modifyEnv, meets_pure]
    refine ⟨fun hf' => absurd hf' hf, fun _ => hw, fun _ => ⟨?_, ?_, ?_⟩, fun _ hr => absurd hr hs⟩
    · simp [Env.popFrame, Stack.pop, hstack]
    · intro x hx
      have hget : ({ t.env with lastStatus := status, vars } : Env).popFrame.temps[x]? =
          if s.node.id = x then none else t.env.temps[x]? := by
        simp [Env.popFrame, Stack.pop, hstack, Std.ExtTreeMap.getElem?_erase]
      rw [hget]
      rcases hx.cases_started hn with rfl | ⟨k, hk, hkx⟩
      · rw [if_pos rfl]
      · rw [hidle k hk x hkx, ite_self]
    · simp [Env.popFrame]
  unfold conclude
  rw [meets_bind, meets_modifyEnv]
  cases status with
  | success => exact hended (by simp)
  | failure => exact hended (by simp)
  | running =>
    obtain ⟨above, hstack, hsusp⟩ := hsus rfl
    have hends : ∀ u : Tick σ, u.world = t.world → u.env.stack = t.env.stack →
        (∀ x : NodeId, u.env.temps[x]? = (t.env.temps.insertIfNew s.node.id .marker)[x]?) →
        u.Ends c s.node.id s.base s.seen .running := by
      intro u hworld hst htemps
      refine ⟨fun _ => rfl, fun _ => ?_, fun hne => absurd rfl hne, fun _ _ => ⟨above ++ [s.node.id], ?_, ?_⟩⟩
      · rw [Tick.watch, hworld]
        exact hw
      · rw [hst, hstack, List.append_assoc]
        rfl
      · exact hsusp.congr ht fun x _ => htemps x
    simp only [meets_bind, meets_env]
    split
    · rename_i hpayload
      refine hends _ rfl rfl fun x => ?_
      rw [Env.isSuspended_eq] at hpayload
      obtain ⟨p, hp⟩ := Option.isSome_iff_exists.mp hpayload
      change t.env.temps[s.node.id]? = some p at hp
      rw [Temps.getElem?_insertIfNew, hp, Option.getD_some]
      split
      · rename_i hx
        rw [← hx]
        exact hp
      · rfl
    · rename_i hpayload
      refine hends _ rfl rfl fun x => ?_
      rw [Env.isSuspended_eq] at hpayload
      have hp : t.env.temps[s.node.id]? = none := by simpa using hpayload
      rw [Temps.getElem?_insertIfNew, hp, Option.getD_none]
      simp [Env.setPayload, Std.ExtTreeMap.getElem?_insert]

end Engine

/-- What is seen of a node that is under way is the last of what was seen. -/
theorem Tick.watch_observe (t : Tick σ) (a : Activity) (env : Env) :
    ({ env, world := t.world.observe c.owner a } : Tick σ).watch c = Watch.step c.tree (t.watch c) a := by
  have hacts : (t.world.observe c.owner a).acts c.owner = t.world.acts c.owner ++ [a] := by simp
  rw [Tick.watch, World.watch_of_acts hacts]
  rfl

theorem Tick.watch_report (t : Tick σ) (r : Report) (env : Env) :
    ({ env, world := t.world.report r } : Tick σ).watch c = t.watch c := by
  rw [Tick.watch, World.watch, World.acts_report]
  rfl

structure Tick.Ruins (c : Activation) (s : Stance) (err : RunError) (t : Tick σ) : Prop where
  blames : c.tree.Blames err
  litter : s.own = none → ¬ t.Flagged c → ∃ lost,
    t.watch c = ⟨s.seen.active, s.seen.spilled || lost⟩ ∧ t.Litter c s.node.id s.base lost

namespace Engine.Sound

variable (he : e.Sound R)
include he

theorem runFramed
    (h : ({ t with world := t.world.observe c.owner (.called s.node.id resumed) } : Tick σ).Begins R c s) :
    (e.runFramed s.node resumed c t).Meets (fun st u => u.Ends c s.node.id s.base s.seen st)
      fun err u => u.Ruins c s err := by
  rw [Engine.runFramed, meets_bind, meets_observe, meets_bind, Engine.withSlots, meets_bind, meets_env, meets_bind,
    meets_modifyEnv, meets_bind, meets_attempt]
  refine Outcome.Meets.mono (he.behave (h.calm ?_)) ?_ ?_
  · exact (Tick.Calm.refl h.stands.runs).env rfl rfl rfl rfl
  · intro status u hset
    simp only [meets_bind, meets_env, meets_modifyEnv, meets_pure, meets_observe, meets_ofExcept_ok,
      meets_interrupted, Except.toOption]
    split
    · rename_i hf
      exact ⟨fun _ => rfl, fun hnot => absurd hf hnot, fun hne => absurd rfl hne, fun hnot => absurd hf hnot⟩
    · rename_i hf
      obtain ⟨marked, hmarked⟩ := hset.watch hf
      have hend : ∀ v : Tick σ, v.env.stack = u.env.stack → v.env.temps = u.env.temps → ¬ v.Flagged c →
          v.watch c = s.seen.after status →
          (conclude s.node status u.env.output c v).Meets (fun st v => v.Ends c s.node.id s.base s.seen st)
            fun err v => v.Ruins c s err := by
        intro v hstack htemps hfl hw
        refine conclude_ends h.stands.orderly h.stands.get hfl hw ?_ ?_ _ _
        · rw [hstack, htemps]
          exact hset.ended hf
        · rw [hstack, htemps]
          exact hset.suspended hf
      have hw : ∀ env,
          ({ env, world := u.world.observe c.owner (.returned s.node.id (some status)) } : Tick σ).watch c =
          s.seen.after status := by
        intro env
        rw [Tick.watch_observe, hmarked]
        rfl
      split
      · rw [meets_bind, meets_report]
        exact hend _ rfl rfl hf ((Tick.watch_report _ _ _).trans (hw _))
      · exact hend _ rfl rfl hf (hw _)
  · intro err u hfalls
    simp only [meets_bind, meets_env, meets_modifyEnv, meets_pure, meets_observe, meets_ofExcept_error,
      Except.toOption]
    refine ⟨hfalls.blames, fun hown hf => ?_⟩
    obtain ⟨marked, lost, hw, hlitter⟩ := hfalls.litter hown hf
    have habreast : c.tree.runsAbreast s.node.id = s.node.behavior.runsAbreast := by
      rw [Tree.runsAbreast, h.stands.get]
      rfl
    refine ⟨_, ?_, hlitter⟩
    rw [Tick.watch_observe, hw, ← Bool.or_assoc, ← habreast]
    rfl

end Engine.Sound

/-- What a payload says of the children is what they have left. -/
theorem Tree.Ready.leaves {tree : Tree} {temps : Temps} {x k : NodeId} (h : tree.Ready temps x n p)
    (hk : k ∈ tree.started n) : tree.Leaves temps k ((Tree.parked n p).lookup k) := by
  cases hl : (Tree.parked n p).lookup k with
  | none =>
    refine h.idle k hk fun st hst => ?_
    have hne := List.lookup_eq_none_iff.mp hl _ hst
    simp at hne
  | some st =>
    obtain ⟨before, after, hsplit, _⟩ := List.lookup_eq_some_iff.mp hl
    exact h.parked k st (by simp [hsplit])

namespace Tick

theorem Runs.observe (h : t.Runs R c) (a : Activity) (env : Env) :
    ({ env, world := t.world.observe c.owner a } : Tick σ).Runs R c := by
  obtain ⟨i, hi, he, ht⟩ := h.here
  have hch := (World.Changes.refl hi).observe a
  exact ⟨h.good.of_changes hi hch rfl (h.good.holds hi).pending (by simp [he]), i, hch.self, he, ht⟩

/-- A node that runs afresh begins with its frame on top. -/
theorem Fresh.begins (h : t.Fresh R c n.id) (hn : c.tree.get? n.id = some n) :
    ({ env := { t.env with stack := t.env.stack.push n.id }
       world := t.world.observe c.owner (.called n.id false) } : Tick σ).Begins R c
      ⟨n, t.env.stack.frames, none, t.watch c⟩ := by
  refine ⟨⟨h.runs.observe _ _, h.fits, hn, h.apart, rfl, h.idle _ (.refl _), by simp, ?_, fun _ => ?_, ?_⟩, by simp,
    (by simp), fun _ => h.entered⟩
  · exact fun hf => (h.beside hf).congr (fun _ => rfl) fun _ _ => rfl
  · rw [Tick.watch_observe]
    rfl
  · intro k hk _
    exact h.idle.of_region (.of_starts ⟨n, hn, hk⟩ (.refl _))

/-- A node that is resumed begins with its frame on top. -/
theorem Poised.begins (h : t.Poised R c n p base) :
    ({ t with world := t.world.observe c.owner (.called n.id true) } : Tick σ).Begins R c
      ⟨n, base, some p, t.watch c⟩ := by
  refine ⟨⟨h.runs.observe _ _, h.fits, h.ready.get, h.apart, h.stack, h.ready.payload, ?_, h.beside, fun _ => ?_, ?_⟩,
    ?_, ?_, by simp⟩
  · rintro _ ⟨⟩ y hy
    exact h.ready.nested_below h.runs.orderly hy
  · rw [Tick.watch_observe]
    rfl
  · intro k hk _
    exact h.ready.leaves hk
  · rintro _ ⟨⟩
    exact h.ready.saves
  · rintro _ ⟨⟩ haw
    exact h.status haw

end Tick

namespace Engine.Sound

variable (he : e.Sound R)
include he

theorem runNode_fresh (h : t.Fresh R c n.id) (hn : c.tree.get? n.id = some n) :
    (e.runNode n c t).Meets (t.Ran R c n.id t.env.stack.frames) (t.Broke R c n.id t.env.stack.frames) := by
  have hstays := Confined.runNode (z := Zone.above n.id t.env.stack.frames h.apart) h.runs.orderly hn (.refl _)
    he.confined he.honors (fun hz => hz.elim) t t (.refl h.runs h.holds) rfl
  have hpayload : t.env.temps[n.id]? = none := h.idle _ (.refl _)
  have hruns : (e.runNode n c t).Meets (fun st u => u.Ends c n.id t.env.stack.frames (t.watch c) st)
      fun err u => u.Ruins c ⟨n, t.env.stack.frames, none, t.watch c⟩ err := by
    simp only [Engine.runNode, meets_bind, meets_env, Env.isSuspended_eq, hpayload, Option.isSome_none,
      Bool.false_eq_true, if_false, meets_modifyEnv]
    exact he.runFramed (s := ⟨n, t.env.stack.frames, none, t.watch c⟩) (h.begins hn)
  refine (hstays.and hruns).mono ?_ ?_
  · rintro status u ⟨hs, hends⟩
    exact ⟨⟨h.apart, hs.1⟩, hends⟩
  · rintro err u ⟨hs, hruins⟩
    exact ⟨⟨h.apart, hs⟩, hruins.blames, hruins.litter rfl⟩

theorem runNode_poised (h : t.Poised R c n p base) :
    (e.runNode n c t).Meets (t.Ran R c n.id base) fun err _ => c.tree.Blames err := by
  have hstays : (Zone.above (t := c.tree) n.id base h.apart).Stays R t.env.stack.frames (e.runNode n) _ :=
    Confined.runNode h.runs.orderly h.ready.get (.refl _) he.confined he.honors fun hz => hz.elim
  have hpayload : t.env.temps[n.id]? = some p := h.ready.payload
  refine Tick.Ran.of_stays hstays h.runs h.holds ?_
  simp only [Engine.runNode, meets_bind, meets_env, Env.isSuspended_eq, hpayload, Option.isSome_some, if_true]
  exact (he.runFramed (s := ⟨n, base, some p, t.watch c⟩) h.begins).mono (fun _ _ hends => hends)
    fun _ _ hruins => hruins.blames

end Engine.Sound

theorem Engine.Sound.succ (he : e.Sound R) (hh : e'.Honors R)
    (hrun : e'.run = fun id => do e.runNode (← TickM.node id))
    (hresume : e'.resume = fun level => e.resumeAbove level) : e'.Sound R := by
  refine ⟨hh, he.confined.succ he.honors hrun hresume, ?_, ?_, ?_⟩
  · intro c id t h
    obtain ⟨n, hn⟩ := h.entered.1
    obtain rfl := h.runs.orderly.id_eq hn
    rw [hrun]
    simp only [meets_bind, meets_node hn]
    exact he.runNode_fresh h hn
  · intro c n p base t h
    rw [hrun]
    simp only [meets_bind, meets_node h.ready.get]
    exact he.runNode_poised h
  · intro c id base t h
    rw [hresume]
    exact he.resumeAbove h

end BehaviorTree
