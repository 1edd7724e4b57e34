import BehaviorTree.Proofs.World.Programs

/-!
What is seen of a run. The journal tells a run of a node as a call, what goes on meanwhile, and a return; and a
resumption of the frames in the region of a node as such runs one after the other, the deepest first.
-/

namespace BehaviorTree
set_option autoImplicit false

open TickM

variable {σ : Type} {R : Rules σ} {c : Activation} {t u v : Tick σ} {e e' : Engine σ} {n : Node} {p : Payload}
  {id : NodeId} {base below : List NodeId} {status : Status} {acts : List Activity}

/-- The running instance has been seen to do something more. -/
def Tick.Adds (c : Activation) (t : Tick σ) (acts : List Activity) (u : Tick σ) : Prop :=
  u.world.acts c.owner = t.world.acts c.owner ++ acts

/-- What is seen of a turn of a node: nodes of its region are called and return, the first of them as it is resumed or
afresh, and the last with the status of the turn. The node itself has one run, unless one that it waits for goes on. -/
structure Tree.Turn (t : Tree) (id : NodeId) (resumed : Bool) (status : Status) (acts : List Activity) : Prop where
  opens : ∃ x rest, acts = .called x resumed :: rest
  within : ∀ a ∈ acts, ∀ x, a.node? = some x → t.Region id x
  closes : ∃ x before, acts = before ++ [.returned x (some status)]
  own : acts.filter (·.node? = some id) = [.called id resumed, .returned id (some status)] ∨
    resumed = true ∧ status = .running ∧ acts.filter (·.node? = some id) = []

namespace Tick.Adds

theorem refl (c : Activation) (t : Tick σ) : t.Adds c [] t := (List.append_nil _).symm

theorem trans {acts' : List Activity} (h : t.Adds c acts u) (h' : u.Adds c acts' v) : t.Adds c (acts ++ acts') v := by
  rw [Tick.Adds, h', h, List.append_assoc]

theorem unique {acts' : List Activity} (h : t.Adds c acts u) (h' : t.Adds c acts' u) : acts = acts' :=
  List.append_cancel_left (h.symm.trans h')

/-- The state of the instance is nothing that is seen. -/
theorem env (h : t.Adds c acts u) (env : Env) : t.Adds c acts { u with env } := h

theorem observe (t : Tick σ) (a : Activity) (env : Env) :
    t.Adds c [a] { env, world := t.world.observe c.owner a } := by
  simp [Tick.Adds]

end Tick.Adds

namespace Tree.Turn

variable {tree : Tree} {resumed : Bool}

theorem filter_eq_nil {x : NodeId} (h : tree.Turn x resumed status acts) (hx : ¬ tree.Region x id) :
    acts.filter (·.node? = some id) = [] := by
  rw [List.filter_eq_nil_iff]
  intro a ha he
  exact hx (h.within a ha id (of_decide_eq_true he))

theorem of_run (ht : tree.Orderly) (h : ∀ a ∈ acts, ∀ x, a.node? = some x → tree.Below id x) :
    tree.Turn id resumed status (.called id resumed :: acts ++ [.returned id (some status)]) := by
  refine ⟨⟨id, _, rfl⟩, ?_, ⟨id, _, rfl⟩, .inl ?_⟩
  · intro a ha x hx
    rw [List.cons_append, List.mem_cons, List.mem_append, List.mem_singleton] at ha
    rcases ha with rfl | ha | rfl
    · rw [← Option.some.inj hx]
      exact .refl _
    · exact (h a ha x hx).region
    · rw [← Option.some.inj hx]
      exact .refl _
  · have hnone : acts.filter (·.node? = some id) = [] := by
      rw [List.filter_eq_nil_iff]
      intro a ha he
      exact ht.not_region_of_below (h a ha id (of_decide_eq_true he)) (.refl _)
    rw [List.cons_append, List.filter_cons_of_pos (by simp [Activity.node?]), List.filter_append, hnone]
    simp [Activity.node?]

/-- A node that waits for one that goes on has no run. -/
theorem running {x : NodeId} (ht : tree.Orderly) (h : tree.Turn x true .running acts) (hx : tree.Region id x) :
    tree.Turn id true .running acts := by
  refine ⟨h.opens, fun a ha w hw => hx.trans (h.within a ha w hw), h.closes, ?_⟩
  rcases hx.eq_or_below with rfl | hbelow
  · exact h.own
  · exact .inr ⟨rfl, rfl, h.filter_eq_nil (ht.not_region_of_below hbelow)⟩

/-- A node above has its run after those that it waits for. -/
theorem append {x : NodeId} {acts' : List Activity} {status' : Status} (ht : tree.Orderly)
    (h : tree.Turn x true status acts) (hx : tree.Below id x) (h' : tree.Turn id true status' acts') :
    tree.Turn id true status' (acts ++ acts') := by
  obtain ⟨y, rest, rfl⟩ := h.opens
  obtain ⟨z, before, rfl⟩ := h'.closes
  refine ⟨⟨y, _, rfl⟩, ?_, ⟨z, _, (List.append_assoc _ _ _).symm⟩, ?_⟩
  · intro a ha w hw
    rcases List.mem_append.mp ha with ha | ha
    · exact hx.region.trans (h.within a ha w hw)
    · exact h'.within a ha w hw
  · rw [List.filter_append, h.filter_eq_nil (ht.not_region_of_below hx), List.nil_append]
    exact h'.own

end Tree.Turn

namespace Engine

/-- The status is noted that a process has given, and stands unless an interruption is asked for. No time passes. -/
theorem closeNode_adds (n : Node) (resumed : Bool) (before : Env) (status : Status) (v : Tick σ) :
    (closeNode n resumed before (.ok status) c v).Meets
      (fun s u => v.Adds c [.returned n.id (some status)] u ∧ u.world.time = v.world.time ∧
        (¬ u.Flagged c → ¬ v.Flagged c ∧ s = status ∧
          (s = .running → ∀ p, v.env.temps[n.id]? = some p → u.env.temps = v.env.temps)))
      (fun _ _ => True) fun _ => True := by
  obtain ⟨w, hw, hclose⟩ := closeNode_ok n resumed before status c v
  have hadds : v.Adds c [.returned n.id (some status)] { v with world := w } := by
    rcases hw with rfl | ⟨r, rfl⟩ <;> simp [Tick.Adds]
  have hflag : (w.instanceOf c.owner).interrupted = (v.world.instanceOf c.owner).interrupted := by
    rcases hw with rfl | ⟨r, rfl⟩ <;> rfl
  have htime : w.time = v.world.time := by
    rcases hw with rfl | ⟨r, rfl⟩ <;> rfl
  rw [hclose]
  split
  · rename_i hf
    exact ⟨by simp [Tick.Adds], rfl, fun hnot => absurd hf hnot⟩
  · rename_i hf
    unfold conclude
    rw [meets_bind, meets_modifyEnv]
    have hended : status ≠ .running → ∀ env, ((do
        modifyEnv fun env => writeOutputs env n.output v.env.output
        leaveFrame n.id status : TickM σ Status) c ⟨env, w⟩).Meets
          (fun s u => v.Adds c [.returned n.id (some status)] u ∧ u.world.time = v.world.time ∧
            (¬ u.Flagged c → ¬ v.Flagged c ∧ s = status ∧
              (s = .running → ∀ p, v.env.temps[n.id]? = some p → u.env.temps = v.env.temps)))
          (fun _ _ => True) fun _ => True := by
      intro hs env
      rw [meets_bind, meets_modifyEnv, leaveFrame, meets_bind, meets_env]
      split
      · exact ⟨hadds, htime, fun _ => ⟨hf, rfl, fun hr => absurd hr hs⟩⟩
      · trivial
    cases status with
    | success => exact hended (by simp) _
    | failure => exact hended (by simp) _
    | running =>
      rw [meets_bind, meets_env]
      split
      · exact ⟨hadds, htime, fun _ => ⟨hf, rfl, fun _ _ _ => rfl⟩⟩
      · rename_i hnot
        refine ⟨hadds, htime, fun _ => ⟨hf, rfl, fun _ p hp => absurd ?_ hnot⟩⟩
        rw [Env.isSuspended_eq]
        exact congrArg Option.isSome hp

/-- A run of a node begins with its call, and ends with the return of what its process has given. -/
theorem runNode_adds {Q : Status → Tick σ → Prop} {E : RunError → Tick σ → Prop} {H : Halt → Prop} (n : Node)
    (hb : (e.behave n.toSite n.behavior c (n.entered c t)).Meets Q E H) :
    (e.runNode n c t).Meets
      (fun s u => ∃ status v, Q status v ∧ v.Adds c [.returned n.id (some status)] u ∧
        u.world.time = v.world.time ∧ (¬ u.Flagged c → ¬ v.Flagged c ∧ s = status ∧
          (s = .running → ∀ p, v.env.temps[n.id]? = some p → u.env.temps = v.env.temps)))
      (fun _ _ => True) fun _ => True := by
  rw [runNode_eq, runFramed_eq, meets_bind, meets_attempt, ← Node.entered]
  refine (hb.halts fun _ _ => trivial).mono ?_ ?_
  · intro status v hq
    refine (closeNode_adds n _ _ status v).mono ?_ fun _ _ _ => trivial
    rintro s u hu
    exact ⟨status, v, hq, hu⟩
  · intro err v _
    trivial

theorem entered_adds (n : Node) (c : Activation) (t : Tick σ) :
    t.Adds c [.called n.id (t.env.isSuspended n.id)] (n.entered c t) := by
  unfold Node.entered
  split <;> simp [Tick.Adds, Tick.opened, Tick.pushed]

end Engine

def Zone.inside {t : Tree} (id : NodeId) (base : List NodeId) (ht : t.Orderly) (h : ∀ x ∈ base, ¬ t.Region id x) :
    Zone t where
  region := t.Region id
  calls := t.Below id
  strays := fun _ => False
  parks := fun _ => False
  base := id :: base
  steady := False
  within := Tree.Below.region
  closed := Tree.Region.below
  apart := by
    intro x hx hbelow
    rcases List.mem_cons.mp hx with rfl | hx
    · exact ht.not_region_of_below hbelow (.refl _)
    · exact h x hx hbelow.region

namespace Tick

variable {s : Stance}

/-- When the behavior of a node begins, payloads of the region name frames of nodes below only. -/
theorem Begins.holds (h : t.Begins R c s) :
    (Zone.inside s.node.id s.base h.stands.orderly h.stands.apart).Holds t.env := by
  refine ⟨⟨[], h.stands.stack, by simp⟩, ?_, fun hl => hl.elim, fun hx => hx.elim, h.stands.fits⟩
  intro x y p hx hp hy
  refine ⟨⟨?_, fun hn => hn⟩, fun hz => hz.elim⟩
  rcases hx.cases_started h.stands.get with rfl | ⟨d, hd, hdx⟩
  · exact h.stands.inward p (h.stands.own.symm.trans hp) y hy
  · exact ⟨d, h.stands.starts hd, (h.stands.kids d hd fun _ => trivial).inward h.stands.orderly x p hdx hp y hy⟩

/-- The behavior of a node that runs afresh begins with no payload. -/
theorem Fresh.entered_begins (h : t.Fresh R c n.id) (hn : c.tree.get? n.id = some n) :
    (n.entered c t).Begins R c ⟨n, t.env.stack.frames, none, t.watch c⟩ := by
  have hpayload : t.env.isSuspended n.id = false := by
    rw [Env.isSuspended_eq, h.idle _ (.refl _)]
    rfl
  have hb := h.begins hn
  rw [Node.entered, hpayload]
  exact hb.calm ((Calm.refl hb.stands.runs).env rfl rfl rfl rfl)

/-- The behavior of a node that is resumed begins with its payload. -/
theorem Poised.entered_begins (h : t.Poised R c n p base) :
    (n.entered c t).Begins R c ⟨n, base, some p, t.watch c⟩ := by
  have hpayload : t.env.isSuspended n.id = true := by
    rw [Env.isSuspended_eq, h.ready.payload]
    rfl
  have hb := h.begins
  rw [Node.entered, hpayload]
  exact hb.calm ((Calm.refl hb.stands.runs).env rfl rfl rfl rfl)

end Tick

structure Engine.Shows (e : Engine σ) (R : Rules σ) : Prop where
  fresh {c : Activation} {id : NodeId} {t : Tick σ} : t.Fresh R c id →
    (e.run id c t).Meets (fun status u => ¬ u.Flagged c → ∃ acts, t.Adds c acts u ∧ c.tree.Turn id false status acts)
      (fun _ _ => True) fun _ => True
  poised {c : Activation} {n : Node} {p : Payload} {base : List NodeId} {t : Tick σ} : t.Poised R c n p base →
    (e.run n.id c t).Meets
      (fun status u => ¬ u.Flagged c → ∃ acts, t.Adds c acts u ∧ c.tree.Turn n.id true status acts)
      (fun _ _ => True) fun _ => True
  resumes {c : Activation} {id : NodeId} {base : List NodeId} {t : Tick σ} : t.Resumes R c id base →
    (e.resume base.length c t).Meets
      (fun status u => ¬ u.Flagged c →
        if t.env.stack.frames = base then t.Adds c [] u ∧ status = t.env.lastStatus
        else ∃ acts, t.Adds c acts u ∧ c.tree.Turn id true status acts)
      (fun _ _ => True) fun _ => True

namespace Engine

theorem Confined.runNode_turn (he : e.Confined R) (hh : e.Honors R) {s : Stance} (hs : s.node = n)
    (h : (n.entered c t).Begins R c s) :
    (e.runNode n c t).Meets
      (fun status u => ¬ u.Flagged c →
        ∃ acts, t.Adds c acts u ∧ c.tree.Turn n.id (t.env.isSuspended n.id) status acts)
      (fun _ _ => True) fun _ => True := by
  subst hs
  have ht := h.stands.orderly
  have hbehave : (e.behave s.node.toSite s.node.behavior c (s.node.entered c t)).Meets
      (fun _ v => ∃ acts, (s.node.entered c t).Adds c acts v ∧
        ∀ a ∈ acts, ∀ x, a.node? = some x → c.tree.Below s.node.id x)
      (fun _ _ => True) fun _ => True := by
    refine Outcome.Meets.halts (H := R.Tolerates (s.node.entered c t).world c.owner) ?_ fun _ _ => trivial
    refine (Confined.behave (z := Zone.inside s.node.id s.base ht h.stands.apart) ht h.stands.get (.refl _) he hh
      (fun hz => hz.elim) _ _ (.refl h.stands.runs h.holds) rfl).mono ?_ fun _ _ _ => trivial
    rintro _ v ⟨hfrom, _⟩
    exact hfrom.seen
  refine (runNode_adds s.node hbehave).mono ?_ fun _ _ _ => trivial
  rintro status u ⟨result, v, ⟨acts, hacts, hbelow⟩, hclose, -, hflag⟩ hf
  obtain ⟨_, rfl, _⟩ := hflag hf
  refine ⟨_, ((entered_adds s.node c t).trans hacts).trans hclose, ?_⟩
  exact .of_run ht hbelow

/-- A resumption of frames is a turn of the node that the lowest is of. -/
theorem Shows.resumeAbove (hs : e.Shows R) (he : e.Sound R) (h : t.Resumes R c id base) :
    (e.resumeAbove base.length c t).Meets
      (fun status u => ¬ u.Flagged c →
        if t.env.stack.frames = base then t.Adds c [] u ∧ status = t.env.lastStatus
        else ∃ acts, t.Adds c acts u ∧ c.tree.Turn id true status acts)
      (fun _ _ => True) fun _ => True := by
  have ht := h.runs.orderly
  rw [Engine.resumeAbove, meets_bind, meets_env]
  rcases h.frames with ⟨_, hs', _, _⟩ | ⟨x, below, n, p, hs', hpath, hready, hlast⟩
  · have hdone : ¬ t.Flagged c → if t.env.stack.frames = base then t.Adds c [] t ∧ t.env.lastStatus = t.env.lastStatus
        else ∃ acts, t.Adds c acts t ∧ c.tree.Turn id true t.env.lastStatus acts := by
      intro _
      rw [if_pos hs']
      exact ⟨.refl c t, rfl⟩
    cases t.env.stack.top? with
    | none => exact hdone
    | some top =>
      have hle : t.env.stack.size ≤ base.length := by rw [Stack.size, hs']
      simp only [hle, if_true]
      exact hdone
  · obtain rfl : n.id = x := ht.id_eq hready.get
    have htop : t.env.stack.top? = some n.id := by
      rw [Stack.top?, hs']
      rfl
    have hlt : ¬ t.env.stack.size ≤ base.length := by
      rw [Stack.size, hs', List.length_append, List.length_cons]
      omega
    have hne : t.env.stack.frames ≠ base := by
      intro heq
      rw [Stack.size, heq] at hlt
      exact hlt (Nat.le_refl _)
    have hpoised := h.poised hs' hpath hready hlast
    rw [htop]
    simp only [hlt, if_false, hne, meets_bind]
    refine ((he.poised hpoised).and (hs.poised hpoised)).mono ?_ fun _ _ _ => trivial
    rintro status v ⟨hran, hturn⟩
    have hgoon : status ≠ .running → (e.resume base.length c v).Meets
        (fun status' u => ¬ u.Flagged c → ∃ acts, t.Adds c acts u ∧ c.tree.Turn id true status' acts)
        (fun _ _ => True) fun _ => True := by
      intro hst
      have hnext := h.next hpath hran hst
      obtain ⟨acts, hacts, hturn⟩ := hturn (hran.not_flagged hst)
      obtain ⟨hstack, _, hstatus⟩ := hran.ends.ended hst
      refine ((he.resumes hnext).and (hs.resumes hnext)).mono ?_ fun _ _ _ => trivial
      rintro status' u ⟨_, hrest⟩ hf
      have hrest := hrest hf
      cases below with
      | nil =>
        cases hpath
        rw [List.nil_append] at hstack
        rw [if_pos hstack] at hrest
        obtain ⟨hnone, rfl⟩ := hrest
        refine ⟨acts, ?_, hstatus ▸ hturn⟩
        have hall := hacts.trans hnone
        rwa [List.append_nil] at hall
      | cons y below =>
        have hbase : v.env.stack.frames ≠ base := by
          intro heq
          have hlen := congrArg List.length (hstack.symm.trans heq)
          rw [List.length_append, List.length_cons] at hlen
          omega
        rw [if_neg hbase] at hrest
        obtain ⟨acts', hacts', hturn'⟩ := hrest
        exact ⟨acts ++ acts', hacts.trans hacts', hturn.append ht hpath.below_of_cons hturn'⟩
    cases status with
    | success => exact hgoon (by simp)
    | failure => exact hgoon (by simp)
    | running =>
      intro hf
      obtain ⟨acts, hacts, hturn⟩ := hturn hf
      exact ⟨acts, hacts, hturn.running ht hpath.region⟩

theorem Shows.succ {e' : Engine σ} (hs : e.Shows R) (he : e.Sound R)
    (hrun : e'.run = fun id => do e.runNode (← TickM.node id))
    (hresume : e'.resume = fun level => e.resumeAbove level) : e'.Shows R where
  fresh := by
    intro c id t h
    obtain ⟨n, hn⟩ := h.entered.1
    obtain rfl := h.runs.orderly.id_eq hn
    rw [hrun, meets_bind, meets_node hn]
    refine (he.confined.runNode_turn he.honors rfl (h.entered_begins hn)).mono ?_ fun _ _ _ => trivial
    intro status u hu
    rwa [Env.isSuspended_eq, h.idle _ (.refl _)] at hu
  poised := by
    intro c n p base t h
    rw [hrun, meets_bind, meets_node h.ready.get]
    refine (he.confined.runNode_turn he.honors rfl h.entered_begins).mono ?_ fun _ _ _ => trivial
    intro status u hu
    rwa [Env.isSuspended_eq, h.ready.payload] at hu
  resumes := by
    intro c id base t h
    rw [hresume]
    exact hs.resumeAbove he h

theorem shows_ofDepth (R : Rules σ) (depth : Nat) : (ofDepth depth : Engine σ).Shows R := by
  induction depth with
  | zero => exact ⟨fun _ => trivial, fun _ => trivial, fun _ => trivial⟩
  | succ depth ih => exact ih.succ (serves_ofDepth depth).sound rfl rfl

end Engine

end BehaviorTree
