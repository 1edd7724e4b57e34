import BehaviorTree.Proofs.Engine.Attendance

/-!
What is seen of a node that repeats its child. In each tick the child has at most one turn, and starts afresh only in a
tick that begins without frames of it; the node counts the results, and ends with the one that stops it or with the
last one that it may have.
-/

namespace BehaviorTree
set_option autoImplicit false

open TickM

variable {σ : Type} {R : Rules σ} {c : Activation} {t u : Tick σ} {e : Engine σ} {s : Stance} {n : Node} {only : NodeId}
  {status result : Status} {results : List Status} {limit : Option Nat} {policy : RepeatPolicy} {base : List NodeId}
  {ticks : List Appearance} {depth : Nat}

namespace RepeatPolicy

/-- The child may run once more: no result has stopped the node, and there are runs left. -/
structure Open (policy : RepeatPolicy) (limit : Option Nat) (results : List Status) : Prop where
  unstopped : policy.stopOn ∉ results
  left : ∀ m ∈ limit, results.length < m

/-- The status of a repeating node for the results that its child has given. -/
inductive Yields (policy : RepeatPolicy) (limit : Option Nat) : List Status → Status → Prop where
  | goesOn {results : List Status} : policy.Open limit results → Yields policy limit results .running
  | spent : limit = some 0 → Yields policy limit [] policy.exhausted
  | stopped {results : List Status} : policy.Open limit results →
      Yields policy limit (results ++ [policy.stopOn]) policy.stopOn
  | exhausted {results : List Status} {result : Status} : policy.Open limit results → result ≠ policy.stopOn →
      limit = some (results.length + 1) → Yields policy limit (results ++ [result]) policy.exhausted

/-- The status that a repeating node gives when its child has ended once more after a number of times. -/
def count (policy : RepeatPolicy) (limit : Option Nat) (done : Nat) (result : Status) : Status :=
  if result = policy.stopOn then result
  else if Engine.usedUp limit (done + 1) then policy.exhausted
  else .running

theorem usedUp_iff (done : Nat) : Engine.usedUp limit done = true ↔ ∃ m ∈ limit, m ≤ done := by
  cases limit with
  | none => simp [Engine.usedUp]
  | some m => simp [Engine.usedUp]

namespace Open

variable (h : policy.Open limit results)
include h

theorem not_usedUp : ¬ Engine.usedUp limit results.length = true := by
  rw [usedUp_iff]
  rintro ⟨m, hm, hle⟩
  exact Nat.not_le_of_lt (h.left m hm) hle

theorem next (hr : result ≠ policy.stopOn) (hu : ¬ Engine.usedUp limit (results.length + 1) = true) :
    policy.Open limit (results ++ [result]) := by
  refine ⟨?_, fun m hm => ?_⟩
  · rw [List.mem_append, List.mem_singleton, not_or]
    exact ⟨h.unstopped, Ne.symm hr⟩
  · rw [List.length_append, List.length_singleton]
    by_contra hle
    exact hu ((usedUp_iff _).mpr ⟨m, hm, Nat.le_of_not_lt hle⟩)

theorem yields : policy.Yields limit (results ++ [result]) (policy.count limit results.length result) := by
  unfold count
  split
  · rename_i hr
    rw [hr]
    exact .stopped h
  · rename_i hr
    split
    · rename_i hu
      obtain ⟨m, hm, hle⟩ := (usedUp_iff _).mp hu
      have hlt := h.left m hm
      obtain rfl : m = results.length + 1 := by omega
      exact .exhausted h hr hm
    · rename_i hu
      exact .goesOn (h.next hr hu)

theorem of_count (hr : result ≠ .running) (hplain : policy.exhausted ≠ .running)
    (hc : policy.count limit results.length result = .running) : policy.Open limit (results ++ [result]) := by
  unfold count at hc
  split at hc
  · exact absurd hc hr
  · rename_i hstop
    split at hc
    · exact absurd hc hplain
    · rename_i hu
      exact h.next hstop hu

end Open

end RepeatPolicy

namespace Tree

/-- One tick of a repeating node, after the results that its child has given and with the child under way or not; then
the same for the next tick. The node is called afresh if it has not begun. -/
inductive Lap (t : Tree) (n : Node) (only : NodeId) (limit : Option Nat) (policy : RepeatPolicy) (begun : Bool) :
    List Status → Bool → List Status → Bool → Status → List Activity → Prop where
  /-- There is no run to be had. -/
  | spent {status : Status} : begun = false → limit = some 0 →
      Lap t n only limit policy begun [] false [] false status [.called n.id begun, .returned n.id (some status)]
  /-- The child starts, and is running. -/
  | starts {results : List Status} {acts : List Activity} : policy.Open limit results →
      t.Turn only false .running acts →
      Lap t n only limit policy begun results false results true .running
        (.called n.id begun :: acts ++ [.returned n.id (some .running)])
  /-- The child starts, and ends at once. -/
  | runs {results : List Status} {result status : Status} {acts : List Activity} : policy.Open limit results →
      t.Turn only false result acts → result ≠ .running →
      Lap t n only limit policy begun results false (results ++ [result]) false status
        (.called n.id begun :: acts ++ [.returned n.id (some status)])
  /-- The child goes on, and the node is not called. -/
  | waits {results : List Status} {acts : List Activity} : t.Turn only true .running acts →
      Lap t n only limit policy begun results true results true .running acts
  /-- The child goes on and ends, and the node with its result is called. -/
  | ends {results : List Status} {result status : Status} {acts : List Activity} : t.Turn only true result acts →
      result ≠ .running →
      Lap t n only limit policy begun results true (results ++ [result]) false status
        (acts ++ [.called n.id true, .returned n.id (some status)])

/-- What is seen of a repeating node tick by tick, the results of its child so far, and whether the child is under way.
The status of each tick is that for the results so far. -/
inductive Laps (t : Tree) (n : Node) (only : NodeId) (limit : Option Nat) (policy : RepeatPolicy) :
    List Appearance → List Status → Bool → Prop where
  | start : Laps t n only limit policy [] [] false
  | tick {ticks : List Appearance} {results results' : List Status} {underway underway' : Bool} {status : Status}
      {acts : List Activity} {clock : Float} : Laps t n only limit policy ticks results underway →
      t.Lap n only limit policy (!ticks.isEmpty) results underway results' underway' status acts →
      policy.Yields limit results' status →
      Laps t n only limit policy (ticks ++ [⟨acts, status, clock⟩]) results' underway'

end Tree

def Tick.Counted (u : Tick σ) (id : NodeId) (policy : RepeatPolicy) (limit : Option Nat) (done : Nat)
    (result status : Status) : Prop :=
  result ≠ .running ∧ status = policy.count limit done result ∧
    (status = .running → u.env.temps[id]? = some (.repeated (done + 1) false))

namespace Engine

theorem countRun_counted (site : Site) (done : Nat) (hr : result ≠ .running) (hplain : policy.exhausted ≠ .running) :
    (countRun site limit policy done result c t).Meets
      (fun status u => u.world = t.world ∧ u.Counted site.id policy limit done result status)
      (fun _ _ => True) fun _ => True := by
  rw [countRun]
  split
  · rename_i hstop
    exact ⟨rfl, hr, by rw [RepeatPolicy.count, if_pos hstop], fun h => absurd h hr⟩
  · rename_i hstop
    split
    · rename_i hu
      exact ⟨rfl, hr, by rw [RepeatPolicy.count, if_neg hstop, if_pos hu], fun h => absurd h hplain⟩
    · rename_i hu
      exact ⟨rfl, hr, by rw [RepeatPolicy.count, if_neg hstop, if_neg hu], fun _ => by simp [Env.setPayload]⟩

theorem Shows.startRun (hs : e.Shows R) (he : e.Sound R) (hb : s.node.behavior = .repeated limit policy) (done : Nat)
    (h : t.Alone R c s) (hzero : s.node.children[0]? = some only) (hk : only ∈ c.tree.started s.node)
    (hleft : ¬ usedUp limit done = true) :
    (e.startRun s.node.toSite limit policy done c t).Meets
      (fun status u => ∃ result, t.Tells c u (c.tree.Turn only false result) ∧
        (result = .running ∧ status = .running ∧ u.env.temps[s.node.id]? = some (.repeated done true) ∨
          u.Counted s.node.id policy limit done result status))
      (fun _ _ => True) fun _ => True := by
  have hplain := h.orderly.plain h.get
  rw [hb] at hplain
  rw [Engine.startRun, if_neg hleft, meets_bind, meets_child hzero, meets_bind]
  refine (hs.runChild he h hk rfl (fun _ => trivial) fun _ _ _ => rfl).mono ?_ fun _ _ _ => trivial
  intro result u hturn
  have hended : ∀ {status v}, v.world = u.world ∧ v.Counted s.node.id policy limit done result status →
      ∃ result, t.Tells c v (c.tree.Turn only false result) ∧
        (result = .running ∧ status = .running ∧ v.env.temps[s.node.id]? = some (.repeated done true) ∨
          v.Counted s.node.id policy limit done result status) :=
    fun hv => ⟨result, hturn.world hv.1, .inr hv.2⟩
  cases result with
  | success => exact (countRun_counted s.node.toSite done (by simp) hplain).mono (fun _ _ => hended) fun _ _ h => h
  | failure => exact (countRun_counted s.node.toSite done (by simp) hplain).mono (fun _ _ => hended) fun _ _ h => h
  | running => exact ⟨.running, hturn.world rfl, .inl ⟨rfl, rfl, by simp [Env.setPayload]⟩⟩

/-- Resuming frames begins with those of a region above, and goes on below once they have ended. -/
theorem resume_through {level : Nat} {id : NodeId} (ht : t.Resumes R c id base) (hle : level ≤ base.length)
    (hne : t.env.stack.frames ≠ base) (h : (ofDepth depth).resume level c t = .ok status u) :
    ∃ result v, (ofDepth depth).resume base.length c t = .ok result v ∧
      (result = .running ∧ status = .running ∧ u = v ∨
        result ≠ .running ∧ ∃ depth, (ofDepth depth : Engine σ).resume level c v = .ok status u) := by
  induction depth generalizing t with
  | zero => cases h
  | succ depth ih =>
    rcases ht.frames with ⟨_, hbase, _⟩ | ⟨x, below, n, p, hs, hpath, hready, hlast⟩
    · exact absurd hbase hne
    · obtain rfl : n.id = x := ht.runs.orderly.id_eq hready.get
      have hdeep : base.length ≤ (below ++ base).length := by rw [List.length_append]; omega
      have hran := (serves_ofDepth (R := R) depth).sound.poised (ht.poised hs hpath hready hlast)
      obtain ⟨result, v, hstep, hrest⟩ := (resumeAbove_ok_iff hs (Nat.le_trans hle hdeep)).mp h
      rw [hstep] at hran
      have hback : ∀ {result' v'}, (result = .running ∧ result' = .running ∧ v' = v ∨
          result ≠ .running ∧ (ofDepth depth).resume base.length c v = .ok result' v') →
          (ofDepth (depth + 1)).resume base.length c t = .ok result' v' := fun hends =>
        (resumeAbove_ok_iff hs hdeep).mpr ⟨result, v, hstep, hends⟩
      rcases hrest with ⟨hr, rfl, rfl⟩ | ⟨hr, hrest⟩
      · exact ⟨_, _, hback (.inl ⟨hr, rfl, rfl⟩), .inl ⟨rfl, rfl, rfl⟩⟩
      · -- The two resumptions stop at different levels. They part where the frames above `base` are used up.
        by_cases hbase : v.env.stack.frames = base
        · cases depth with
          | zero => cases hrest
          | succ depth =>
            refine ⟨_, v, hback (.inr ⟨hr, resumeAbove_of_le (by rw [Stack.size, hbase])⟩), .inr ⟨?_, _, hrest⟩⟩
            exact (hran.ends.ended hr).2.2 ▸ hr
        · obtain ⟨result', v', hthere, hends⟩ := ih (ht.next hpath hran hr) hbase hrest
          exact ⟨result', v', hback (.inr ⟨hr, hthere⟩), hends⟩

/-- Resuming a frame that is on top, and none else, is a run of its node. -/
theorem resume_poised {p : Payload} (ht : t.Poised R c n p base)
    (h : (ofDepth depth).resume base.length c t = .ok status u) :
    ∃ depth, (ofDepth depth : Engine σ).run n.id c t = .ok status u := by
  cases depth with
  | zero => cases h
  | succ depth =>
    obtain ⟨result, v, hstep, hrest⟩ := (resumeAbove_ok_iff ht.stack (Nat.le_refl _)).mp h
    have hran := (serves_ofDepth (R := R) depth).sound.poised ht
    rw [hstep] at hran
    rcases hrest with ⟨rfl, rfl, rfl⟩ | ⟨hr, hrest⟩
    · exact ⟨depth, hstep⟩
    · obtain ⟨hframes, _, hlast⟩ := hran.ends.ended hr
      cases depth with
      | zero => cases hrest
      | succ depth =>
        have hle : v.env.stack.size ≤ base.length := by rw [Stack.size, hframes]
        have hnone : (ofDepth depth).resumeAbove base.length c v = _ := resumeAbove_of_le hle
        cases hnone.symm.trans hrest
        exact ⟨_, hlast ▸ hstep⟩

end Engine

/-- A lap of a repeating node is seen, and the payload tells how it goes on. -/
def Tick.Lapped (c : Activation) (t : Tick σ) (n : Node) (only : NodeId) (limit : Option Nat) (policy : RepeatPolicy)
    (begun : Bool) (results : List Status) (underway : Bool) (status : Status) (u : Tick σ) : Prop :=
  ∃ acts results' underway', t.Adds c acts u ∧
    c.tree.Lap n only limit policy begun results underway results' underway' status acts ∧
    policy.Yields limit results' status ∧
    (status = .running →
      u.env.temps[n.id]? = some (.repeated results'.length underway') ∧ policy.Open limit results')

namespace Tick.Begins

variable (hb : s.node.behavior = .repeated limit policy) (h : (s.node.entered c t).Begins R c s)
include hb h

theorem laps_start (hzero : s.node.children[0]? = some only)
    (hown : s.own = none ∧ results = [] ∨
      s.own = some (.repeated results.length false) ∧ policy.Open limit results) (hf : ¬ u.Flagged c)
    (hrun : (Engine.ofDepth depth).run s.node.id c t = .ok status u) :
    t.Lapped c s.node only limit policy s.own.isSome results false status u := by
  have halone := h.alone fun p => by simp [Tree.parked, hb]
  have hplain := h.stands.orderly.plain h.stands.get
  rw [hb] at hplain
  have hstart : only ∈ c.tree.started s.node := by
    rw [Tree.started, hb]
    exact List.mem_of_getElem? ((List.getElem?_take_of_lt Nat.one_pos).trans hzero)
  have hrepeated : ∀ {e : Engine σ} {Q : Status → Tick σ → Prop},
      (e.startRun s.node.toSite limit policy results.length c (s.node.entered c t)).Meets Q (fun _ _ => True) (fun _ => True) →
      (e.behave s.node.toSite s.node.behavior c (s.node.entered c t)).Meets Q (fun _ _ => True) fun _ => True := by
    intro e Q hQ
    rw [hb, Engine.behave, Engine.repeated, h.meets_saved]
    rcases hown with ⟨hnone, rfl⟩ | ⟨hsome, _⟩
    · rw [hnone]
      exact hQ
    · rw [hsome]
      exact hQ
  by_cases hu : Engine.usedUp limit results.length = true
  · rcases hown with ⟨hnone, rfl⟩ | ⟨_, hopen⟩
    · obtain ⟨m, hm, hle⟩ := (RepeatPolicy.usedUp_iff _).mp hu
      obtain rfl := Nat.le_zero.mp hle
      obtain ⟨acts, v, hacts, ⟨rfl, rfl⟩, _⟩ := h.exists_acts
        (Q := fun status _ acts => status = policy.exhausted ∧ acts = []) (fun e _ _ => hrepeated (by
          rw [Engine.startRun, if_pos hu]
          exact .nothing rfl ⟨rfl, rfl⟩)) hf hrun
      refine ⟨_, [], false, hacts, ?_, .spent hm, fun hr => absurd hr hplain⟩
      rw [hnone]
      exact .spent rfl hm
    · exact absurd hu hopen.not_usedUp
  · have hopen : policy.Open limit results := by
      rcases hown with ⟨_, rfl⟩ | ⟨_, hopen⟩
      · refine ⟨by simp, fun m hm => ?_⟩
        by_contra hle
        exact hu ((RepeatPolicy.usedUp_iff _).mpr ⟨m, hm, Nat.le_of_not_lt hle⟩)
      · exact hopen
    obtain ⟨acts, v, hacts, ⟨result, hturn, hgoes⟩, _, hpayload⟩ := h.exists_acts
      (Q := fun status v acts => ∃ result, c.tree.Turn only false result acts ∧
        (result = .running ∧ status = .running ∧ v.env.temps[s.node.id]? = some (.repeated results.length true) ∨
          v.Counted s.node.id policy limit results.length result status))
      (fun e hs he => hrepeated ((hs.startRun he hb _ halone hzero hstart hu).mono (fun status v hv => by
        obtain ⟨result, htells, hgoes⟩ := hv
        exact htells.mono fun acts hturn => ⟨result, hturn, hgoes⟩) fun _ _ h => h)) hf hrun
    rcases hgoes with ⟨rfl, rfl, hp⟩ | ⟨hr, rfl, hp⟩
    · exact ⟨_, results, true, hacts, .starts hopen hturn, .goesOn hopen, fun hr => ⟨hpayload hr _ hp, hopen⟩⟩
    · refine ⟨_, results ++ [result], false, hacts, .runs hopen hturn hr, hopen.yields, fun hc => ?_⟩
      rw [List.length_append, List.length_singleton]
      exact ⟨hpayload hc _ (hp hc), hopen.of_count hr hplain hc⟩

theorem laps_end (hown : s.own = some (.repeated results.length true)) (hopen : policy.Open limit results)
    (hr : t.env.lastStatus = result) (hzero : s.node.children[0]? = some only) (hf : ¬ u.Flagged c)
    (hrun : (Engine.ofDepth depth).run s.node.id c t = .ok status u) :
    t.Adds c [.called s.node.id true, .returned s.node.id (some status)] u ∧
      policy.Yields limit (results ++ [result]) status ∧
      (status = .running → u.env.temps[s.node.id]? = some (.repeated (results.length + 1) false) ∧
        policy.Open limit (results ++ [result])) := by
  have hplain := h.stands.orderly.plain h.stands.get
  rw [hb] at hplain
  have hawait : c.tree.awaited s.node (.repeated results.length true) = some only := by
    simp only [Tree.awaited, hb, hzero]
  have hlast : (s.node.entered c t).env.lastStatus = result := by
    rw [Node.entered, ← hr]
    split <;> rfl
  have hne : result ≠ .running := hlast ▸ h.ended hown (by simp [hawait])
  obtain ⟨acts, v, hacts, ⟨rfl, _, rfl, hp⟩, _, hpayload⟩ := h.exists_acts
    (Q := fun status v acts => acts = [] ∧ v.Counted s.node.id policy limit results.length result status)
    (fun e _ _ => by
      rw [hb, Engine.behave, Engine.repeated, h.meets_saved, hown]
      change ((childStatus s.node.toSite >>= Engine.countRun s.node.toSite limit policy results.length) c _).Meets _ _ _
      rw [meets_bind, meets_childStatus (h.ended hown (by simp [hawait])), hlast]
      exact (Engine.countRun_counted s.node.toSite results.length hne hplain).mono
        (fun status v hv => .nothing hv.1 ⟨rfl, hv.2⟩) fun _ _ h => h) hf hrun
  rw [hown] at hacts
  exact ⟨hacts, hopen.yields, fun hc => ⟨hpayload hc _ (hp hc), hopen.of_count hne hplain hc⟩⟩

end Tick.Begins

/-- What a tick does with a node: it is run at first, and its frames are resumed later. -/
def Engine.proceed (e : Engine σ) (id : NodeId) (base : List NodeId) (begun : Bool) : TickM σ Status :=
  if begun then e.resume base.length else e.run id

/-- A node is about to be run, or its frames to be resumed, and what was seen of it until then. It was afresh at first,
and has always been running since; what happened between its ticks has left its region alone. -/
inductive Tick.Pursued (R : Rules σ) (c : Activation) (n : Node) : List Appearance → List NodeId → Tick σ → Prop where
  | fresh {t : Tick σ} : t.Fresh R c n.id → Pursued R c n [] t.env.stack.frames t
  | goesOn {ticks : List Appearance} {t u t' : Tick σ} {depth : Nat} {acts : List Activity}
      {above base base' : List NodeId} : Pursued R c n ticks base t →
      (Engine.ofDepth depth).proceed n.id base (!ticks.isEmpty) c t = .ok .running u → ¬ u.Flagged c →
      t.Adds c acts u → u.env.stack.frames = above ++ base → t'.Resumes R c n.id base' →
      t'.env.stack.frames = above ++ base' → (∀ x, c.tree.Region n.id x → t'.env.temps[x]? = u.env.temps[x]?) →
      Pursued R c n (ticks ++ [⟨acts, .running, u.world.time⟩]) base' t'

/-- The frames of a child that a node waits for may be resumed, before those of the node itself. -/
theorem Tick.Resumes.child {above : List NodeId} {p : Payload} {k : NodeId} (h : t.Resumes R c n.id base)
    (hframes : t.env.stack.frames = above ++ [n.id] ++ base) (hn : c.tree.get? n.id = some n)
    (hp : t.env.temps[n.id]? = some p) (hs : n.Saves p) (haw : c.tree.awaited n p = some k)
    (hsus : c.tree.Suspended t.env.temps k above)
    (hidle : ∀ d ∈ c.tree.started n, d ≠ k → c.tree.Idle t.env.temps d) : t.Resumes R c k (n.id :: base) := by
  have ht := h.runs.orderly
  have hstarts : c.tree.Starts n.id k := ⟨n, hn, Tree.mem_started_of_awaited hs haw⟩
  refine ⟨h.runs, h.fits, ?_, ?_, fun hf => (h.beside hf).of_starts ht hstarts ?_ ?_⟩
  · intro x hx hr
    rcases List.mem_cons.mp hx with rfl | hx
    · exact ht.not_region_of_starts hstarts hr
    · exact h.apart x hx (.of_starts hstarts hr)
  · obtain ⟨x, m, q, below, rfl, hpath, hnone, hready⟩ := hsus.cases
    exact .inr ⟨x, below, m, q, by simpa using hframes, hpath, hready, fun hne => absurd hnone hne⟩
  · intro q hq y hy
    obtain rfl := Option.some.inj (hp.symm.trans hq)
    rw [Payload.nestedFrames, Tree.nested_of_awaited haw] at hy
    cases hy
  · rintro d ⟨m, hm, hd⟩ hdk x q hx hq y hy
    obtain rfl : n = m := Option.some.inj (hn.symm.trans hm)
    rw [hidle d hd hdk x hx] at hq
    cases hq

theorem Tick.Ran.poised_above {p : Payload} {k : NodeId} (h : t.Ran R c k (n.id :: base) status u)
    (hr : t.Resumes R c n.id base) (hst : status ≠ .running) (hn : c.tree.get? n.id = some n)
    (hp : t.env.temps[n.id]? = some p) (hs : n.Saves p) (haw : c.tree.awaited n p = some k)
    (hidle : ∀ d ∈ c.tree.started n, d ≠ k → c.tree.Idle t.env.temps d) : u.Poised R c n p base := by
  have ht := hr.runs.orderly
  have hstarts : c.tree.Starts n.id k := ⟨n, hn, Tree.mem_started_of_awaited hs haw⟩
  obtain ⟨hframes, hkid, hlast⟩ := h.ends.ended hst
  have hpayload : u.env.temps[n.id]? = some p := (h.temps (ht.not_region_of_starts hstarts)).trans hp
  have hkids : ∀ d ∈ c.tree.started n, c.tree.Idle u.env.temps d := by
    intro d hd
    by_cases hdk : d = k
    · exact hdk ▸ hkid
    · exact (hidle d hd hdk).congr fun z hz => h.temps (ht.region_disjoint ⟨n, hn, hd⟩ hstarts hdk hz)
  have hready : c.tree.Ready u.env.temps n.id n p :=
    ⟨hn, hpayload, hs, fun d st hd => by simp [Tree.parked_of_awaited haw] at hd, fun d hd _ => hkids d hd⟩
  refine ⟨h.runs, h.fits, hr.apart, hframes, hready, fun _ => hlast ▸ hst, fun hf => ?_⟩
  exact (hr.beside fun hf' => hf (h.flagged hr.runs hf')).congr h.detached fun x hx =>
    h.temps fun hkx => hx (.of_starts hstarts hkx)

/-- How a repeating node stands between its ticks: at first it is afresh, and later it is suspended, with a payload
that tells the number of results and whether the child is under way. -/
def Tick.Recurs (R : Rules σ) (c : Activation) (n : Node) (only : NodeId) (limit : Option Nat) (policy : RepeatPolicy)
    (ticks : List Appearance) (base : List NodeId) (t : Tick σ) : Prop :=
  ticks = [] ∧ base = t.env.stack.frames ∧ t.Fresh R c n.id ∨
    ticks ≠ [] ∧ ∃ results underway above, c.tree.Laps n only limit policy ticks results underway ∧
      policy.Open limit results ∧ t.Resumes R c n.id base ∧ t.env.stack.frames = above ++ base ∧
      c.tree.Suspended t.env.temps n.id above ∧ t.env.temps[n.id]? = some (.repeated results.length underway)

namespace Tick.Recurs

variable (hn : c.tree.get? n.id = some n) (hb : n.behavior = .repeated limit policy) (hzero : n.children[0]? = some only)
include hn hb hzero

theorem laps_resumed {above : List NodeId} (hres : t.Resumes R c n.id base) (hopen : policy.Open limit results)
    (hframes : t.env.stack.frames = above ++ [n.id] ++ base) (hp : t.env.temps[n.id]? = some (.repeated results.length true))
    (hsus : c.tree.Suspended t.env.temps only above)
    (hidle : ∀ d ∈ c.tree.started n, d ≠ only → c.tree.Idle t.env.temps d) (hf : ¬ u.Flagged c)
    (hrun : (Engine.ofDepth depth).resume base.length c t = .ok status u) :
    t.Lapped c n only limit policy true results true status u := by
  have hsaves : n.Saves (.repeated results.length true) := by simp [Node.Saves, hb]
  have hawait : c.tree.awaited n (.repeated results.length true) = some only := by simp only [Tree.awaited, hb, hzero]
  have hchild := hres.child hframes hn hp hsaves hawait hsus hidle
  have hne : t.env.stack.frames ≠ n.id :: base := by
    intro heq
    have hnil : above ++ (n.id :: base) = [] ++ (n.id :: base) := by simpa using hframes.symm.trans heq
    exact hsus.ne_nil (List.append_cancel_right hnil)
  obtain ⟨result, v, hkid, hrest⟩ := Engine.resume_through hchild (by simp) hne hrun
  have hran := (Engine.serves_ofDepth (R := R) depth).sound.resumes hchild
  have hshown := (Engine.shows_ofDepth R depth).resumes hchild
  rw [hkid] at hran hshown
  simp only [meets_ok, if_neg hne] at hran hshown
  rcases hrest with ⟨rfl, rfl, rfl⟩ | ⟨hr, depth, hrest⟩
  · obtain ⟨acts, hacts, hturn⟩ := hshown hf
    have hstarts : c.tree.Starts n.id only := ⟨n, hn, Tree.mem_started_of_awaited hsaves hawait⟩
    have hpayload := (hran.temps (hres.runs.orderly.not_region_of_starts hstarts)).trans hp
    exact ⟨acts, results, true, hacts, .waits hturn, .goesOn hopen, fun _ => ⟨hpayload, hopen⟩⟩
  · obtain ⟨acts, hacts, hturn⟩ := hshown (hran.not_flagged hr)
    have hpoised := hran.poised_above hres hr hn hp hsaves hawait hidle
    obtain ⟨depth, hnode⟩ := Engine.resume_poised hpoised hrest
    obtain ⟨hacts', hyields, hnext⟩ :=
      hpoised.entered_begins.laps_end hb rfl hopen (hran.ends.ended hr).2.2 hzero hf hnode
    refine ⟨_, results ++ [result], false, hacts.trans hacts', .ends hturn hr, hyields, fun hc => ?_⟩
    rw [List.length_append, List.length_singleton]
    exact hnext hc

theorem laps (h : t.Recurs R c n only limit policy ticks base) (hf : ¬ u.Flagged c)
    (hrun : (Engine.ofDepth depth).proceed n.id base (!ticks.isEmpty) c t = .ok status u) :
    t.Ran R c n.id base status u ∧ ∃ acts results underway, t.Adds c acts u ∧
      c.tree.Laps n only limit policy (ticks ++ [⟨acts, status, u.world.time⟩]) results underway ∧
      policy.Yields limit results status ∧
      (status = .running →
        u.env.temps[n.id]? = some (.repeated results.length underway) ∧ policy.Open limit results) := by
  have hsound := (Engine.serves_ofDepth (R := R) depth).sound
  rcases h with ⟨rfl, rfl, hfresh⟩ | ⟨hne, results, underway, above, hlaps, hopen, hres, hframes, hsus, hp⟩
  · have hran := hsound.fresh hfresh
    rw [show (Engine.ofDepth depth).run n.id c t = _ from hrun] at hran
    obtain ⟨acts, results, underway, hacts, hlap, hyields, hnext⟩ :=
      (hfresh.entered_begins hn).laps_start hb hzero (.inl ⟨rfl, rfl⟩) hf hrun
    exact ⟨hran, acts, results, underway, hacts, .tick .start hlap hyields, hyields, hnext⟩
  · have hbegun : (!ticks.isEmpty) = true := by simpa using hne
    rw [hbegun] at hrun
    have hran := hsound.resumes hres
    rw [show (Engine.ofDepth depth).resume base.length c t = _ from hrun] at hran
    have hlapped : t.Lapped c n only limit policy true results underway status u := by
      rcases hsus.bottom hn hp with ⟨rfl, hawait, hready⟩ | ⟨k, rest, rfl, hawait, hsaves, hkid, hidle⟩
      · obtain rfl : underway = false := by
          cases underway with
          | false => rfl
          | true => simp [Tree.awaited, hb, hzero] at hawait
        have hpoised := hres.poised (show t.env.stack.frames = n.id :: [] ++ base from hframes) .here hready
          fun hne => absurd hawait hne
        obtain ⟨depth, hnode⟩ := Engine.resume_poised hpoised hrun
        exact hpoised.entered_begins.laps_start hb hzero (.inr ⟨rfl, hopen⟩) hf hnode
      · cases underway with
        | false => simp [Tree.awaited, hb] at hawait
        | true =>
          obtain rfl : only = k := by simpa [Tree.awaited, hb, hzero] using hawait
          exact laps_resumed hn hb hzero hres hopen hframes hp hkid hidle hf hrun
    obtain ⟨acts, results', underway', hacts, hlap, hyields, hnext⟩ := hlapped
    refine ⟨hran, acts, results', underway', hacts, hlaps.tick ?_ hyields, hyields, hnext⟩
    rwa [hbegun]

end Tick.Recurs

theorem Tick.Pursued.runs (h : t.Pursued R c n ticks base) : t.Runs R c := by
  cases h with
  | fresh h => exact h.runs
  | goesOn _ _ _ _ _ h _ _ => exact h.runs

/-- A repeating node that is about to be run or resumed has always recurred. -/
theorem Tick.Pursued.recurs (hn : c.tree.get? n.id = some n) (hb : n.behavior = .repeated limit policy)
    (hzero : n.children[0]? = some only) (h : t.Pursued R c n ticks base) :
    t.Recurs R c n only limit policy ticks base := by
  induction h with
  | fresh h => exact .inl ⟨rfl, rfl, h⟩
  | @goesOn ticks t u t' depth acts above base base' _ hrun hf hacts hframes hres hframes' htemps ih =>
    obtain ⟨hran, acts', results, underway, hadds, hlaps, _, hnext⟩ := ih.laps hn hb hzero hf hrun
    obtain rfl := hacts.unique hadds
    obtain ⟨hp, hopen⟩ := hnext rfl
    obtain ⟨above', hframes'', hsus⟩ := hran.ends.suspended hf rfl
    obtain rfl : above = above' := List.append_cancel_right (hframes.symm.trans hframes'')
    refine .inr ⟨by simp, results, underway, above, hlaps, hopen, hres, hframes', ?_, ?_⟩
    · exact hsus.congr hres.runs.orderly htemps
    · rw [htemps _ (.refl _), hp]

namespace BuiltIn

/-- The types that repeat their child, each with the argument that limits it and with the way it takes a result. -/
def repeats : List (NodeType × String × RepeatPolicy) :=
  [(repeated, "count", ⟨.failure, .success⟩), (repeatUntilSuccess, "max_loop", ⟨.success, .failure⟩),
    (repeatUntilFailure, "max_loop", ⟨.failure, .success⟩)]

/-- A node of such a type has its limit from its document, if that is a count. -/
theorem exists_limit {type : NodeType} {key : String} {compile : Compiler} {spec : NodeSpec} {behavior : Behavior}
    (htype : (type, key, policy) ∈ repeats) (h : type.configure compile spec = .ok behavior) :
    ∃ limit, spec.countArg? key = .ok limit ∧ behavior = .repeated limit policy := by
  simp only [repeats, List.mem_cons, List.not_mem_nil, or_false, Prod.mk.injEq] at htype
  rcases htype with ⟨rfl, rfl, rfl⟩ | ⟨rfl, rfl, rfl⟩ | ⟨rfl, rfl, rfl⟩
  all_goals
    simp only [repeated, repeatUntilSuccess, repeatUntilFailure, repeating] at h
    split at h
    · cases h
    · rename_i limit hlimit
      exact ⟨limit, hlimit, (Except.ok.inj h).symm⟩

end BuiltIn

/-- How a repeating node counts, whichever of the three types it is of. In each tick the child starts, ends, or both, at
most once, and the results so far decide: the node ends with the first that stops it, or with the last one that it may
have, and at once if it may have none. -/
theorem Tick.Pursued.repeat_counts {type : NodeType} {key : String} {compile : Compiler} {spec : NodeSpec}
    (htype : (type, key, policy) ∈ BuiltIn.repeats) (hconf : type.configure compile spec = .ok n.behavior)
    (hn : c.tree.get? n.id = some n) (h : t.Pursued R c n ticks base)
    (hrun : (Engine.ofDepth depth).proceed n.id base (!ticks.isEmpty) c t = .ok status u) (hf : ¬ u.Flagged c) :
    ∃ limit only acts results underway, spec.countArg? key = .ok limit ∧ n.children[0]? = some only ∧
      t.Adds c acts u ∧
      c.tree.Laps n only limit policy (ticks ++ [⟨acts, status, u.world.time⟩]) results underway ∧
      policy.Yields limit results status ∧
      (status ≠ .running → ∀ x, c.tree.Below n.id x → u.env.temps[x]? = none) := by
  obtain ⟨limit, hlimit, hb⟩ := BuiltIn.exists_limit htype hconf
  have hneeds := h.runs.orderly.supplied hn
  rw [hb, Behavior.needs] at hneeds
  have hzero : n.children[0]? = some n.children[0] := List.getElem?_eq_getElem (by omega)
  obtain ⟨hran, acts, results, underway, hacts, hlaps, hyields, _⟩ := (h.recurs hn hb hzero).laps hn hb hzero hf hrun
  exact ⟨limit, _, acts, results, underway, hlimit, hzero, hacts, hlaps, hyields,
    fun hst x hx => (hran.ends.ended hst).2.1 x hx.region⟩

/-- The frames that a running node has left may be resumed at once. -/
theorem Tick.Ran.resumes {id : NodeId} (h : t.Ran R c id base .running u) (hr : t.Runs R c)
    (hbeside : ¬ t.Flagged c → c.tree.Beside t.env id base) (hf : ¬ u.Flagged c) :
    ∃ above, u.env.stack.frames = above ++ base ∧ u.Resumes R c id base := by
  obtain ⟨above, hframes, hsus⟩ := h.ends.suspended hf rfl
  obtain ⟨x, m, p, below, rfl, hpath, hnone, hready⟩ := hsus.cases
  obtain ⟨hapart, _⟩ := h.stays
  refine ⟨_, hframes, h.runs, h.fits, hapart, .inr ⟨x, below, m, p, hframes, hpath, hready, ?_⟩, h.beside hr hbeside⟩
  exact fun hne => absurd hnone hne

namespace Refrain

/-- A step that takes two ticks is repeated once. -/
def spec : TreeSpec where
  name := "refrain"
  root :=
    { id := ⟨0⟩, name := "Repeat", args := [("count", .int 1)]
      children := [{ id := ⟨1⟩, name := "Step", args := [("label", .string "verse"), ("ticks", .int 1)] }] }

def isRepeat (n : Node) : Bool :=
  match n.behavior with
  | .repeated (some 1) ⟨.failure, .success⟩ => true
  | _ => false

open Rehearsal in
/-- The step is running after one run, and the node has succeeded after it has been resumed. -/
theorem exists_world : ∃ w, World.perform 6 (program spec) { registry := Workbench.rules.registry, host := () } = .ok w ∧
    (ready isRepeat w && plays w (start w) .running fun u => resumes w u .success fun _ => true) = true :=
  exists_ok_of_any (by decide +kernel)

theorem behavior_of_isRepeat {n : Node} (h : isRepeat n = true) : n.behavior = .repeated (some 1) ⟨.failure, .success⟩ := by
  unfold isRepeat at h
  split at h
  · assumption
  · cases h

end Refrain

open Refrain Rehearsal in
/-- The refrain is over once the step has ended. -/
theorem Tick.Pursued.repeat_counts_refrain :
    ∃ (c : Activation) (n : Node) (t u v : Tick Unit) (base : List NodeId) (first last : Appearance) (only : NodeId)
      (limit : Option Nat) (results : List Status) (underway : Bool), spec.root.countArg? "count" = .ok limit ∧
      t.Pursued Workbench.rules c n [] base ∧ u.Pursued Workbench.rules c n [first] base ∧
      (Engine.ofDepth 6).resume base.length c u = .ok .success v ∧ u.Adds c last.acts v ∧
      c.tree.Laps n only limit ⟨.failure, .success⟩ [first, last] results underway ∧
      RepeatPolicy.Yields ⟨.failure, .success⟩ limit results .success ∧
      ∀ x, c.tree.Below n.id x → v.env.temps[x]? = none := by
  obtain ⟨w, n, hid, hn, hrepeat, hfresh, hempty, hplays⟩ := exists_start exists_world
  have hconf : BuiltIn.repeated.configure (fun code => Expression.compile code) spec.root = .ok n.behavior :=
    (behavior_of_isRepeat hrepeat) ▸ rfl
  have htype : (BuiltIn.repeated, "count", (⟨.failure, .success⟩ : RepeatPolicy)) ∈ BuiltIn.repeats := List.mem_cons_self
  obtain ⟨u, hu, hfu, hresumes⟩ := exists_ends hplays
  obtain ⟨v, hv, hfv, _⟩ := exists_ends hresumes
  rw [← hid] at hu
  have hstart : (start w).Pursued Workbench.rules (activation w) n [] [] := hempty ▸ .fresh hfresh
  obtain ⟨_, _, acts, _, _, _, _, hacts, _⟩ := hstart.repeat_counts htype hconf hn hu hfu
  have hran := (Engine.serves_ofDepth (R := Workbench.rules) 6).sound.fresh hfresh
  rw [hu] at hran
  obtain ⟨above, hframes, hres⟩ := hran.resumes hfresh.runs hfresh.beside hfu
  rw [hempty] at hframes hres
  have hnext := hstart.goesOn hu hfu hacts hframes hres hframes fun _ _ => rfl
  obtain ⟨limit, only, acts', results, underway, hlimit, _, hacts', hlaps, hyields, hidle⟩ :=
    hnext.repeat_counts htype hconf hn hv hfv
  exact ⟨_, n, _, u, v, [], _, _, only, limit, results, underway, hlimit, hstart, hnext, hv, hacts', hlaps, hyields,
    hidle (by simp)⟩

end BehaviorTree
