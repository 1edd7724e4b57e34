import BehaviorTree.Proofs.Engine.Confinement
import BehaviorTree.Proofs.Stack.Abandonment

/-!
What a run of a node does when nothing in its region is out of order. A node that is run afresh or resumed ends with
its region idle and its frame gone, or suspended with its frames on top; once an interruption is asked for it counts
as running, and nothing is said of its region. If it fails, that is the doing of a watchdog's guard, of a case
outside of a switch or of a leaf, and a fresh node leaves nothing behind but what its frames lead to and what a
parallel or racing node had in hand.
-/

namespace BehaviorTree
set_option autoImplicit false

open TickM

variable {σ : Type}

def Zone.above {t : Tree} (id : NodeId) (base : List NodeId) (h : ∀ x ∈ base, ¬ t.Region id x) : Zone t where
  region := t.Region id
  calls := t.Region id
  strays := fun _ => False
  parks := fun _ => False
  base := base
  steady := False
  within := fun hx => hx
  closed := @Tree.Region.starts t id
  apart := fun hx => h _ hx

@[simp] theorem Zone.not_steady_above {t : Tree} (id : NodeId) {base : List NodeId} (h : ∀ x ∈ base, ¬ t.Region id x) :
    ¬ (Zone.above id base h).steady := fun hz => hz

/-- A node that may be run by itself: no switch has it for a child. -/
def Tree.Entered (t : Tree) (id : NodeId) : Prop :=
  (∃ n, t.get? id = some n) ∧ ∀ a m, t.get? a = some m → m.behavior = .switch → id ∉ m.children

def Tick.watch (c : Activation) (t : Tick σ) : Watch := t.world.watch c.owner c.tree

/-- A node is about to be run afresh: its region is idle, and none of the frames is of it. If it cleans up after
another, nothing is left of that one. -/
structure Tick.Fresh (R : Rules σ) (c : Activation) (id : NodeId) (t : Tick σ) : Prop where
  runs : t.Runs R c
  fits : t.env.Fits c.tree
  apart : ∀ x ∈ t.env.stack.frames, ¬ c.tree.Region id x
  idle : c.tree.Idle t.env.temps id
  entered : c.tree.Entered id
  beside : ¬ t.Flagged c → c.tree.Beside t.env id t.env.stack.frames
  cleaned : ¬ t.Flagged c → ∀ b, c.tree.CleansUp id b → c.tree.Forgotten t.env b

/-- A node is about to be resumed: its frame is on top, and the child that it waits for has ended. -/
structure Tick.Poised (R : Rules σ) (c : Activation) (n : Node) (p : Payload) (base : List NodeId) (t : Tick σ) :
    Prop where
  runs : t.Runs R c
  fits : t.env.Fits c.tree
  apart : ∀ x ∈ base, ¬ c.tree.Region n.id x
  stack : t.env.stack.frames = n.id :: base
  ready : c.tree.Ready t.env.temps n.id n p
  status : c.tree.awaited n p ≠ none → t.env.lastStatus ≠ .running
  beside : ¬ t.Flagged c → c.tree.Beside t.env n.id base

/-- The frames of a region are about to be resumed: the node of the deepest is poised, or there is none left. -/
structure Tick.Resumes (R : Rules σ) (c : Activation) (id : NodeId) (base : List NodeId) (t : Tick σ) : Prop where
  runs : t.Runs R c
  fits : t.env.Fits c.tree
  apart : ∀ x ∈ base, ¬ c.tree.Region id x
  frames :
    ¬ t.Flagged c ∧ t.env.stack.frames = base ∧ c.tree.Idle t.env.temps id ∧ t.env.lastStatus ≠ .running ∨
    ∃ x below n p, t.env.stack.frames = x :: below ++ base ∧ c.tree.Path t.env.temps id x below ∧
      c.tree.Ready t.env.temps x n p ∧ (c.tree.awaited n p ≠ none → t.env.lastStatus ≠ .running)
  beside : ¬ t.Flagged c → c.tree.Beside t.env id base

/-- How a run in a region ends: with the region idle, or suspended on top of the base. -/
structure Tick.Ends (c : Activation) (id : NodeId) (base : List NodeId) (w : Watch) (status : Status) (t : Tick σ) :
    Prop where
  flagged : t.Flagged c → status = .running
  watch : ¬ t.Flagged c → t.watch c = w.after status
  ended : status ≠ .running → t.env.stack.frames = base ∧ c.tree.Idle t.env.temps id ∧ t.env.lastStatus = status
  suspended : ¬ t.Flagged c → status = .running →
    ∃ above, t.env.stack.frames = above ++ base ∧ c.tree.Suspended t.env.temps id above

/-- What a run in a region has done: nothing outside of it, and it has ended as it should. -/
structure Tick.Ran (R : Rules σ) (c : Activation) (id : NodeId) (base : List NodeId) (t : Tick σ) (status : Status)
    (t' : Tick σ) : Prop where
  stays : ∃ h, (Zone.above (t := c.tree) id base h).From R t t'
  ends : t'.Ends c id base (t.watch c) status

/-- What a failure leaves in a region: frames that lead to everything in it, or, if something is lost, a node that
has a payload but no frame. -/
def Tick.Litter (c : Activation) (id : NodeId) (base : List NodeId) (t : Tick σ) (lost : Bool) : Prop :=
  ∃ above, t.env.stack.frames = above ++ base ∧
    (lost = false → ∀ x, c.tree.Region id x → t.env.temps[x]? ≠ none → t.env.temps.Leads above x) ∧
    (lost = true → ∃ z, c.tree.Region id z ∧ t.env.temps[z]? ≠ none ∧ z ∉ above ∧
      ∀ x p, c.tree.Region id x → t.env.temps[x]? = some p → z ∉ p.nestedFrames)

structure Tick.Broke (R : Rules σ) (c : Activation) (id : NodeId) (base : List NodeId) (t : Tick σ) (err : RunError)
    (t' : Tick σ) : Prop where
  stays : ∃ h, (Zone.above (t := c.tree) id base h).From R t t'
  blames : c.tree.Blames err
  litter : ¬ t'.Flagged c → ∃ lost,
    t'.watch c = ⟨(t.watch c).active, (t.watch c).spilled || lost⟩ ∧ t'.Litter c id base lost

structure Engine.Sound (e : Engine σ) (R : Rules σ) : Prop where
  honors : e.Honors R
  confined : e.Confined R
  fresh {c : Activation} {id : NodeId} {t : Tick σ} : t.Fresh R c id →
    (e.run id c t).Meets (t.Ran R c id t.env.stack.frames) (t.Broke R c id t.env.stack.frames)
  poised {c : Activation} {n : Node} {p : Payload} {base : List NodeId} {t : Tick σ} : t.Poised R c n p base →
    (e.run n.id c t).Meets (t.Ran R c n.id base) fun err _ => c.tree.Blames err
  resumes {c : Activation} {id : NodeId} {base : List NodeId} {t : Tick σ} : t.Resumes R c id base →
    (e.resume base.length c t).Meets (t.Ran R c id base) fun err _ => c.tree.Blames err

variable {R : Rules σ} {c : Activation} {t t' : Tick σ} {e : Engine σ} {n : Node} {p : Payload} {id : NodeId}
  {base frames : List NodeId} {w : Watch}

namespace Tree

variable {t : Tree} {temps : Temps} {a k x : NodeId} {below : List NodeId}

namespace Orderly

variable (ht : t.Orderly)
include ht

theorem entered_of_starts (h : t.Starts a k) : t.Entered k := by
  refine ⟨ht.exists_of_starts h, ?_⟩
  intro b m hm hb hk
  obtain ⟨p, m', hm', hk', hp⟩ := h.parent
  obtain rfl : b = p := ht.parent hm hm' hk hk'
  obtain rfl : m = m' := Option.some.inj (hm.symm.trans hm')
  rcases hp with ⟨_, _, _, _, hne⟩ | ⟨n, hn, hs, hpn⟩
  · exact hne hb
  · rw [ht.case_of_switch hn hs hpn hm] at hb
    cases hb

theorem entered_of_base (h : t.Base k) : t.Entered k := by
  refine ⟨ht.exists_of_base h, ?_⟩
  intro b m hm hb hk
  rcases h with rfl | ⟨l, n, event, hn, hl, hc⟩ | ⟨d, n, span, cache, hn, hd, hc⟩
  · exact ht.root hm hk
  · obtain rfl : b = l := ht.parent hm hn hk (List.mem_of_getElem? hc)
    obtain rfl : m = n := Option.some.inj (hm.symm.trans hn)
    rw [hl] at hb
    cases hb
  · obtain rfl : b = d := ht.parent hm hn hk (List.mem_of_getElem? hc)
    obtain rfl : m = n := Option.some.inj (hm.symm.trans hn)
    rw [hd] at hb
    cases hb

end Orderly

def Inward (t : Tree) (temps : Temps) (id : NodeId) : Prop :=
  ∀ x p, t.Region id x → temps[x]? = some p → ∀ y ∈ p.nestedFrames, t.Region id y

theorem Idle.inward (h : t.Idle temps id) : t.Inward temps id := by
  intro x p hx hp
  rw [h x hx] at hp
  cases hp

theorem Suspended.inward (h : t.Suspended temps id frames) (ht : t.Orderly) : t.Inward temps id := by
  intro x p hx hp y hy
  obtain ⟨s, hs, hy⟩ := List.mem_flatMap.mp hy
  obtain ⟨d, hd, hsus⟩ := h.nested ht hx hp hs
  exact hx.trans (.of_starts hd (hsus.mem_frames hy).1)

theorem Ready.inward (h : t.Ready temps id n p) (ht : t.Orderly) : t.Inward temps id := by
  intro x q hx hq y hy
  rcases payload_cases .here h.get h.idle hx (by simp [hq]) with hm | rfl | ⟨d, s, hs, hdx⟩
  · cases hm
  · obtain rfl : p = q := Option.some.inj (h.payload.symm.trans hq)
    obtain ⟨s, hs, hy⟩ := List.mem_flatMap.mp hy
    rw [nested_eq ht h.get h.saves] at hs
    obtain ⟨⟨d, s'⟩, hs', rfl⟩ := List.mem_map.mp hs
    exact .of_starts (starts_of_parked h.get hs') ((h.parked d s' hs').mem_frames hy).1
  · have hd := starts_of_parked h.get hs
    exact .of_starts hd ((h.parked d s hs).inward ht x q hdx hq y hy)

theorem Path.inward (h : t.Path temps id x below) (hx : t.Inward temps x) : t.Inward temps id := by
  intro y p hy hp z hz
  rcases h.payload hy (by simp [hp]) with hm | hxy
  · obtain ⟨_, _, _, q, d, _, hq, _, ha⟩ := h.mem_below hm
    obtain rfl : p = q := Option.some.inj (hp.symm.trans hq)
    rw [Payload.nestedFrames, nested_of_awaited ha] at hz
    cases hz
  · exact h.region.trans (hx y p hxy hp z hz)

/-- The child that a node waits for has ended, so the node can go on. -/
theorem Path.ready {y : NodeId} (h : t.Path temps id x (y :: below)) (hx : t.Idle temps x) :
    t.Path temps id y below ∧ ∃ n p, t.Ready temps y n p ∧ t.awaited n p = some x := by
  cases h with
  | @above _ _ n p _ h hn hp hs ha hi =>
    refine ⟨h, n, p, ⟨hn, hp, hs, ?_, ?_⟩, ha⟩
    · intro c s hc
      rw [parked_of_awaited ha] at hc
      cases hc
    · intro c hc _
      by_cases hcx : c = x
      · exact hcx ▸ hx
      · exact hi c hc hcx

end Tree

/-- The zone of a region holds if its frames are on top of the base. -/
theorem Zone.above_holds {tree : Tree} {env : Env} (above : List NodeId) (h : ∀ x ∈ base, ¬ tree.Region id x)
    (hs : env.stack.frames = above ++ base) (ha : ∀ x ∈ above, tree.Region id x)
    (hi : tree.Inward env.temps id) (hf : env.Fits tree) : (Zone.above id base h).Holds env :=
  ⟨⟨above, hs, fun x hx => ⟨ha x hx, fun hn => hn⟩⟩, fun hx hp hy => ⟨⟨hi _ _ hx hp _ hy, fun hn => hn⟩, by simp⟩,
    fun hl => hl.elim, fun hx => hx.elim, hf⟩

namespace Tick

theorem Fresh.holds (h : t.Fresh R c id) : (Zone.above (t := c.tree) id _ h.apart).Holds t.env :=
  Zone.above_holds [] h.apart rfl (by simp) h.idle.inward h.fits

theorem Poised.holds (h : t.Poised R c n p base) : (Zone.above (t := c.tree) n.id base h.apart).Holds t.env := by
  refine Zone.above_holds [n.id] h.apart h.stack ?_ (h.ready.inward h.runs.orderly) h.fits
  intro x hx
  rw [List.mem_singleton.mp hx]
  exact .refl _

theorem Resumes.holds (h : t.Resumes R c id base) : (Zone.above (t := c.tree) id base h.apart).Holds t.env := by
  rcases h.frames with ⟨_, hs, hi, _⟩ | ⟨x, below, n, p, hs, hpath, hr, _⟩
  · exact Zone.above_holds [] h.apart hs (by simp) hi.inward h.fits
  · refine Zone.above_holds (x :: below) h.apart hs ?_ (hpath.inward (hr.inward h.runs.orderly)) h.fits
    intro y hy
    rcases List.mem_cons.mp hy with rfl | hy
    · exact hpath.region
    · exact (hpath.mem_below hy).1

/-- Putting together that a run stays in a region and how it ends. -/
theorem Ran.of_stays {m : TickM σ Status} {E : RunError → Tick σ → Prop} {h : ∀ x ∈ base, ¬ c.tree.Region id x}
    {P : Status → List NodeId → Prop}
    (hm : (Zone.above (t := c.tree) id base h).Stays R t.env.stack.frames m P) (hr : t.Runs R c)
    (hz : (Zone.above (t := c.tree) id base h).Holds t.env)
    (he : (m c t).Meets (fun status t' => t'.Ends c id base (t.watch c) status) E) :
    (m c t).Meets (t.Ran R c id base) E :=
  ((hm t t (.refl hr hz) rfl).and he).mono (fun _ _ ⟨hs, he⟩ => ⟨⟨h, hs.1⟩, he⟩) fun _ _ he => he.2

namespace Ran

variable {status : Status}

theorem runs (h : t.Ran R c id base status t') : t'.Runs R c := by
  obtain ⟨_, hs⟩ := h.stays
  exact hs.runs

theorem fits (h : t.Ran R c id base status t') : t'.env.Fits c.tree := by
  obtain ⟨_, hs⟩ := h.stays
  exact hs.holds.fits

theorem temps (h : t.Ran R c id base status t') {x : NodeId} (hx : ¬ c.tree.Region id x) :
    t'.env.temps[x]? = t.env.temps[x]? := by
  obtain ⟨_, hs⟩ := h.stays
  exact hs.keeps.temps hx

theorem not_flagged (h : t.Ran R c id base status t') (hs : status ≠ .running) : ¬ t'.Flagged c :=
  fun hf => hs (h.ends.flagged hf)

theorem flagged (h : t.Ran R c id base status t') (hr : t.Runs R c) (hf : t.Flagged c) : t'.Flagged c := by
  obtain ⟨_, hs⟩ := h.stays
  exact hf.advance hr hs.advances (by simp)

theorem detached (h : t.Ran R c id base status t') (l : NodeId) : t'.env.detached[l]? = t.env.detached[l]? := by
  obtain ⟨_, hs⟩ := h.stays
  exact hs.keeps.detached fun hn => hn

theorem beside (h : t.Ran R c id base status t') (hr : t.Runs R c)
    (hb : ¬ t.Flagged c → c.tree.Beside t.env id base) (hf : ¬ t'.Flagged c) : c.tree.Beside t'.env id base :=
  (hb fun hfl => hf (h.flagged hr hfl)).congr h.detached fun _ hx => h.temps hx

theorem spilled (h : t.Ran R c id base status t') (hf : ¬ t'.Flagged c) :
    (t'.watch c).spilled = (t.watch c).spilled := by
  rw [h.ends.watch hf, Watch.after]
  split
  · rw [Watch.mark]
    split <;> rfl
  · rfl

theorem watch_eq (h : t.Ran R c id base status t') (hs : status ≠ .running) : t'.watch c = t.watch c := by
  rw [h.ends.watch (h.not_flagged hs), Watch.after, if_neg hs]

end Ran

namespace Resumes

variable {below : List NodeId} {status : Status}

theorem poised (h : t.Resumes R c id base) (hs : t.env.stack.frames = n.id :: below ++ base)
    (hpath : c.tree.Path t.env.temps id n.id below) (hready : c.tree.Ready t.env.temps n.id n p)
    (hlast : c.tree.awaited n p ≠ none → t.env.lastStatus ≠ .running) : t.Poised R c n p (below ++ base) := by
  have ht := h.runs.orderly
  refine ⟨h.runs, h.fits, ?_, by rw [hs, List.cons_append], hready, hlast, fun hf => (h.beside hf).of_path ht hpath⟩
  intro y hy hr
  rcases List.mem_append.mp hy with hy | hy
  · exact hpath.not_mem_below ht hr hy
  · exact h.apart y hy (hpath.region.trans hr)

/-- Once the node of the deepest frame has ended, the frames below it are about to be resumed. -/
theorem next (h : t.Resumes R c id base) (hpath : c.tree.Path t.env.temps id n.id below)
    (hran : t.Ran R c n.id (below ++ base) status t') (hst : status ≠ .running) : t'.Resumes R c id base := by
  obtain ⟨hstack, hidle, hstatus⟩ := hran.ends.ended hst
  have hpath' : c.tree.Path t'.env.temps id n.id below :=
    hpath.congr h.runs.orderly fun z _ hz => hran.temps hz
  have hlast : t'.env.lastStatus ≠ .running := hstatus ▸ hst
  have hbeside : ¬ t'.Flagged c → c.tree.Beside t'.env id base := fun hf =>
    (h.beside fun hfl => hf (hran.flagged h.runs hfl)).congr hran.detached fun z hz =>
      hran.temps fun hr => hz (hpath.region.trans hr)
  refine ⟨hran.runs, hran.fits, h.apart, ?_, hbeside⟩
  cases below with
  | nil =>
    cases hpath'
    exact .inl ⟨hran.not_flagged hst, hstack, hidle, hlast⟩
  | cons y below =>
    obtain ⟨hpath'', m, q, hready, _⟩ := hpath'.ready hidle
    exact .inr ⟨y, below, m, q, hstack, hpath'', hready, fun _ => hlast⟩

end Resumes

end Tick

namespace Engine.Sound

variable (he : e.Sound R)
include he

theorem resumeAbove (h : t.Resumes R c id base) :
    (e.resumeAbove base.length c t).Meets (t.Ran R c id base) fun err _ => c.tree.Blames err := by
  have ht := h.runs.orderly
  have hstays : (Zone.above (t := c.tree) id base h.apart).Stays R t.env.stack.frames (e.resumeAbove base.length)
      (Zone.Rises _ (c.tree.Below id) base) :=
    he.confined.resumeAbove (Nat.le_refl _) (fun hz => hz.elim) fun hz => hz.elim
  refine Tick.Ran.of_stays hstays h.runs h.holds ?_
  rw [Engine.resumeAbove, meets_bind, meets_env]
  rcases h.frames with ⟨hnot, hs, hi, hlast⟩ | ⟨x, below, n, p, hs, hpath, hready, hlast⟩
  · have hends : t.Ends c id base (t.watch c) t.env.lastStatus :=
      ⟨fun hf => absurd hf hnot, fun _ => by rw [Watch.after, if_neg hlast], fun _ => ⟨hs, hi, rfl⟩,
        fun _ hr => absurd hr hlast⟩
    cases t.env.stack.top? with
    | none => exact hends
    | some top =>
      have hle : t.env.stack.size ≤ base.length := by rw [Stack.size, hs]
      simp only [hle, if_true]
      exact hends
  · obtain rfl : n.id = x := ht.id_eq hready.get
    have htop : t.env.stack.top? = some n.id := by
      rw [Stack.top?, hs]
      rfl
    have hlt : ¬ t.env.stack.size ≤ base.length := by
      rw [Stack.size, hs, List.length_append, List.length_cons]
      omega
    rw [htop]
    simp only [hlt, if_false, meets_bind]
    refine (he.poised (h.poised hs hpath hready hlast)).mono ?_ fun _ _ hb => hb
    intro status u hran
    have hpath' : c.tree.Path u.env.temps id n.id below := hpath.congr ht fun z _ hz => hran.temps hz
    have hgoon : status ≠ .running →
        (e.resume base.length c u).Meets (fun status t' => t'.Ends c id base (t.watch c) status)
          fun err _ => c.tree.Blames err := by
      intro hst
      refine (he.resumes (h.next hpath hran hst)).mono ?_ fun _ _ hb => hb
      intro status' u' hran'
      rw [← hran.watch_eq hst]
      exact hran'.ends
    cases status with
    | success => exact hgoon (by simp)
    | failure => exact hgoon (by simp)
    | running =>
      refine ⟨fun _ => rfl, hran.ends.watch, fun hne => absurd rfl hne, ?_⟩
      intro hf _
      obtain ⟨above, hstack, hsus⟩ := hran.ends.suspended hf rfl
      exact ⟨above ++ below, by rw [hstack, List.append_assoc], hsus.append hpath'⟩

end Engine.Sound

end BehaviorTree
