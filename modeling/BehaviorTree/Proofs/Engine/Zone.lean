import BehaviorTree.Proofs.Engine.Action

/-!
How far a run reaches. A zone is a part of the tree that is closed under starting nodes, with the frames that it
stands on, with nodes in it that have payloads but no frames, and with listening nodes whose children run in it.
Whatever runs in a zone, in whatever order its payloads are, acts on nothing outside of it, leaves the frames below
alone, and gives no frames to the strays. In a steady zone, where payloads only name frames further down, a node that
has ended also leaves no frames behind.
-/

namespace BehaviorTree
set_option autoImplicit false

variable {σ α β : Type}

/-- How a computation that stays in its zone may halt. While no node of the instance has failed and callbacks leave
its tree alone, more is known of what runs than how far it reaches, and it is not for the zone to say. -/
def Rules.Tolerates (R : Rules σ) (w : World σ) (owner : Tag) (h : Halt) : Prop :=
  h = .tooDeep ∨ R.swap = false ∧ w.Faultless owner

theorem Rules.Tolerates.tooDeep {R : Rules σ} {w : World σ} {owner : Tag} {h : Halt} (ht : R.Tolerates w owner h)
    (hn : R.swap = false → ¬ w.Faultless owner) : h = .tooDeep := ht.resolve_right fun hf => hn hf.1 hf.2

/-- How far a run reaches: the nodes that may act, those of them that no stack accounts for, and the frames below. -/
structure Zone (t : Tree) where
  region : NodeId → Prop
  /-- Those that may be run; the others are under way. -/
  calls : NodeId → Prop
  strays : NodeId → Prop
  /-- Listening nodes that park stacks of the zone. -/
  parks : NodeId → Prop
  /-- The frames below. -/
  base : List NodeId
  steady : Prop
  within {x : NodeId} : calls x → region x
  closed {x y : NodeId} : region x → t.Starts x y → calls y
  apart {x : NodeId} : x ∈ base → ¬ calls x

namespace Zone

def Admits {t : Tree} (z : Zone t) (x : NodeId) : Prop := z.calls x ∧ ¬ z.strays x

/-- A node may name another's frame in its payload. -/
def Names {t : Tree} (z : Zone t) (x y : NodeId) : Prop := z.Admits y ∧ (z.steady → t.Below x y)

/-- Frames above the base, and those in payloads and parked stacks of the zone, are admitted; every stray has a
payload. -/
structure Holds {t : Tree} (z : Zone t) (env : Env) : Prop where
  frames : ∃ above, env.stack.frames = above ++ z.base ∧ ∀ x ∈ above, z.Admits x
  nested {x y : NodeId} {p : Payload} : z.region x → env.temps[x]? = some p → y ∈ p.nestedFrames → z.Names x y
  parked {l y : NodeId} {s : Stack} : z.parks l → env.detached[l]? = some s → y ∈ s.frames → z.Admits y
  strays {x : NodeId} : z.strays x → env.temps[x]? ≠ none
  fits : env.Fits t

structure Keeps {t : Tree} (z : Zone t) (env env' : Env) : Prop where
  temps {x : NodeId} : ¬ z.region x → env'.temps[x]? = env.temps[x]?
  detached {l : NodeId} : ¬ z.parks l → env'.detached[l]? = env.detached[l]?

/-- What has happened since a tick was at some point has stayed in the zone. -/
structure From {c : Activation} (z : Zone c.tree) (R : Rules σ) (t t' : Tick σ) : Prop where
  runs : t'.Runs R c
  advances : t.world.Advances (!R.swap) (Part.ticking.only c.owner) t'.world
  holds : z.Holds t'.env
  keeps : z.Keeps t.env t'.env
  /-- Only nodes that may be run are seen to start and to return. -/
  seen : ∃ acts, t'.world.acts c.owner = t.world.acts c.owner ++ acts ∧
    ∀ a ∈ acts, ∀ x, a.node? = some x → z.calls x

/-- A computation that starts on some frames stays in the zone, and its results and the frames that it ends on are as
described. -/
def Stays {c : Activation} (z : Zone c.tree) (R : Rules σ) (frames : List NodeId) (m : TickM σ α)
    (P : α → List NodeId → Prop) : Prop :=
  ∀ t t', z.From R t t' → t'.env.stack.frames = frames →
    (m c t').Meets (fun a u => z.From R t u ∧ P a u.env.stack.frames) (fun _ u => z.From R t u)
      (R.Tolerates t.world c.owner)

def Rests {c : Activation} (z : Zone c.tree) (R : Rules σ) (m : TickM σ α) (P : α → Prop) : Prop :=
  ∀ frames, z.Stays R frames m fun a frames' => frames' = frames ∧ P a

variable {R : Rules σ} {c : Activation} {z : Zone c.tree} {t t' u : Tick σ} {n : Node} {frames : List NodeId}

namespace Keeps

variable {tree : Tree} {z : Zone tree} {env env' env'' : Env}

theorem refl : z.Keeps env env := ⟨fun _ => rfl, fun _ => rfl⟩

theorem trans (h : z.Keeps env env') (h' : z.Keeps env' env'') : z.Keeps env env'' :=
  ⟨fun hx => (h'.temps hx).trans (h.temps hx), fun hl => (h'.detached hl).trans (h.detached hl)⟩

end Keeps

namespace From

theorem refl (hr : t.Runs R c) (hz : z.Holds t.env) : z.From R t t := ⟨hr, .refl _, hz, .refl, [], by simp, by simp⟩

theorem seen_append (h : z.From R t t') {acts : List Activity}
    (hu : u.world.acts c.owner = t'.world.acts c.owner ++ acts)
    (ha : ∀ a ∈ acts, ∀ x, a.node? = some x → z.calls x) :
    ∃ acts, u.world.acts c.owner = t.world.acts c.owner ++ acts ∧ ∀ a ∈ acts, ∀ x, a.node? = some x → z.calls x := by
  obtain ⟨before, hbefore, hregion⟩ := h.seen
  refine ⟨before ++ acts, by rw [hu, hbefore, List.append_assoc], ?_⟩
  intro a hmem
  rcases List.mem_append.mp hmem with hmem | hmem
  · exact hregion a hmem
  · exact ha a hmem

theorem calm (h : z.From R t t') (hc : t'.Calm R c u) : z.From R t u := by
  obtain ⟨i, hi, he, _⟩ := h.runs.here
  obtain ⟨_, acts, _, _, _, hacts, hallow⟩ := hc.advances.exists_allowed hi he
  have hquiet : ∀ a ∈ acts, ∀ x, a.node? = some x → z.calls x := by
    intro a ha x hx
    rw [Activity.Quiet.node? (hallow.quiet a ha)] at hx
    cases hx
  refine ⟨hc.runs, h.advances.trans (hc.advances.of_guests id), ?_, ?_, h.seen_append hacts hquiet⟩
  · refine ⟨hc.stack ▸ h.holds.frames, ?_, ?_, ?_, ?_⟩
    · rw [hc.temps]
      exact h.holds.nested
    · rw [hc.detached]
      exact h.holds.parked
    · rw [hc.temps]
      exact h.holds.strays
    · rw [Env.Fits, hc.temps]
      exact h.holds.fits
  · exact ⟨fun hx => by rw [hc.temps]; exact h.keeps.temps hx,
      fun hl => by rw [hc.detached]; exact h.keeps.detached hl⟩

theorem env (h : z.From R t t') {env : Env} (hz : z.Holds env) (hk : z.Keeps t'.env env) :
    z.From R t { t' with env } :=
  ⟨⟨h.runs.good, h.runs.here⟩, h.advances, hz, h.keeps.trans hk, h.seen⟩

theorem setPayload (h : z.From R t t') {p : Payload} (hn : c.tree.get? n.id = some n)
    (hz : z.region n.id) (hs : n.Saves p ∨ p = .marker) (hp : ∀ y ∈ p.nestedFrames, z.Names n.id y) :
    z.From R t { t' with env := t'.env.setPayload n.id p } := by
  have hget : ∀ x, (t'.env.setPayload n.id p).temps[x]? = if n.id = x then some p else t'.env.temps[x]? := by
    simp [Env.setPayload, Std.ExtTreeMap.getElem?_insert]
  refine h.env ⟨h.holds.frames, ?_, h.holds.parked, ?_, ?_⟩ ⟨?_, fun _ => rfl⟩
  · intro x y q hx hq hy
    rw [hget] at hq
    split at hq
    · rename_i hnx
      obtain rfl : p = q := Option.some.inj hq
      exact hnx ▸ hp y hy
    · exact h.holds.nested hx hq hy
  · intro x hx
    rw [hget]
    split
    · simp
    · exact h.holds.strays hx
  · intro x m q hm hq
    rw [hget] at hq
    split at hq
    · rename_i hx
      obtain rfl : p = q := Option.some.inj hq
      obtain rfl : n = m := Option.some.inj (hn.symm.trans (hx ▸ hm))
      exact hs
    · exact h.holds.fits x m q hm hq
  · intro x hx
    rw [hget, if_neg]
    rintro rfl
    exact hx hz

theorem abandon (h : z.From R t t') {s : Stack} (hs : ∀ y ∈ s.frames, z.Admits y) :
    z.From R t { t' with env := t'.env.abandon s } := by
  have hled : ∀ {x}, t'.env.temps.Leads s.frames x → z.Admits x := fun hl =>
    hl.closed hs fun y p hy hp x hx => (h.holds.nested (z.within hy.1) hp hx).1
  refine h.env ⟨h.holds.frames, ?_, h.holds.parked, ?_, ?_⟩ ⟨?_, fun _ => rfl⟩
  · intro x y p hx hp hy
    exact h.holds.nested hx (Stack.getElem?_of_clear hp) hy
  · intro x hx
    have hnot : ¬ t'.env.temps.Leads s.frames x := fun hl => (hled hl).2 hx
    change (s.clear t'.env.temps)[x]? ≠ none
    rw [Stack.getElem?_clear_of_not_leads hnot]
    exact h.holds.strays hx
  · intro x m p hm hp
    exact h.holds.fits x m p hm (Stack.getElem?_of_clear hp)
  · intro x hx
    exact Stack.getElem?_clear_of_not_leads fun hl => hx (z.within (hled hl).1)

theorem setStack (h : z.From R t t') (above : List NodeId) (ha : ∀ x ∈ above, z.Admits x) :
    z.From R t { t' with env := { t'.env with stack := ⟨above ++ z.base⟩ } } :=
  h.env ⟨⟨above, rfl, ha⟩, h.holds.nested, h.holds.parked, h.holds.strays, h.holds.fits⟩
    ⟨fun _ => rfl, fun _ => rfl⟩

/-- The calls and returns of nodes of the zone are noted. -/
theorem observe (h : z.From R t t') {a : Activity} (ha : a.Quiet true) (hj : a.job? = none)
    (hr : a.isRequest = false) (hc : a.isClear = false) (hz : ∀ x, a.node? = some x → z.calls x) :
    z.From R t { t' with world := t'.world.observe c.owner a } := by
  obtain ⟨i, hi, he, ht⟩ := h.runs.here
  have hch := (World.Changes.refl hi).observe a
  refine ⟨⟨?_, i, hch.self, he, ht⟩, h.advances.trans ?_, h.holds, h.keeps,
    h.seen_append hch.acts_self fun b hb x hx => hz x (List.mem_singleton.mp hb ▸ hx)⟩
  · exact h.runs.good.of_changes hi hch rfl (h.runs.good.holds hi).pending (by simp [he])
  · refine World.Advances.of_changes hch hi rfl (fun _ => rfl) fun _ => ?_
    rw [Part.only_self]
    exact ⟨⟨i.env.vars, rfl⟩, by simp [hj], by simp [hr], by simp [hc], by simpa using ha⟩

end From

namespace Stays

open TickM

variable {m : TickM σ α} {f : α → TickM σ β} {P P' : α → List NodeId → Prop} {O : α → Prop}
  {Q : β → List NodeId → Prop}

theorem mono (h : z.Stays R frames m P) (hp : ∀ a frames', P a frames' → P' a frames') : z.Stays R frames m P' := by
  intro t t' hf hs
  exact (h t t' hf hs).mono (fun a u ⟨hu, ha⟩ => ⟨hu, hp a _ ha⟩) fun _ _ hu => hu

theorem pure {a : α} (h : P a frames) : z.Stays R frames (pure a : TickM σ α) P := by
  intro t t' hf hs
  exact ⟨hf, hs ▸ h⟩

theorem bind (h : z.Stays R frames m P) (hf : ∀ a frames', P a frames' → z.Stays R frames' (f a) Q) :
    z.Stays R frames (m >>= f) Q := by
  intro t t' hfrom hs
  rw [meets_bind]
  exact (h t t' hfrom hs).mono (fun a u ⟨hu, ha⟩ => hf a _ ha t u hu rfl) fun _ _ hu => hu

theorem after (h : z.Rests R m O) (hf : ∀ a, O a → z.Stays R frames (f a) Q) : z.Stays R frames (m >>= f) Q := by
  refine (h frames).bind ?_
  rintro a _ ⟨rfl, ha⟩
  exact hf a ha

theorem fail {e : RunError} : z.Stays R frames (fail e : TickM σ α) P := fun _ _ hf _ => hf

theorem rejectPayload (site : Site) : z.Stays R frames (rejectPayload (σ := σ) (α := α) site) P :=
  fun _ _ hf _ => hf

theorem rejectStatus (site : Site) (status : Status) :
    z.Stays R frames (rejectStatus (σ := σ) (α := α) site status) P := fun _ _ hf _ => hf

theorem of_rests (h : z.Rests R m O) (hp : ∀ a, O a → P a frames) : z.Stays R frames m P := by
  refine (h frames).mono ?_
  rintro a _ ⟨rfl, ha⟩
  exact hp a ha

theorem env : z.Stays R frames (TickM.env (σ := σ)) fun env frames' =>
    frames' = frames ∧ z.Holds env ∧ env.stack.frames = frames := fun _ _ hf hs => ⟨hf, hs, hf.holds, hs⟩

end Stays

namespace Rests

open TickM

variable {m : TickM σ α} {f : α → TickM σ β} {P P' : α → Prop} {Q : β → Prop}

theorem mono (h : z.Rests R m P) (hp : ∀ a, P a → P' a) : z.Rests R m P' :=
  fun frames => (h frames).mono fun a _ ⟨hs, ha⟩ => ⟨hs, hp a ha⟩

theorem pure {a : α} (h : P a) : z.Rests R (pure a : TickM σ α) P := fun _ => .pure ⟨rfl, h⟩

theorem bind (h : z.Rests R m P) (hf : ∀ a, P a → z.Rests R (f a) Q) : z.Rests R (m >>= f) Q :=
  fun frames => .after h fun a ha => hf a ha frames

theorem env : z.Rests R (TickM.env (σ := σ)) z.Holds := fun _ _ _ hf hs => ⟨hf, hs, hf.holds⟩

theorem tree : z.Rests R (TickM.tree (σ := σ)) (· = c.tree) := fun _ _ _ hf hs => ⟨hf, hs, rfl⟩

theorem time : z.Rests R (TickM.time (σ := σ)) fun _ => True := fun _ _ _ hf hs => ⟨hf, hs, trivial⟩

theorem report (r : String → Report) : z.Rests R (TickM.report (σ := σ) r) fun _ => True :=
  fun _ _ _ hf hs => ⟨hf.calm ((Tick.Calm.refl hf.runs).report _), hs, trivial⟩

theorem modifyEnv {g : Env → Env} (hs : ∀ env, (g env).stack = env.stack) (ht : ∀ env, (g env).temps = env.temps)
    (hd : ∀ env, (g env).detached = env.detached) : z.Rests R (modifyEnv (σ := σ) g) fun _ => True := by
  intro frames t t' hf hframes
  refine ⟨hf.env ⟨?_, ?_, ?_, ?_, ?_⟩ ⟨fun _ => by rw [ht], fun _ => by rw [hd]⟩, ?_, trivial⟩
  · rw [hs]
    exact hf.holds.frames
  · rw [ht]
    exact hf.holds.nested
  · rw [hd]
    exact hf.holds.parked
  · rw [ht]
    exact hf.holds.strays
  · rw [Env.Fits, ht]
    exact hf.holds.fits
  · rw [hs]
    exact hframes

theorem element {items : List α} {i : Nat} {a : α} (h : items[i]? = some a) :
    z.Rests R (element (σ := σ) items i) (· = a) := by
  intro frames t t' hf hs
  exact (meets_element h).mpr ⟨hf, hs, rfl⟩

theorem node (id : NodeId) : z.Rests R (node (σ := σ) id) fun n => c.tree.get? id = some n := by
  intro frames t t' hf hs
  rw [TickM.node, meets_bind, meets_tree]
  cases h : c.tree.get? id with
  | none => exact hf
  | some n => exact ⟨hf, hs, rfl⟩

theorem childStatus (site : Site) : z.Rests R (childStatus (σ := σ) site) (· ≠ .running) := by
  intro frames t t' hf hs
  rw [TickM.childStatus, meets_bind, meets_env]
  cases t'.env.lastStatus with
  | running => exact hf
  | success => exact ⟨hf, hs, by simp⟩
  | failure => exact ⟨hf, hs, by simp⟩

theorem saved? (hn : c.tree.get? n.id = some n) (hz : z.region n.id) :
    z.Rests R (saved? (σ := σ) n.toSite) fun saved => ∀ p, saved = some p →
      (n.Saves p ∨ p = .marker) ∧ ∀ y ∈ p.nestedFrames, z.Names n.id y := by
  intro frames t t' hf hs
  refine ⟨hf, hs, fun p hp => ⟨hf.holds.fits _ n p hn hp, fun y hy => hf.holds.nested hz hp hy⟩⟩

theorem suspend {p : Payload} (hn : c.tree.get? n.id = some n) (hz : z.region n.id) (hs : n.Saves p)
    (hp : ∀ y ∈ p.nestedFrames, z.Names n.id y) : z.Rests R (suspend (σ := σ) n.toSite p) (· = .running) :=
  fun _ _ _ hf hframes => ⟨hf.setPayload hn hz (.inl hs) hp, hframes, rfl⟩

theorem suspendFlat {p : Payload} (hn : c.tree.get? n.id = some n) (hz : z.region n.id) (hs : n.Saves p)
    (hp : p.nested = []) : z.Rests R (TickM.suspend (σ := σ) n.toSite p) (· = .running) :=
  .suspend hn hz hs (by simp [Payload.nestedFrames, hp])

theorem suspendMark (hn : c.tree.get? n.id = some n) (hz : z.region n.id) :
    z.Rests R (TickM.suspend (σ := σ) n.toSite .marker) (· = .running) :=
  fun _ _ _ hf hframes => ⟨hf.setPayload hn hz (.inr rfl) (List.forall_mem_nil _), hframes, rfl⟩

theorem abandon {s : Stack} (hs : ∀ y ∈ s.frames, z.Admits y) : z.Rests R (abandon (σ := σ) s) fun _ => True :=
  fun _ _ _ hf hframes => ⟨hf.abandon hs, hframes, trivial⟩

end Rests

end Zone

end BehaviorTree
