import BehaviorTree.Proofs.Stack.Clearing
import BehaviorTree.Proofs.Tree.Structure

/-!
What a suspended node leaves behind. Its payload names the child it waits for, whose frames stand above its own, or
holds the stacks of the children that it keeps in flight. So the frames of a region form a path that begins at its
first node and follows the payloads; nothing beside the path is suspended but what the payload at its end holds.
-/

namespace BehaviorTree
set_option autoImplicit false

def provided {α β : Type} (xs : List α) (ys : List (Option β)) : List (α × β) :=
  (xs.zip ys).filterMap fun pair => pair.2.map (pair.1, ·)

theorem map_snd_provided {α β : Type} {xs : List α} {ys : List (Option β)} (h : ys.length = xs.length) :
    (provided xs ys).map Prod.snd = ys.filterMap id := by
  induction xs generalizing ys with
  | nil => rw [List.length_eq_zero_iff.mp h]; rfl
  | cons x xs ih =>
    obtain ⟨y, ys, rfl⟩ := List.exists_cons_of_length_eq_add_one h
    have hrest := ih (Nat.succ.inj h)
    cases y <;> simpa [provided] using hrest

def Leaf.Saves (react : Leaf) : Payload → Prop
  | .marker => ∃ m, (react m).ending = .suspend none ∨ (react m).ending = .finish .running
  | .value v => ∃ m, (react m).ending = .suspend (some v)
  | _ => False

def Node.Saves (n : Node) (p : Payload) : Prop :=
  match n.behavior, p with
  | .sequence, .index i | .selector, .index i => i < n.children.length
  | .switch, .step phase => phase / 2 < n.children.length
  | .ifElse, .step position => position < 3
  | .forEach, .cursor _ i | .loop _, .cursor _ i => i < n.children.length
  | .parallel, .branches saved | .race, .branches saved => saved.length = n.children.length
  | .watchdog, .guarded _ | .timeout _, .deadline .. | .repeated .., .repeated .. | .wait _, .wakeAt _ => True
  | .invert, .marker | .always _, .marker | .once, .marker => True
  | .leaf react, p => Leaf.Saves react p
  | _, _ => False

namespace Tree

def awaited (t : Tree) (n : Node) (p : Payload) : Option NodeId :=
  match n.behavior, p with
  | .sequence, .index i | .selector, .index i => n.children[i]?
  | .switch, .step phase => n.children[phase / 2]?.bind fun case => (t.pair case)[phase % 2]?
  | .ifElse, .step position => n.children[position]?
  | .forEach, .cursor _ i | .loop _, .cursor _ i => n.children[i]?
  | .repeated .., .repeated _ true => n.children[0]?
  | .invert, .marker | .always _, .marker | .once, .marker => n.children[0]?
  | _, _ => none

/-- The children whose stacks a payload holds, each with its stack. -/
def parked (n : Node) (p : Payload) : List (NodeId × Stack) :=
  match n.behavior, p with
  | .parallel, .branches saved | .race, .branches saved =>
    provided n.children saved
  | .watchdog, .guarded saved => (n.children[1]?.map (·, saved)).toList
  | .timeout _, .deadline _ saved => (n.children[0]?.map (·, saved)).toList
  | _, _ => []

def Idle (t : Tree) (temps : Temps) (id : NodeId) : Prop := ∀ x, t.Region id x → temps[x]? = none

/-- The frames below `x`, down to `id`: each waits for the one above it, and its other children are idle. -/
inductive Path (t : Tree) (temps : Temps) (id : NodeId) : NodeId → List NodeId → Prop where
  | here : Path t temps id id []
  | above {x y : NodeId} {n : Node} {p : Payload} {below : List NodeId} :
      Path t temps id y below → t.get? y = some n → temps[y]? = some p → n.Saves p → t.awaited n p = some x →
      (∀ c ∈ t.started n, c ≠ x → t.Idle temps c) → Path t temps id x (y :: below)

/-- The frames of a suspended node and of what is suspended above it: a path to a node that waits for no child. The
stacks that this one holds are such frames of its children; its other children are idle. -/
inductive Suspended (t : Tree) (temps : Temps) : NodeId → List NodeId → Prop where
  | mk {id x : NodeId} {n : Node} {p : Payload} {below : List NodeId} :
      Path t temps id x below → t.get? x = some n → temps[x]? = some p → n.Saves p → t.awaited n p = none →
      (∀ c s, (c, s) ∈ parked n p → Suspended t temps c s.frames) →
      (∀ c ∈ t.started n, (∀ s, (c, s) ∉ parked n p) → t.Idle temps c) → Suspended t temps id (x :: below)

/-- A node with a payload that can go on: the child it waits for, if any, has ended. -/
structure Ready (t : Tree) (temps : Temps) (x : NodeId) (n : Node) (p : Payload) : Prop where
  get : t.get? x = some n
  payload : temps[x]? = some p
  saves : n.Saves p
  parked : ∀ c s, (c, s) ∈ parked n p → t.Suspended temps c s.frames
  idle : ∀ c ∈ t.started n, (∀ s, (c, s) ∉ Tree.parked n p) → t.Idle temps c

variable {t : Tree} {temps temps' : Temps} {id x y c : NodeId} {n : Node} {p : Payload} {s : Stack}
  {frames below below' : List NodeId}

section Payloads

theorem parked_of_awaited (h : t.awaited n p = some c) : parked n p = [] := by
  unfold awaited at h
  split at h <;> simp_all [parked]

theorem nested_of_awaited (h : t.awaited n p = some c) : p.nested = [] := by
  unfold awaited at h
  split at h <;> simp_all [Payload.nested]

theorem mem_started_of_awaited (hs : n.Saves p) (h : t.awaited n p = some c) : c ∈ t.started n := by
  unfold awaited at h
  split at h
  case h_3 phase hb =>
    obtain ⟨case, hcase, hc⟩ := Option.bind_eq_some_iff.mp h
    rw [started, hb]
    exact List.mem_flatMap.mpr ⟨case, List.mem_of_getElem? hcase, List.mem_of_getElem? hc⟩
  case h_4 position hb =>
    have hlt : position < 3 := by simpa [Node.Saves, hb] using hs
    rw [started, hb]
    exact List.mem_of_getElem? ((List.getElem?_take_of_lt hlt).trans h)
  case h_11 => cases h
  all_goals
    rename_i hb
    rw [started, hb]
    first
      | exact List.mem_of_getElem? h
      | exact List.mem_of_getElem? ((List.getElem?_take_of_lt Nat.one_pos).trans h)

theorem mem_started_of_parked (h : (c, s) ∈ parked n p) : c ∈ t.started n := by
  unfold parked at h
  split at h
  case h_5 => cases h
  case h_3 hb =>
    obtain ⟨hc, rfl⟩ : _ = some c ∧ _ = s := by simpa using h
    rw [started, hb]
    exact List.mem_of_getElem? ((List.getElem?_take_of_lt (by decide)).trans hc)
  case h_4 hb =>
    obtain ⟨hc, rfl⟩ : _ = some c ∧ _ = s := by simpa using h
    rw [started, hb]
    exact List.mem_of_getElem? ((List.getElem?_take_of_lt Nat.one_pos).trans hc)
  all_goals
    rename_i hb
    obtain ⟨⟨c', s'⟩, hz, he⟩ := List.mem_filterMap.mp h
    obtain ⟨_, _, he⟩ := Option.map_eq_some_iff.mp he
    obtain ⟨rfl, rfl⟩ := Prod.mk.inj he
    rw [started, hb]
    exact (List.of_mem_zip hz).1

variable (ht : t.Orderly)
include ht

theorem nested_eq (hn : t.get? id = some n) (hs : n.Saves p) : p.nested = (parked n p).map Prod.snd := by
  have hsup := ht.supplied hn
  unfold Node.Saves at hs
  split at hs
  all_goals
    rename_i hb
    simp only [hb, Behavior.needs] at hsup
    simp only [Payload.nested, parked, hb, List.map_nil]
  case h_7 => exact (map_snd_provided hs).symm
  case h_8 => exact (map_snd_provided hs).symm
  case h_9 => simp [List.getElem?_eq_getElem (show 1 < n.children.length by omega)]
  case h_10 => simp [List.getElem?_eq_getElem (show 0 < n.children.length by omega)]
  case h_16 p _ _ _ => cases p <;> simp_all [Leaf.Saves]
  case h_17 => exact hs.elim

end Payloads

theorem Idle.of_region (h : t.Idle temps id) (hr : t.Region id x) : t.Idle temps x :=
  fun _ hx => h _ (hr.trans hx)

theorem Idle.congr (h : t.Idle temps id) (he : ∀ z, t.Region id z → temps'[z]? = temps[z]?) : t.Idle temps' id :=
  fun z hz => (he z hz).trans (h z hz)

namespace Path

theorem starts (hs : n.Saves p) (hn : t.get? y = some n) (ha : t.awaited n p = some x) : t.Starts y x :=
  ⟨n, hn, mem_started_of_awaited hs ha⟩

theorem region (h : t.Path temps id x below) : t.Region id x := by
  induction h with
  | here => exact .refl _
  | above _ hn _ hs ha _ ih => exact ih.tail (starts hs hn ha)

/-- A node that another waits for is below the one that all wait for. -/
theorem below_of_cons (h : t.Path temps id x (y :: below)) : t.Below id x := by
  cases h with
  | above h hn _ hs ha _ => exact h.region.below (starts hs hn ha)

/-- Frames below a node are above it in the tree, and wait for a child. -/
theorem mem_below (h : t.Path temps id x below) (hy : y ∈ below) :
    t.Region id y ∧ (∃ c, t.Starts y c ∧ t.Region c x) ∧
      ∃ n p c, t.get? y = some n ∧ temps[y]? = some p ∧ n.Saves p ∧ t.awaited n p = some c := by
  induction h with
  | here => simp at hy
  | above h hn hp hs ha _ ih =>
    have hst := starts hs hn ha
    rcases List.mem_cons.mp hy with rfl | hy
    · exact ⟨h.region, ⟨_, hst, .refl _⟩, _, _, _, hn, hp, hs, ha⟩
    · obtain ⟨hr, ⟨c, hc, hcx⟩, hw⟩ := ih hy
      exact ⟨hr, ⟨c, hc, hcx.tail hst⟩, hw⟩

theorem trans (h : t.Path temps id x below) (h' : t.Path temps x y below') :
    t.Path temps id y (below' ++ below) := by
  induction h' with
  | here => exact h
  | above _ hn hp hs ha hi ih => exact .above ih hn hp hs ha hi

/-- What is not above `x` is either on the path or idle. -/
theorem payload (h : t.Path temps id x below) {z : NodeId} (hz : t.Region id z) (hp : temps[z]? ≠ none) :
    z ∈ below ∨ t.Region x z := by
  induction h with
  | here => exact .inr hz
  | @above x y n p below h hn _ hs ha hi ih =>
    rcases ih with hz | hz
    · exact .inl (List.mem_cons_of_mem _ hz)
    · rcases hz.eq_or_below with rfl | ⟨c, ⟨m, hm, hc⟩, hcz⟩
      · exact .inl List.mem_cons_self
      · obtain rfl : n = m := Option.some.inj (hn.symm.trans hm)
        by_cases hcx : c = x
        · exact .inr (hcx ▸ hcz)
        · exact absurd (hi c hc hcx z hcz) hp

theorem last (h : t.Path temps id x below) : ∃ above, x :: below = above ++ [id] := by
  induction h with
  | here => exact ⟨[], rfl⟩
  | above _ _ _ _ _ _ ih =>
    obtain ⟨above, ih⟩ := ih
    exact ⟨_ :: above, by rw [ih]; rfl⟩

/-- The node that all frames of a path wait for is on top, or waits for a child that the rest is a path from. -/
theorem bottom (h : t.Path temps id x below) (hn : t.get? id = some n) (hp : temps[id]? = some p) :
    x = id ∧ below = [] ∨
      ∃ c above, below = above ++ [id] ∧ t.awaited n p = some c ∧ n.Saves p ∧ t.Path temps c x above ∧
        ∀ k ∈ t.started n, k ≠ c → t.Idle temps k := by
  induction h with
  | here => exact .inl ⟨rfl, rfl⟩
  | @above x y m q below h hm hq hs ha hi ih =>
    rcases ih with ⟨rfl, rfl⟩ | ⟨c, above, rfl, hc, hsaves, hpath, hidle⟩
    · obtain rfl : n = m := Option.some.inj (hn.symm.trans hm)
      obtain rfl : p = q := Option.some.inj (hp.symm.trans hq)
      exact .inr ⟨x, [], rfl, ha, hs, .here, hi⟩
    · exact .inr ⟨c, y :: above, rfl, hc, hsaves, .above hpath hm hq hs ha hi, hidle⟩

variable (ht : t.Orderly)
include ht

theorem not_mem_below (h : t.Path temps id x below) (hr : t.Region x y) : y ∉ below := by
  intro hy
  obtain ⟨_, ⟨c, hc, hcx⟩, _⟩ := h.mem_below hy
  exact ht.not_region_of_starts hc (hcx.trans hr)

theorem nodup (h : t.Path temps id x below) : (x :: below).Nodup := by
  induction h with
  | here => simp
  | above h hn hp hs ha hi ih =>
    refine List.nodup_cons.mpr ⟨?_, ih⟩
    exact (above h hn hp hs ha hi).not_mem_below ht (.refl _)

theorem congr (h : t.Path temps id x below)
    (he : ∀ z, t.Region id z → ¬ t.Region x z → temps'[z]? = temps[z]?) : t.Path temps' id x below := by
  induction h with
  | here => exact .here
  | @above x y n p below h hn hp hs ha hi ih =>
    have hst := starts hs hn ha
    refine .above (ih ?_) hn ?_ hs ha ?_
    · intro z hz hyz
      exact he z hz fun hxz => hyz (.of_starts hst hxz)
    · rw [he y h.region (ht.not_region_of_starts hst)]
      exact hp
    · intro c hc hcx
      refine (hi c hc hcx).congr ?_
      intro z hcz
      have hyc := starts_of_mem hn hc
      exact he z (h.region.trans (.of_starts hyc hcz)) (ht.region_disjoint hyc hst hcx hcz)

end Path

/-- Where a payload can be in a region that is suspended: on the path, at its end, or below a child that is parked
there. -/
theorem payload_cases (h : t.Path temps id x below) (hn : t.get? x = some n)
    (hi : ∀ c ∈ t.started n, (∀ s, (c, s) ∉ parked n p) → t.Idle temps c) {z : NodeId} (hz : t.Region id z)
    (hp : temps[z]? ≠ none) : z ∈ below ∨ z = x ∨ ∃ c s, (c, s) ∈ parked n p ∧ t.Region c z := by
  rcases h.payload hz hp with hz | hz
  · exact .inl hz
  · rcases hz.eq_or_below with rfl | ⟨c, ⟨m, hm, hc⟩, hcz⟩
    · exact .inr (.inl rfl)
    · obtain rfl : n = m := Option.some.inj (hn.symm.trans hm)
      by_cases hs : ∃ s, (c, s) ∈ parked n p
      · obtain ⟨s, hs⟩ := hs
        exact .inr (.inr ⟨c, s, hs, hcz⟩)
      · exact absurd (hi c hc (fun s h => hs ⟨s, h⟩) z hcz) hp

theorem starts_of_parked (hn : t.get? x = some n) (h : (c, s) ∈ parked n p) : t.Starts x c :=
  starts_of_mem hn (mem_started_of_parked h)

namespace Suspended

theorem cases (h : t.Suspended temps id frames) :
    ∃ x n p below, frames = x :: below ∧ t.Path temps id x below ∧ t.awaited n p = none ∧
      t.Ready temps x n p := by
  cases h with
  | mk hpath hn hp hs ha hpark hi => exact ⟨_, _, _, _, rfl, hpath, ha, hn, hp, hs, hpark, hi⟩

/-- A suspended node is on top and can go on at once, or its frame is below those of the child that it waits for. -/
theorem bottom (h : t.Suspended temps id frames) (hn : t.get? id = some n) (hp : temps[id]? = some p) :
    frames = [id] ∧ t.awaited n p = none ∧ t.Ready temps id n p ∨
      ∃ c above, frames = above ++ [id] ∧ t.awaited n p = some c ∧ n.Saves p ∧ t.Suspended temps c above ∧
        ∀ k ∈ t.started n, k ≠ c → t.Idle temps k := by
  cases h with
  | @mk _ x m q below hpath hm hq hs ha hpark hi =>
    rcases hpath.bottom hn hp with ⟨rfl, rfl⟩ | ⟨c, above, rfl, hc, hsaves, hpath', hidle⟩
    · obtain rfl : n = m := Option.some.inj (hn.symm.trans hm)
      obtain rfl : p = q := Option.some.inj (hp.symm.trans hq)
      exact .inl ⟨rfl, ha, hn, hp, hs, hpark, hi⟩
    · exact .inr ⟨c, x :: above, rfl, hc, hsaves, .mk hpath' hm hq hs ha hpark hi, hidle⟩

theorem last (h : t.Suspended temps id frames) : ∃ above, frames = above ++ [id] := by
  obtain ⟨x, n, p, below, rfl, hpath, _⟩ := h.cases
  exact hpath.last

theorem mem_frames (h : t.Suspended temps id frames) (hy : y ∈ frames) : t.Region id y ∧ temps[y]? ≠ none := by
  obtain ⟨x, n, p, below, rfl, hpath, _, hr⟩ := h.cases
  rcases List.mem_cons.mp hy with rfl | hy
  · exact ⟨hpath.region, by simp [hr.payload]⟩
  · obtain ⟨hr, _, _, _, _, _, hp, _⟩ := hpath.mem_below hy
    exact ⟨hr, by simp [hp]⟩

theorem ne_nil (h : t.Suspended temps id frames) : frames ≠ [] := by
  obtain ⟨above, rfl⟩ := h.last
  simp

/-- A suspended child continues the path of frames below it. -/
theorem append (h : t.Path temps id x below) (h' : t.Suspended temps x frames) :
    t.Suspended temps id (frames ++ below) := by
  cases h' with
  | mk hpath hn hp hs ha hpark hi => exact .mk (h.trans hpath) hn hp hs ha hpark hi

/-- What is suspended in a region is led to by its frames. -/
theorem leads (h : t.Suspended temps id frames) (hy : t.Region id y) (hp : temps[y]? ≠ none) (ht : t.Orderly) :
    temps.Leads frames y := by
  induction h with
  | mk hpath hn hx hs _ _ hi ih =>
    rcases payload_cases hpath hn hi hy hp with hy | rfl | ⟨c, s, hs', hcy⟩
    · exact .frame (List.mem_cons_of_mem _ hy)
    · exact .frame List.mem_cons_self
    · refine (ih c s hs' hcy).mono ?_ fun _ _ _ h => h
      intro z hz
      refine .saved (.frame List.mem_cons_self) hx ?_
      rw [Payload.nestedFrames, nested_eq ht hn hs]
      exact List.mem_flatMap.mpr ⟨s, List.mem_map.mpr ⟨_, hs', rfl⟩, hz⟩

/-- The stacks in a payload are frames of regions strictly below. -/
theorem nested (h : t.Suspended temps id frames) (ht : t.Orderly) (hy : t.Region id y) (hp : temps[y]? = some p)
    (hs : s ∈ p.nested) : ∃ c, t.Starts y c ∧ t.Suspended temps c s.frames := by
  induction h with
  | @mk id x n q below hpath hn hx hq _ hpark hi ih =>
    rcases payload_cases hpath hn hi hy (by simp [hp]) with hy | rfl | ⟨c, s', hs', hcy⟩
    · obtain ⟨_, _, m, q', c, _, hq', _, ha⟩ := hpath.mem_below hy
      obtain rfl : p = q' := Option.some.inj (hp.symm.trans hq')
      rw [nested_of_awaited ha] at hs
      cases hs
    · obtain rfl : p = q := Option.some.inj (hp.symm.trans hx)
      rw [nested_eq ht hn hq] at hs
      obtain ⟨⟨c, s'⟩, hs', rfl⟩ := List.mem_map.mp hs
      exact ⟨c, starts_of_parked hn hs', hpark c s' hs'⟩
    · exact ih c s' hs' hcy

theorem nodup (h : t.Suspended temps id frames) (ht : t.Orderly) : frames.Nodup := by
  obtain ⟨x, n, p, below, rfl, hpath, _⟩ := h.cases
  exact hpath.nodup ht

/-- Frames of a region lead to what is suspended in it, and to nothing else. -/
theorem leads_iff (h : t.Suspended temps id frames) (ht : t.Orderly) :
    temps.Leads frames y ↔ t.Region id y ∧ temps[y]? ≠ none := by
  refine ⟨?_, fun ⟨hy, hp⟩ => h.leads hy hp ht⟩
  intro hl
  refine hl.closed (F := fun y => t.Region id y ∧ temps[y]? ≠ none) (fun _ hy => h.mem_frames hy) ?_
  rintro y p ⟨hy, _⟩ hp z hz
  obtain ⟨s, hs, hz⟩ := List.mem_flatMap.mp hz
  obtain ⟨c, hc, hsus⟩ := h.nested ht hy hp hs
  obtain ⟨hcz, hp⟩ := hsus.mem_frames hz
  exact ⟨hy.trans (.of_starts hc hcz), hp⟩

theorem congr (h : t.Suspended temps id frames) (ht : t.Orderly)
    (he : ∀ z, t.Region id z → temps'[z]? = temps[z]?) : t.Suspended temps' id frames := by
  induction h with
  | mk hpath hn hp hs ha _ hi ih =>
    have hx := hpath.region
    refine .mk (hpath.congr ht fun z hz _ => he z hz) hn ((he _ hx).trans hp) hs ha ?_ ?_
    · intro c s hc
      exact ih c s hc fun z hz => he z (hx.trans (.of_starts (starts_of_parked hn hc) hz))
    · intro c hc hnot
      exact (hi c hc hnot).congr fun z hz => he z (hx.trans (.of_starts (starts_of_mem hn hc) hz))

/-- Clearing the frames of a region leaves it idle, and other regions as they are. -/
theorem clear (h : t.Suspended temps id s.frames) (ht : t.Orderly) :
    t.Idle (s.clear temps) id ∧ ∀ z, ¬ t.Region id z → (s.clear temps)[z]? = temps[z]? := by
  refine ⟨?_, ?_⟩
  · intro z hz
    by_cases hp : temps[z]? = none
    · rcases hc : (s.clear temps)[z]? with _ | q
      · rfl
      · rw [Stack.getElem?_of_clear hc] at hp
        cases hp
    · exact Stack.getElem?_clear_of_leads (h.leads hz hp ht)
  · intro z hz
    exact Stack.getElem?_clear_of_not_leads fun hl => hz ((h.leads_iff ht).mp hl).1

end Suspended

/-- A place in a region where a frame may be: among the frames themselves, or in a stack in a payload. -/
def Spot (t : Tree) (temps : Temps) (id : NodeId) (frames : List NodeId) (z : NodeId) : Option (NodeId × Nat) → Prop
  | none => z ∈ frames
  | some (y, k) => t.Region id y ∧ ∃ p s, temps[y]? = some p ∧ p.nested[k]? = some s ∧ z ∈ s.frames

/-- A frame of a suspended region is on the path, in a stack at its end, or in the region of a child parked there. -/
theorem Spot.cases {z : NodeId} {spot : Option (NodeId × Nat)} (ht : t.Orderly)
    (hpath : t.Path temps id x below) (hn : t.get? x = some n) (hx : temps[x]? = some p) (hs : n.Saves p)
    (hpark : ∀ c s, (c, s) ∈ parked n p → t.Suspended temps c s.frames)
    (hi : ∀ c ∈ t.started n, (∀ s, (c, s) ∉ parked n p) → t.Idle temps c)
    (h : t.Spot temps id (x :: below) z spot) :
    (spot = none ∧ t.Region z x) ∨
      ∃ c s, (c, s) ∈ parked n p ∧ t.Region c z ∧
        ((∃ k, spot = some (x, k) ∧ (parked n p)[k]? = some (c, s) ∧ z ∈ s.frames) ∨
          (spot ≠ none ∧ (∀ k, spot ≠ some (x, k)) ∧ t.Spot temps c s.frames z spot)) := by
  cases spot with
  | none =>
    refine .inl ⟨rfl, ?_⟩
    rcases List.mem_cons.mp h with rfl | h
    · exact .refl _
    · obtain ⟨_, ⟨c, hc, hcx⟩, _⟩ := hpath.mem_below h
      exact .of_starts hc hcx
  | some yk =>
    obtain ⟨y, k⟩ := yk
    obtain ⟨hy, q, s, hq, hs', hz⟩ := h
    refine .inr ?_
    rcases payload_cases hpath hn hi hy (by simp [hq]) with hy | rfl | ⟨c, s', hs'', hcy⟩
    · obtain ⟨_, _, m, q', c, _, hq', _, ha⟩ := hpath.mem_below hy
      obtain rfl : q = q' := Option.some.inj (hq.symm.trans hq')
      simp [nested_of_awaited ha] at hs'
    · obtain rfl : p = q := Option.some.inj (hx.symm.trans hq)
      rw [nested_eq ht hn hs, List.getElem?_map] at hs'
      obtain ⟨⟨c, s'⟩, hk, rfl⟩ := Option.map_eq_some_iff.mp hs'
      have hmem := List.mem_of_getElem? hk
      exact ⟨c, s', hmem, ((hpark c s' hmem).mem_frames hz).1, .inl ⟨k, rfl, hk, hz⟩⟩
    · have hsus := hpark c s' hs''
      obtain ⟨d, hd, hdsus⟩ := hsus.nested ht hcy hq (List.mem_of_getElem? hs')
      have hyz : t.Region y z := .of_starts hd (hdsus.mem_frames hz).1
      refine ⟨c, s', hs'', hcy.trans hyz, .inr ⟨by simp, ?_, hcy, q, s, hq, hs', hz⟩⟩
      rintro k' ⟨⟩
      exact ht.not_region_of_starts (starts_of_parked hn hs'') hcy

/-- Every suspended node of a region has its frame somewhere. -/
theorem Suspended.exists_spot (h : t.Suspended temps id frames) (ht : t.Orderly) (hy : t.Region id y)
    (hp : temps[y]? ≠ none) : ∃ spot, t.Spot temps id frames y spot := by
  cases h.leads hy hp ht with
  | frame hm => exact ⟨none, hm⟩
  | @saved _ x p hl hx hm =>
    obtain ⟨s, hs, hm⟩ := List.mem_flatMap.mp hm
    obtain ⟨k, hk⟩ := List.getElem?_of_mem hs
    exact ⟨some (x, k), ((h.leads_iff ht).mp hl).1, p, s, hx, hk, hm⟩

end Tree

end BehaviorTree
