import BehaviorTree.Proofs.Engine.Soundness

/-!
A node that is under way. Its frame is on top, and each of its children is idle or has left frames, which are above
or in its hands. Running a child changes what that child has left, and nothing else.
-/

namespace BehaviorTree
set_option autoImplicit false

open TickM

variable {σ : Type}

theorem Temps.getElem?_insertIfNew (temps : Temps) (id z : NodeId) (p : Payload) :
    (temps.insertIfNew id p)[z]? = if id = z then some (temps[id]?.getD p) else temps[z]? := by
  rw [Std.ExtTreeMap.getElem?_insertIfNew]
  by_cases hz : id = z
  · subst hz
    by_cases hm : id ∈ temps <;> simp [hm]
  · simp [hz]

def Tree.Leaves (t : Tree) (temps : Temps) (id : NodeId) : Option Stack → Prop
  | none => t.Idle temps id
  | some s => t.Suspended temps id s.frames

/-- A node that is under way: the frames below its own, its payload, and what had been seen before it was called. -/
structure Stance where
  node : Node
  base : List NodeId
  own : Option Payload
  seen : Watch

def Stance.parked (s : Stance) (k : NodeId) : Option Stack := s.own.bind fun p => (Tree.parked s.node p).lookup k

/-- What was seen while a node is under way, with whether a child of it is known to be suspended. -/
def Stance.watch (s : Stance) (marked : Bool) : Watch := { s.seen with active := (s.node.id, marked) :: s.seen.active }

/-- A node is under way, with frames of its children above its own. Once an interruption is asked for, only the
children that are still to be run are accounted for. -/
structure Tick.Stands (R : Rules σ) (c : Activation) (s : Stance) (above : List NodeId) (left : NodeId → Option Stack)
    (marked : Bool) (todo : NodeId → Prop) (t : Tick σ) : Prop where
  runs : t.Runs R c
  fits : t.env.Fits c.tree
  get : c.tree.get? s.node.id = some s.node
  apart : ∀ x ∈ s.base, ¬ c.tree.Region s.node.id x
  stack : t.env.stack.frames = above ++ s.node.id :: s.base
  own : t.env.temps[s.node.id]? = s.own
  inward : ∀ p, s.own = some p → ∀ y ∈ p.nestedFrames, c.tree.Below s.node.id y
  beside : ¬ t.Flagged c → c.tree.Beside t.env s.node.id s.base
  watch : ¬ t.Flagged c → t.watch c = s.watch marked
  kids : ∀ k ∈ c.tree.started s.node, (t.Flagged c → todo k) → c.tree.Leaves t.env.temps k (left k)

abbrev Tick.Alone (R : Rules σ) (c : Activation) (s : Stance) (t : Tick σ) : Prop :=
  t.Stands R c s [] (fun _ => none) false fun _ => True

/-- How the behavior of a node ends: with its children idle, or suspended once the node has a payload. -/
structure Tick.Settles (c : Activation) (s : Stance) (status : Status) (t : Tick σ) : Prop where
  watch : ¬ t.Flagged c → ∃ marked, t.watch c = s.watch marked
  ended : ¬ t.Flagged c → status ≠ .running →
    t.env.stack.frames = s.node.id :: s.base ∧ ∀ k ∈ c.tree.started s.node, c.tree.Idle t.env.temps k
  suspended : ¬ t.Flagged c → status = .running → ∃ above, t.env.stack.frames = above ++ s.node.id :: s.base ∧
    c.tree.Suspended (t.env.temps.insertIfNew s.node.id .marker) s.node.id (above ++ [s.node.id])

/-- How the behavior of a node fails. If it was afresh, the frames lead to all that is left, unless a child has lost
something or children are lost now. -/
structure Tick.Falls (c : Activation) (s : Stance) (err : RunError) (t : Tick σ) : Prop where
  blames : c.tree.Blames err
  litter : s.own = none → ¬ t.Flagged c → ∃ marked lost,
    t.watch c = { s.watch marked with spilled := s.seen.spilled || lost } ∧
      t.Litter c s.node.id s.base (lost || (marked && s.node.behavior.runsAbreast))

/-- How a run of a child ends for the node: the child has ended and is idle, or its frames are above. -/
structure Tick.Returns (R : Rules σ) (c : Activation) (s : Stance) (left : NodeId → Option Stack) (marked : Bool)
    (todo : NodeId → Prop) (k : NodeId) (status : Status) (t : Tick σ) : Prop where
  ended : status ≠ .running →
    t.Stands R c s [] (Function.update left k none) marked todo ∧ t.env.lastStatus = status ∧ ¬ t.Flagged c
  running : status = .running → ∃ above,
    t.Stands R c s above (Function.update left k (some ⟨above⟩)) true fun x => todo x ∧ x ≠ k

/-- What is seen of a node that is afresh tells whether it would lose children by failing. -/
def Stance.Tells (s : Stance) (t : Tree) (left : NodeId → Option Stack) (marked : Bool) : Prop :=
  s.own = none → ((marked && s.node.behavior.runsAbreast) = true ↔ ∃ k ∈ t.started s.node, left k ≠ none)

variable {R : Rules σ} {c : Activation} {t t₁ u : Tick σ} {err : RunError} {e : Engine σ} {s : Stance} {p : Payload}
  {b k id x y : NodeId}
  {above base frames : List NodeId} {left left' : NodeId → Option Stack} {marked : Bool} {todo todo' : NodeId → Prop}
  {status : Status}

namespace Tree

variable {t : Tree} {temps temps' : Temps} {o : Option Stack}

theorem Leaves.congr (h : t.Leaves temps id o) (ht : t.Orderly)
    (he : ∀ z, t.Region id z → temps'[z]? = temps[z]?) : t.Leaves temps' id o := by
  cases o with
  | none => exact Idle.congr h he
  | some s => exact Suspended.congr h ht he

theorem Leaves.inward (h : t.Leaves temps id o) (ht : t.Orderly) : t.Inward temps id := by
  cases o with
  | none => exact Idle.inward h
  | some s => exact Suspended.inward h ht

theorem Suspended.not_nested (h : t.Suspended temps id frames) (ht : t.Orderly) (hx : t.Region id x)
    (hp : temps[x]? = some p) : id ∉ p.nestedFrames := by
  intro hm
  obtain ⟨s, hs, hm⟩ := List.mem_flatMap.mp hm
  obtain ⟨d, hd, hsus⟩ := h.nested ht hx hp hs
  exact ht.not_region_of_starts hd ((hsus.mem_frames hm).1.trans hx)

theorem Suspended.payload (h : t.Suspended temps id frames) : temps[id]? ≠ none := by
  obtain ⟨above, rfl⟩ := h.last
  exact (h.mem_frames (List.mem_append_right _ List.mem_cons_self)).2

/-- What lies in the region of a node besides the node itself lies below one of the nodes that it starts. -/
theorem Region.cases_started {n : Node} (hr : t.Region id x) (hn : t.get? id = some n) :
    x = id ∨ ∃ d ∈ t.started n, t.Region d x := by
  rcases hr.eq_or_below with rfl | ⟨d, ⟨m, hm, hd⟩, hdx⟩
  · exact .inl rfl
  · obtain rfl : n = m := Option.some.inj (hn.symm.trans hm)
    exact .inr ⟨d, hd, hdx⟩

end Tree

/-- Guests say nothing of the calls and returns of nodes. -/
theorem Watch.foldl_quiet {tree : Tree} {acts : List Activity} {w : Watch} (h : ∀ a ∈ acts, a.Quiet false) :
    acts.foldl (Watch.step tree) w = w := by
  induction acts generalizing w with
  | nil => rfl
  | cons a acts ih =>
    rw [List.foldl_cons, ih fun a ha => h a (List.mem_cons_of_mem _ ha)]
    have ha := h a List.mem_cons_self
    cases a <;> simp_all [Activity.Quiet, Watch.step]

namespace Tick

theorem Calm.watch (h : t.Calm R c u) (hr : t.Runs R c) : u.watch c = t.watch c := by
  obtain ⟨i, hi, he, _⟩ := hr.here
  obtain ⟨acts, ha, hi'⟩ := h.advances.each c.owner
  obtain ⟨_, _, _, _, hcarries⟩ := hi' i hi
  rw [Tick.watch, World.watch_of_acts ha, Watch.foldl_quiet (hcarries he).quiet, Tick.watch]

theorem Calm.flagged (h : t.Calm R c u) (hr : t.Runs R c) (hf : t.Flagged c) : u.Flagged c :=
  hf.advance hr h.advances (by simp)

namespace Ran

theorem exists_above (h : t.Ran R c id base status u) : ∃ above, u.env.stack.frames = above ++ base := by
  obtain ⟨_, hs⟩ := h.stays
  obtain ⟨above, hframes, _⟩ := hs.holds.frames
  exact ⟨above, hframes⟩

end Ran

namespace Stands

variable (h : t.Stands R c s above left marked todo)
include h

theorem orderly : c.tree.Orderly := h.runs.orderly

theorem starts (hk : k ∈ c.tree.started s.node) : c.tree.Starts s.node.id k := ⟨s.node, h.get, hk⟩

theorem mono (ht : ∀ x, todo' x → todo x) : t.Stands R c s above left marked todo' :=
  { h with kids := fun k hk hf => h.kids k hk fun hfl => ht k (hf hfl) }

/-- Once an interruption is asked for, it does not matter what is known of a child. -/
theorem congr (hl : ∀ k ∈ c.tree.started s.node, left' k = left k) : t.Stands R c s above left' marked todo :=
  { h with kids := fun k hk hf => by rw [hl k hk]; exact h.kids k hk hf }

theorem calm (hc : t.Calm R c u) : u.Stands R c s above left marked todo := by
  have hfl : ¬ u.Flagged c → ¬ t.Flagged c := fun hu ht => hu (hc.flagged h.runs ht)
  refine ⟨hc.runs, ?_, h.get, h.apart, by rw [hc.stack, h.stack], by rw [hc.temps, h.own], h.inward, ?_, ?_, ?_⟩
  · rw [Env.Fits, hc.temps]
    exact h.fits
  · exact fun hu => (h.beside (hfl hu)).congr (fun _ => by rw [hc.detached]) fun _ _ => by rw [hc.temps]
  · intro hu
    rw [hc.watch h.runs, h.watch (hfl hu)]
  · intro k hk hf
    rw [hc.temps]
    exact h.kids k hk fun ht => hf (hc.flagged h.runs ht)

theorem settles (ha : above = []) (hl : ∀ k ∈ c.tree.started s.node, left k = none) (hs : status ≠ .running) :
    t.Settles c s status := by
  subst ha
  refine ⟨fun hf => ⟨marked, h.watch hf⟩, ?_, fun _ hr => absurd hr hs⟩
  intro hf _
  refine ⟨h.stack, fun k hk => ?_⟩
  have hkid := h.kids k hk fun hfl => absurd hfl hf
  rw [hl k hk] at hkid
  exact hkid

theorem kid_setPayload (hk : k ∈ c.tree.started s.node) (hf : ¬ t.Flagged c) (p : Payload) :
    c.tree.Leaves (t.env.setPayload s.node.id p).temps k (left k) := by
  refine (h.kids k hk fun hfl => absurd hfl hf).congr h.orderly fun z hz => ?_
  have hne : s.node.id ≠ z := by
    rintro rfl
    exact h.orderly.not_region_of_starts (h.starts hk) hz
  simp [Env.setPayload, Std.ExtTreeMap.getElem?_insert, hne]

theorem settles_suspended {frames : List NodeId} (hs : frames = above ++ [s.node.id])
    (hsus : ¬ t.Flagged c → c.tree.Suspended (t.env.setPayload s.node.id p).temps s.node.id frames) :
    ({ t with env := t.env.setPayload s.node.id p } : Tick σ).Settles c s .running := by
  subst hs
  refine ⟨fun hf => ⟨marked, h.watch hf⟩, fun _ hne => absurd rfl hne, fun hf _ => ⟨above, h.stack, ?_⟩⟩
  refine (hsus hf).congr h.orderly fun z _ => ?_
  simp [Env.setPayload, Std.ExtTreeMap.getElem?_insertIfNew]

/-- A node suspends with its frame on top of a payload that names the child above it. -/
theorem settles_awaiting (hk : k ∈ c.tree.started s.node) (hp : s.node.Saves p)
    (haw : c.tree.awaited s.node p = some k) (hl : left k = some ⟨above⟩)
    (hl' : ∀ k' ∈ c.tree.started s.node, k' ≠ k → left k' = none) :
    ({ t with env := t.env.setPayload s.node.id p } : Tick σ).Settles c s .running := by
  refine h.settles_suspended rfl fun hf => ?_
  have hsus := h.kid_setPayload hk hf p
  rw [hl] at hsus
  refine Tree.Suspended.append (.above .here h.get (by simp [Env.setPayload]) hp haw ?_) hsus
  intro k' hk' hne
  have hidle := h.kid_setPayload hk' hf p
  rw [hl' k' hk' hne] at hidle
  exact hidle

/-- A node suspends with the frames of its children in its payload. -/
theorem settles_parking (ha : above = []) (hp : s.node.Saves p) (haw : c.tree.awaited s.node p = none)
    (hl : ∀ k st, (k, st) ∈ Tree.parked s.node p → left k = some st)
    (hl' : ∀ k ∈ c.tree.started s.node, (∀ st, (k, st) ∉ Tree.parked s.node p) → left k = none) :
    ({ t with env := t.env.setPayload s.node.id p } : Tick σ).Settles c s .running := by
  subst ha
  refine h.settles_suspended rfl fun hf => .mk .here h.get (by simp [Env.setPayload]) hp haw ?_ ?_
  · intro k st hk
    have hleft := h.kid_setPayload (Tree.mem_started_of_parked hk) hf p
    rw [hl k st hk] at hleft
    exact hleft
  · intro k hk hnot
    have hidle := h.kid_setPayload hk hf p
    rw [hl' k hk hnot] at hidle
    exact hidle

theorem of_kid {above' : List NodeId} {marked' : Bool} {o : Option Stack} (hk : k ∈ c.tree.started s.node)
    (hr : u.Runs R c) (hfits : u.env.Fits c.tree)
    (htemps : ∀ x, ¬ c.tree.Region k x → u.env.temps[x]? = t.env.temps[x]?)
    (hdet : ∀ l : NodeId, u.env.detached[l]? = t.env.detached[l]?) (hfl : t.Flagged c → u.Flagged c)
    (hstack : u.env.stack.frames = above' ++ s.node.id :: s.base)
    (hwatch : ¬ u.Flagged c → u.watch c = s.watch marked') (ht : ∀ x, todo' x → todo x)
    (hkid : (u.Flagged c → todo' k) → c.tree.Leaves u.env.temps k o) :
    u.Stands R c s above' (Function.update left k o) marked' todo' := by
  have horder := h.orderly
  refine ⟨hr, hfits, h.get, h.apart, hstack, ?_, h.inward, fun hu => ?_, hwatch, ?_⟩
  · rw [htemps _ (horder.not_region_of_starts (h.starts hk)), h.own]
  · exact (h.beside fun hf => hu (hfl hf)).congr hdet fun x hx => htemps x fun hr => hx (.of_starts (h.starts hk) hr)
  · intro k' hk' hf
    by_cases hkk : k' = k
    · subst hkk
      rw [Function.update_self]
      exact hkid hf
    · rw [Function.update_of_ne hkk]
      refine (h.kids k' hk' fun hfl' => ht k' (hf (hfl hfl'))).congr horder fun z hz => htemps z ?_
      exact horder.region_disjoint (h.starts hk') (h.starts hk) hkk hz

end Stands

namespace Stands

variable (h : t.Stands R c s [] left marked todo)
include h

theorem apart_kid (hk : k ∈ c.tree.started s.node) : ∀ x ∈ s.node.id :: s.base, ¬ c.tree.Region k x := by
  intro x hx hr
  rcases List.mem_cons.mp hx with rfl | hx
  · exact h.orderly.not_region_of_starts (h.starts hk) hr
  · exact h.apart x hx (.of_starts (h.starts hk) hr)

/-- What is beside a child: what is beside the node, the node itself, and its other children. -/
theorem beside_kid (hk : k ∈ c.tree.started s.node) (hf : ¬ t.Flagged c) :
    c.tree.Beside t.env k (s.node.id :: s.base) := by
  refine (h.beside hf).of_starts h.orderly (h.starts hk) (fun p hp => h.inward p (h.own.symm.trans hp)) ?_
  intro d hd _ x p hx hp y hy
  obtain ⟨m, hm, hd⟩ := hd
  obtain rfl : s.node = m := Option.some.inj (h.get.symm.trans hm)
  have hleft := h.kids d hd fun hfl => absurd hfl hf
  cases hl : left d with
  | none =>
    rw [hl] at hleft
    rw [hleft x hx] at hp
    cases hp
  | some st =>
    rw [hl] at hleft
    exact Tree.Suspended.nested_below hleft h.orderly hx hp hy

theorem forgotten_kid (hk : k ∈ c.tree.started s.node) (hl : left k = none) (hf : ¬ t.Flagged c) :
    c.tree.Forgotten t.env k := by
  have hidle := h.kids k hk fun hfl => absurd hfl hf
  rw [hl] at hidle
  refine (h.beside_kid hk hf).forgotten h.orderly hidle ?_ ?_
  · rw [h.stack]
    exact h.apart_kid hk
  · rw [h.stack]
    exact fun _ hx => hx

/-- What a child cleans up after is another child of the node. -/
theorem cleansUp (hk : k ∈ c.tree.started s.node) (hc : c.tree.CleansUp k b) :
    s.node.behavior = .watchdog ∧ s.node.children[1]? = some b ∧ s.node.children[2]? = some k ∧
      b ∈ c.tree.started s.node := by
  obtain ⟨w, n, hn, hb, hone, htwo⟩ := hc
  have hstart : ∀ {i : Nat} {x : NodeId}, i < 3 → n.children[i]? = some x → x ∈ c.tree.started n := by
    intro i x hi hx
    rw [Tree.started, hb]
    exact List.mem_of_getElem? ((List.getElem?_take_of_lt hi).trans hx)
  obtain rfl := h.orderly.starts_unique (h.starts hk) ⟨n, hn, hstart (by decide) htwo⟩
  obtain rfl : s.node = n := Option.some.inj (h.get.symm.trans hn)
  exact ⟨hb, hone, htwo, hstart (by decide) hone⟩

/-- A child was run, perhaps with its frames put back first. -/
theorem returns (hk : k ∈ c.tree.started s.node) (hw : t₁.world = t.world) (ht : t₁.env.temps = t.env.temps)
    (hd : t₁.env.detached = t.env.detached)
    (hran : t₁.Ran R c k (s.node.id :: s.base) status u) : u.Returns R c s left marked todo k status := by
  have hruns : t₁.Runs R c := ⟨hw ▸ h.runs.good, hw ▸ h.runs.here⟩
  have hfl : t.Flagged c → u.Flagged c := fun hf => hran.flagged hruns (by rw [Flagged, hw]; exact hf)
  have htemps : ∀ x, ¬ c.tree.Region k x → u.env.temps[x]? = t.env.temps[x]? := fun x hx => by
    rw [hran.temps hx, ht]
  have hdet : ∀ l : NodeId, u.env.detached[l]? = t.env.detached[l]? := fun l => by rw [hran.detached, hd]
  have hseen : ¬ u.Flagged c → u.watch c = (s.watch marked).after status := fun hf => by
    rw [hran.ends.watch hf, ← h.watch fun hf' => hf (hfl hf'), Tick.watch, Tick.watch, hw]
  refine ⟨?_, ?_⟩
  · intro hs
    obtain ⟨hstack, hidle, hlast⟩ := hran.ends.ended hs
    refine ⟨h.of_kid hk hran.runs hran.fits htemps hdet hfl hstack ?_ (fun _ hx => hx) fun _ => hidle, hlast,
      hran.not_flagged hs⟩
    intro hf
    rw [hseen hf, Watch.after, if_neg hs]
  · rintro rfl
    obtain ⟨above, hframes⟩ := hran.exists_above
    refine ⟨above, h.of_kid hk hran.runs hran.fits htemps hdet hfl hframes hseen (fun _ hx => hx.1) fun hf => ?_⟩
    have hnot : ¬ u.Flagged c := fun hf' => (hf hf').2 rfl
    obtain ⟨above', hstack, hsus⟩ := hran.ends.suspended hnot rfl
    obtain rfl : above' = above := List.append_cancel_right (hstack.symm.trans hframes)
    exact hsus

omit h

section Failing

variable {hb : ∀ x ∈ s.node.id :: s.base, ¬ c.tree.Region k x} (h : t.Stands R c s [] left marked todo)
  (hstays : (Zone.above k (s.node.id :: s.base) hb).From R t u) (hk : k ∈ c.tree.started s.node)
include h hstays

theorem own_after : u.env.temps[s.node.id]? = s.own := by
  rw [hstays.keeps.temps (hb _ List.mem_cons_self), h.own]

theorem not_flagged_before (hf : ¬ u.Flagged c) : ¬ t.Flagged c :=
  fun hf' => hf (hf'.advance h.runs hstays.advances (by simp))

include hk

theorem other_kid {d : NodeId} (hd : d ∈ c.tree.started s.node) (hne : d ≠ k) (hf : ¬ u.Flagged c) :
    c.tree.Leaves u.env.temps d (left d) := by
  refine (h.kids d hd fun hf' => absurd hf' (h.not_flagged_before hstays hf)).congr h.orderly fun z hz => ?_
  exact hstays.keeps.temps (h.orderly.region_disjoint (h.starts hd) (h.starts hk) hne hz)

/-- The child and the node have left frames only that lead to all of it, and the other children are idle. -/
theorem leads_after (hf : ¬ u.Flagged c) (hl : ∀ d ∈ c.tree.started s.node, left d = none)
    (hleads : ∀ x, c.tree.Region k x → u.env.temps[x]? ≠ none → u.env.temps.Leads above x)
    (hx : c.tree.Region s.node.id x) (hp : u.env.temps[x]? ≠ none) :
    u.env.temps.Leads (above ++ [s.node.id]) x := by
  rcases hx.cases_started h.get with rfl | ⟨d, hd, hdx⟩
  · exact .frame (List.mem_append_right _ List.mem_cons_self)
  · by_cases hdk : d = k
    · subst hdk
      exact (hleads x hdx hp).of_subset fun y hy => List.mem_append_left _ hy
    · have hidle := h.other_kid hstays hk hd hdk hf
      rw [hl d hd] at hidle
      exact absurd (hidle x hdx) hp

theorem stray_after (hf : ¬ u.Flagged c) (hown : s.own = none) (hy : c.tree.Region k y)
    (hnest : ∀ x p, c.tree.Region k x → u.env.temps[x]? = some p → y ∉ p.nestedFrames) :
    ∀ x p, c.tree.Region s.node.id x → u.env.temps[x]? = some p → y ∉ p.nestedFrames := by
  intro x p hx hxp hm
  rcases hx.cases_started h.get with rfl | ⟨d, hd, hdx⟩
  · rw [h.own_after hstays, hown] at hxp
    cases hxp
  · by_cases hdk : d = k
    · exact hnest x p (hdk ▸ hdx) hxp hm
    · have hleft := (h.other_kid hstays hk hd hdk hf).inward h.orderly
      exact h.orderly.region_disjoint (h.starts hd) (h.starts hk) hdk (hleft x p hdx hxp y hm) hy

/-- Another child whose frames the node had in hand is a stray below the node. -/
theorem stray_of_held {d : NodeId} (hf : ¬ u.Flagged c) (hown : s.own = none) (hd : d ∈ c.tree.started s.node)
    (hdk : d ≠ k) (hl : left d ≠ none) :
    u.env.temps[d]? ≠ none ∧
      ∀ x p, c.tree.Region s.node.id x → u.env.temps[x]? = some p → d ∉ p.nestedFrames := by
  obtain ⟨st, hst⟩ := Option.ne_none_iff_exists'.mp hl
  have hsus := h.other_kid hstays hk hd hdk hf
  rw [hst] at hsus
  refine ⟨Tree.Suspended.payload hsus, ?_⟩
  intro x p hx hxp hm
  rcases hx.cases_started h.get with rfl | ⟨b, hb', hbx⟩
  · rw [h.own_after hstays, hown] at hxp
    cases hxp
  · by_cases hbd : b = d
    · subst hbd
      exact Tree.Suspended.not_nested hsus h.orderly hbx hxp hm
    · have hin : c.tree.Region b d := by
        by_cases hbk : b = k
        · subst hbk
          exact (hstays.holds.nested hbx hxp hm).1.1
        · exact (h.other_kid hstays hk hb' hbk hf).inward h.orderly x p hbx hxp d hm
      exact h.orderly.region_disjoint (h.starts hb') (h.starts hd) hbd hin (.refl _)

end Failing

theorem falls (h : t.Stands R c s [] left marked todo) (hk : k ∈ c.tree.started s.node) (hl : left k = none)
    (ht : s.Tells c.tree left marked) (hb : t.Broke R c k (s.node.id :: s.base) err u) : u.Falls c s err := by
  refine ⟨hb.blames, fun hown hf => ?_⟩
  have horder := h.orderly
  obtain ⟨_, hstays⟩ := hb.stays
  obtain ⟨lost, hwatch, above, hframes, hleads, hstray⟩ := hb.litter hf
  obtain ⟨above', hframes', hadm⟩ := hstays.holds.frames
  obtain rfl : above = above' := List.append_cancel_right (hframes.symm.trans hframes')
  have habove : ∀ y ∈ above ++ [s.node.id], y = s.node.id ∨ c.tree.Region k y := by
    intro y hy
    rcases List.mem_append.mp hy with hy | hy
    · exact .inr (hadm y hy).1
    · exact .inl (List.mem_singleton.mp hy)
  refine ⟨marked, lost, ?_, above ++ [s.node.id], by rw [hframes, List.append_assoc]; rfl, ?_, ?_⟩
  · rw [hwatch, h.watch (h.not_flagged_before hstays hf)]
    rfl
  · intro hnone x hx hp
    obtain ⟨hlost, hmarked⟩ := Bool.or_eq_false_iff.mp hnone
    refine h.leads_after hstays hk hf ?_ (hleads hlost) hx hp
    intro d hd
    by_contra hne
    rw [(ht hown).mpr ⟨d, hd, hne⟩] at hmarked
    cases hmarked
  · intro hsome
    cases hlost : lost with
    | true =>
      obtain ⟨z, hz, hp, hnot, hnest⟩ := hstray hlost
      refine ⟨z, .of_starts (h.starts hk) hz, hp, ?_, h.stray_after hstays hk hf hown hz hnest⟩
      intro hm
      rcases List.mem_append.mp hm with hm | hm
      · exact hnot hm
      · rw [List.mem_singleton.mp hm] at hz
        exact horder.not_region_of_starts (h.starts hk) hz
    | false =>
      rw [hlost, Bool.false_or] at hsome
      obtain ⟨d, hd, hne⟩ := (ht hown).mp hsome
      have hdk : d ≠ k := fun he => hne (he ▸ hl)
      obtain ⟨hp, hnest⟩ := h.stray_of_held hstays hk hf hown hd hdk hne
      refine ⟨d, .of_starts (h.starts hd) (.refl _), hp, ?_, hnest⟩
      intro hm
      rcases habove d hm with rfl | hkd
      · exact horder.ne_of_starts (h.starts hd) rfl
      · exact horder.region_disjoint (h.starts hk) (h.starts hd) (Ne.symm hdk) hkd (.refl _)

/-- The node itself fails, and all that it leaves is led to by the frames above it. -/
theorem falls_here (h : t.Stands R c s above left marked todo) (hb : c.tree.Blames err)
    (hm : (marked && s.node.behavior.runsAbreast) = false)
    (hl : ∀ k ∈ c.tree.started s.node, left k = none ∨ left k = some ⟨above⟩) : t.Falls c s err := by
  refine ⟨hb, fun _ hf => ⟨marked, false, ?_, above ++ [s.node.id], by rw [h.stack, List.append_assoc]; rfl, ?_, ?_⟩⟩
  · rw [h.watch hf, Bool.or_false]
    rfl
  · intro _ x hx hp
    rcases hx.cases_started h.get with rfl | ⟨d, hd, hdx⟩
    · exact .frame (List.mem_append_right _ List.mem_cons_self)
    · have hleft := h.kids d hd fun hf' => absurd hf' hf
      rcases hl d hd with hnone | hsome
      · rw [hnone] at hleft
        exact absurd (hleft x hdx) hp
      · rw [hsome] at hleft
        exact (Tree.Suspended.leads hleft hdx hp h.orderly).of_subset fun y hy => List.mem_append_left _ hy
  · intro hlost
    rw [Bool.false_or, hm] at hlost
    cases hlost

theorem abandon {st : Stack} (h : t.Stands R c s above left marked todo) (hf : ¬ t.Flagged c)
    (hk : k ∈ c.tree.started s.node) (hl : left k = some st) :
    ({ t with env := t.env.abandon st } : Tick σ).Stands R c s above (Function.update left k none) marked todo := by
  have hsus := h.kids k hk fun hf' => absurd hf' hf
  rw [hl] at hsus
  obtain ⟨hidle, hrest⟩ := Tree.Suspended.clear hsus h.orderly
  refine h.of_kid hk ⟨h.runs.good, h.runs.here⟩ ?_ hrest (fun _ => rfl) (fun hf' => hf') h.stack h.watch
    (fun _ hx => hx) fun _ => hidle
  intro x n p hn hp
  exact h.fits x n p hn (Stack.getElem?_of_clear hp)

end Stands

theorem Returns.stands (h : t.Returns R c s left marked todo k status) (hl : left k = none) (hs : status ≠ .running) :
    t.Stands R c s [] left marked todo ∧ t.env.lastStatus = status ∧ ¬ t.Flagged c := by
  have hend := h.ended hs
  rwa [Function.update_eq_self_iff.mpr hl.symm] at hend

theorem Settles.of_flagged (hf : t.Flagged c) : t.Settles c s status :=
  ⟨fun h => absurd hf h, fun h => absurd hf h, fun h => absurd hf h⟩

theorem Stands.fresh (h : t.Stands R c s [] left marked todo) (hk : k ∈ c.tree.started s.node) (hl : left k = none)
    (htodo : t.Flagged c → todo k) (hclean : ∀ b ∈ c.tree.started s.node, c.tree.CleansUp k b → left b = none) :
    t.Fresh R c k := by
  have hidle := h.kids k hk htodo
  rw [hl] at hidle
  refine ⟨h.runs, h.fits, ?_, hidle, h.orderly.entered_of_starts (h.starts hk), ?_, fun hf b hb => ?_⟩
  · rw [h.stack]
    exact h.apart_kid hk
  · rw [h.stack]
    exact h.beside_kid hk
  · have hmem := (h.cleansUp hk hb).2.2.2
    exact h.forgotten_kid hmem (hclean b hmem hb) hf

/-- The frames that a child has left may be put back and resumed. -/
theorem Stands.resumes {st : Stack} (h : t.Stands R c s [] left marked todo) (hk : k ∈ c.tree.started s.node)
    (hl : left k = some st) (htodo : t.Flagged c → todo k) :
    ({ t with env := { t.env with stack := t.env.stack ++ st } } : Tick σ).Resumes R c k (s.node.id :: s.base) := by
  have hsus := h.kids k hk htodo
  rw [hl] at hsus
  obtain ⟨x, n, p, below, hframes, hpath, haw, hready⟩ := Tree.Suspended.cases hsus
  refine ⟨⟨h.runs.good, h.runs.here⟩, h.fits, h.apart_kid hk, .inr ⟨x, below, n, p, ?_, hpath, hready, ?_⟩,
    fun hf => (h.beside_kid hk hf).congr (fun _ => rfl) fun _ _ => rfl⟩
  · rw [Stack.frames_append, hframes, h.stack]
    rfl
  · exact fun hne => absurd haw hne

end Tick

namespace Stance

variable {tree : Tree}

theorem tells_alone : s.Tells tree (fun _ => none) false := by
  intro _
  simp

theorem tells_of_own (h : s.own ≠ none) : s.Tells tree left marked := fun hown => absurd hown h

end Stance

theorem TickM.meets_capture {α : Type} {f : Stack → TickM σ α} {Q : α → Tick σ → Prop} {E : RunError → Tick σ → Prop}
    (hs : t.env.stack.frames = above ++ base) :
    ((capture .running base.length >>= f) c t).Meets Q E ↔
      (f ⟨above⟩ c { t with env := { t.env with stack := ⟨base⟩ } }).Meets Q E := by
  have hcut : t.env.stack.splitAt base.length = (⟨base⟩, ⟨above⟩) := by
    have heq : t.env.stack = (⟨base⟩ : Stack) ++ (⟨above⟩ : Stack) := congrArg Stack.mk hs
    rw [heq]
    exact Stack.splitAt_append ⟨base⟩ ⟨above⟩
  simp only [capture, meets_bind, meets_env, meets_modifyEnv, hcut, meets_pure]

namespace Engine.Sound

variable (he : e.Sound R)
include he

theorem run_child (h : t.Stands R c s [] left marked todo) (hk : k ∈ c.tree.started s.node) (hl : left k = none)
    (htodo : t.Flagged c → todo k) (ht : s.Tells c.tree left marked)
    (hclean : ∀ b ∈ c.tree.started s.node, c.tree.CleansUp k b → left b = none) :
    (e.run k c t).Meets (fun status u => u.Returns R c s left marked todo k status) fun err u => u.Falls c s err := by
  refine (he.fresh (h.fresh hk hl htodo hclean)).mono ?_ ?_
  · intro status u hran
    rw [h.stack] at hran
    exact h.returns hk rfl rfl rfl hran
  · intro err u hb
    rw [h.stack] at hb
    exact h.falls hk hl ht hb

/-- A node whose children are idle runs one of them, and suspends if that is running. -/
theorem run_alone {f : Status → TickM σ Status} (h : t.Alone R c s) (hp : s.node.Saves p)
    (haw : c.tree.awaited s.node p = some k) (hrun : f .running = suspend s.node.toSite p)
    (hend : ∀ status u, status ≠ .running → u.Alone R c s → u.env.lastStatus = status → ¬ u.Flagged c →
      (f status c u).Meets (fun st u => u.Settles c s st) fun err u => u.Falls c s err) :
    ((e.run k >>= f) c t).Meets (fun st u => u.Settles c s st) fun err u => u.Falls c s err := by
  rw [meets_bind]
  have hk := Tree.mem_started_of_awaited hp haw
  refine (he.run_child h hk rfl (fun _ => trivial) Stance.tells_alone fun _ _ _ => rfl).mono ?_ fun _ _ hf => hf
  intro status u hret
  have hended : status ≠ .running →
      (f status c u).Meets (fun st u => u.Settles c s st) fun err u => u.Falls c s err := by
    intro hs
    obtain ⟨hst, hlast, hf⟩ := hret.stands rfl hs
    exact hend status u hs hst hlast hf
  cases status with
  | success => exact hended (by simp)
  | failure => exact hended (by simp)
  | running =>
    obtain ⟨above, hst⟩ := hret.running rfl
    rw [hrun, meets_suspend]
    exact hst.settles_awaiting hk hp haw (by simp) fun k' _ hne => by simp [hne]

/-- A node runs a child afresh or resumes it, and takes the frames that are left in hand. -/
theorem step_child {saved : Option Stack} (h : t.Stands R c s [] left marked todo) (hk : k ∈ c.tree.started s.node)
    (hl : left k = saved) (hown : saved ≠ none → s.own ≠ none) (htodo : t.Flagged c → todo k)
    (ht : s.Tells c.tree left marked) (hclean : ∀ b ∈ c.tree.started s.node, c.tree.CleansUp k b → left b = none) :
    (e.stepBranch k saved c t).Meets
      (fun r u => u.Stands R c s [] (Function.update left k (if r.1 = .running then some r.2 else none))
          (marked || decide (r.1 = .running)) (fun x => todo x ∧ x ≠ k) ∧ (r.1 ≠ .running → ¬ u.Flagged c))
      fun err u => u.Falls c s err := by
  have hsize : t.env.stack.size = (s.node.id :: s.base).length := by rw [Stack.size, h.stack]; rfl
  have hcut : ∀ status u, u.Returns R c s left marked todo k status →
      ((do return (status, ← capture status (s.node.id :: s.base).length) : TickM σ (Status × Stack)) c u).Meets
        (fun r u => u.Stands R c s [] (Function.update left k (if r.1 = .running then some r.2 else none))
          (marked || decide (r.1 = .running)) (fun x => todo x ∧ x ≠ k) ∧ (r.1 ≠ .running → ¬ u.Flagged c))
        fun err u => u.Falls c s err := by
    intro status u hret
    have hended : status ≠ .running → u.Stands R c s [] (Function.update left k none) (marked || false)
        (fun x => todo x ∧ x ≠ k) ∧ ¬ u.Flagged c := by
      intro hs
      obtain ⟨hst, _, hf⟩ := hret.ended hs
      rw [Bool.or_false]
      exact ⟨hst.mono fun _ hx => hx.1, hf⟩
    cases status with
    | success => exact ⟨(hended (by simp)).1, fun _ => (hended (by simp)).2⟩
    | failure => exact ⟨(hended (by simp)).1, fun _ => (hended (by simp)).2⟩
    | running =>
      obtain ⟨above, hst⟩ := hret.running rfl
      rw [meets_capture hst.stack]
      refine ⟨?_, fun hne => absurd rfl hne⟩
      rw [decide_eq_true rfl, Bool.or_true]
      exact { hst with
        stack := rfl
        runs := ⟨hst.runs.good, hst.runs.here⟩
        beside := fun hf => (hst.beside hf).congr (fun _ => rfl) fun _ _ => rfl }
  cases saved with
  | none =>
    rw [Engine.stepBranch, Engine.runCaptured, meets_bind, meets_env, meets_bind, hsize]
    exact (he.run_child h hk hl htodo ht hclean).mono hcut fun _ _ hf => hf
  | some st =>
    rw [Engine.stepBranch, Engine.resumeCaptured, meets_bind, meets_env, meets_bind, meets_modifyEnv, meets_bind, hsize]
    refine (he.resumes (h.resumes hk hl htodo)).mono ?_ ?_
    · intro status u hran
      refine hcut status u (h.returns hk ?_ ?_ ?_ hran)
      · rfl
      · rfl
      · rfl
    · intro err u hb
      exact ⟨hb, fun hnone => absurd hnone (hown (by simp))⟩

end Engine.Sound

end BehaviorTree
