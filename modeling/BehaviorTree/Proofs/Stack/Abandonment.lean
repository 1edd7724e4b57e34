import BehaviorTree.Env
import BehaviorTree.Proofs.Stack.Suspension

/-!
What it means that nothing is left of a node and of all that runs below it. While the node above is in the middle of
a step, its payload is still the one that it had before the step, and so may those of the nodes above that one be;
such a payload is replaced or forgotten before the step is over. All other stacks are as they are said to be.
-/

namespace BehaviorTree
set_option autoImplicit false

namespace Tree

/-- Nothing is left of a node and of what is started below it: no payload, and no frame on the stack, on a detached
stack or on one saved in a payload, unless in the payload of a node above that is itself on the stack, in the middle
of a step. -/
structure Forgotten (t : Tree) (env : Env) (k : NodeId) : Prop where
  payload {x : NodeId} : t.Region k x → env.temps[x]? = none
  stack {x : NodeId} : t.Region k x → x ∉ env.stack.frames
  detached {x l : NodeId} {s : Stack} : t.Region k x → env.detached[l]? = some s → x ∉ s.frames
  saved {x y : NodeId} {p : Payload} :
    t.Region k x → env.temps[y]? = some p → x ∈ p.nestedFrames → t.Below y k ∧ y ∈ env.stack.frames

/-- What is beside a node that runs on some frames: the nodes above have theirs among these, detached stacks have no
frame of it, and the payloads of nodes that it does not start name frames further down only. -/
structure Beside (t : Tree) (env : Env) (k : NodeId) (base : List NodeId) : Prop where
  above {y : NodeId} : t.Below y k → y ∈ base
  detached {x l : NodeId} {s : Stack} : env.detached[l]? = some s → x ∈ s.frames → ¬ t.Region k x
  inward {x y : NodeId} {p : Payload} : ¬ t.Region k x → env.temps[x]? = some p → y ∈ p.nestedFrames → t.Below x y

def CleansUp (t : Tree) (d b : NodeId) : Prop :=
  ∃ w n, t.get? w = some n ∧ n.behavior = .watchdog ∧ n.children[1]? = some b ∧ n.children[2]? = some d

variable {t : Tree} {env env' : Env} {temps : Temps} {a b d k id x y : NodeId} {n : Node} {p : Payload}
  {base below frames : List NodeId}

/-- A node above a started one is the one that starts it, or above that. -/
theorem Below.of_starts (h : t.Below y k) (ht : t.Orderly) (hs : t.Starts a k) : y = a ∨ t.Below y a := by
  obtain ⟨c, hc, hck⟩ := h
  rcases Relation.ReflTransGen.cases_tail hck with rfl | ⟨w, hcw, hw⟩
  · exact .inl (ht.starts_unique hc hs)
  · obtain rfl := ht.starts_unique hw hs
    exact .inr ⟨c, hc, hcw⟩

theorem not_below_base (ht : t.Orderly) (hk : t.Base k) : ¬ t.Below y k := by
  rintro ⟨c, hc, hck⟩
  rcases Relation.ReflTransGen.cases_tail hck with rfl | ⟨w, _, hw⟩
  · exact ht.not_starts_base hk hc
  · exact ht.not_starts_base hk hw

/-- The payload of a node that is ready to go on names frames further down only. -/
theorem Ready.nested_below (h : t.Ready temps x n p) (ht : t.Orderly) (hy : y ∈ p.nestedFrames) : t.Below x y := by
  obtain ⟨s, hs, hy⟩ := List.mem_flatMap.mp hy
  rw [nested_eq ht h.get h.saves] at hs
  obtain ⟨⟨c, s'⟩, hc, rfl⟩ := List.mem_map.mp hs
  exact ⟨c, starts_of_parked h.get hc, ((h.parked c s' hc).mem_frames hy).1⟩

theorem Suspended.nested_below (h : t.Suspended temps id frames) (ht : t.Orderly) (hx : t.Region id x)
    (hp : temps[x]? = some p) (hy : y ∈ p.nestedFrames) : t.Below x y := by
  obtain ⟨s, hs, hy⟩ := List.mem_flatMap.mp hy
  obtain ⟨c, hc, hsus⟩ := h.nested ht hx hp hs
  exact ⟨c, hc, (hsus.mem_frames hy).1⟩

theorem Path.mem_of_below (h : t.Path temps id x below) (ht : t.Orderly) (hr : t.Region id y) (hy : t.Below y x) :
    y ∈ below := by
  induction h with
  | here => exact absurd hr (ht.not_region_of_below hy)
  | @above x z n p below h hn _ hs ha _ ih =>
    rcases hy.of_starts ht (Path.starts hs hn ha) with rfl | hy
    · exact List.mem_cons_self
    · exact List.mem_cons_of_mem _ (ih hy)

theorem not_cleansUp_of_base (ht : t.Orderly) (hk : t.Base k) : ¬ t.CleansUp k b := by
  rintro ⟨w, n, hn, hb, _, hd⟩
  have hlt : 2 < n.children.length := (List.getElem?_eq_some_iff.mp hd).1
  refine ht.not_starts_base hk ⟨n, hn, ?_⟩
  rw [started, hb]
  exact List.mem_of_getElem? ((List.getElem?_take_of_lt (by decide)).trans hd)

theorem Forgotten.congr (h : t.Forgotten env k) (hs : env'.stack = env.stack) (hd : env'.detached = env.detached)
    (ht : env'.temps = env.temps) : t.Forgotten env' k := by
  refine ⟨?_, ?_, ?_, ?_⟩
  · rw [ht]
    exact h.payload
  · rw [hs]
    exact h.stack
  · rw [hd]
    exact h.detached
  · rw [ht, hs]
    exact h.saved

namespace Beside

/-- What is beside a node does not depend on what it starts. -/
theorem congr (h : t.Beside env k base) (hd : ∀ l : NodeId, env'.detached[l]? = env.detached[l]?)
    (ht : ∀ x : NodeId, ¬ t.Region k x → env'.temps[x]? = env.temps[x]?) : t.Beside env' k base :=
  ⟨h.above, fun hl hx => h.detached (hd _ ▸ hl) hx, fun hx hp hy => h.inward hx (ht _ hx ▸ hp) hy⟩

/-- At the end of a path, its frames are beside as well. -/
theorem of_path (h : t.Beside env id base) (ht : t.Orderly) (hp : t.Path env.temps id x below) :
    t.Beside env x (below ++ base) := by
  refine ⟨fun hy => ?_, fun hl hs hr => h.detached hl hs (hp.region.trans hr), fun {z y p} hz hq hy => ?_⟩
  · rcases ht.region_total hy.region hp.region with hr | hr
    · rcases hr.eq_or_below with rfl | hb
      · exact List.mem_append_left _ (hp.mem_of_below ht (.refl _) hy)
      · exact List.mem_append_right _ (h.above hb)
    · exact List.mem_append_left _ (hp.mem_of_below ht hr hy)
  · by_cases hr : t.Region id z
    · have hm := (hp.payload hr (by simp [hq])).resolve_right hz
      obtain ⟨_, _, _, q, c, _, hq', _, ha⟩ := hp.mem_below hm
      obtain rfl : p = q := Option.some.inj (hq.symm.trans hq')
      rw [Payload.nestedFrames, nested_of_awaited ha] at hy
      cases hy
    · exact h.inward hr hq hy

/-- A started node has beside it what its parent has, the parent itself, and the other nodes that it starts. -/
theorem of_starts (h : t.Beside env a base) (ht : t.Orderly) (hs : t.Starts a k)
    (hown : ∀ p, env.temps[a]? = some p → ∀ y ∈ p.nestedFrames, t.Below a y)
    (hothers : ∀ d, t.Starts a d → d ≠ k → ∀ x p, t.Region d x → env.temps[x]? = some p →
      ∀ y ∈ p.nestedFrames, t.Below x y) : t.Beside env k (a :: base) := by
  refine ⟨fun hy => ?_, fun hl hx hr => h.detached hl hx (.of_starts hs hr), fun {x y p} hx hp hy => ?_⟩
  · rcases hy.of_starts ht hs with rfl | hy
    · exact List.mem_cons_self
    · exact List.mem_cons_of_mem _ (h.above hy)
  · by_cases hr : t.Region a x
    · rcases hr.eq_or_below with rfl | ⟨d, hd, hdx⟩
      · exact hown p hp y hy
      · exact hothers d hd (fun he => hx (he ▸ hdx)) x p hdx hp y hy
    · exact h.inward hr hp hy

/-- A region that runs on its own has no node above it. -/
theorem of_base (ht : t.Orderly) (hk : t.Base k)
    (hd : ∀ (l : NodeId) (s : Stack), env.detached[l]? = some s → ∃ c, t.Base c ∧ c ≠ k ∧ ∀ x ∈ s.frames, t.Region c x)
    (hin : ∀ (x y : NodeId) (p : Payload), env.temps[x]? = some p → y ∈ p.nestedFrames → t.Below x y) :
    t.Beside env k base := by
  refine ⟨fun hy => absurd hy (not_below_base ht hk), fun hl hx hr => ?_, fun _ hp hy => hin _ _ _ hp hy⟩
  obtain ⟨c, hc, hne, hreg⟩ := hd _ _ hl
  exact hne (ht.base_unique hc hk (hreg _ hx) hr)

/-- A node that is idle and has no frames where it would run is forgotten. -/
theorem forgotten (h : t.Beside env k base) (ht : t.Orderly) (hi : t.Idle env.temps k)
    (hs : ∀ x ∈ env.stack.frames, ¬ t.Region k x) (hb : ∀ x ∈ base, x ∈ env.stack.frames) : t.Forgotten env k := by
  refine ⟨fun hx => hi _ hx, fun hx hm => hs _ hm hx, fun hx hl hm => h.detached hl hm hx, fun {x y p} hx hp hm => ?_⟩
  have hout : ¬ t.Region k y := fun hy => by
    rw [hi y hy] at hp
    cases hp
  have hyx := (h.inward hout hp hm).region
  have hyk : t.Below y k := by
    rcases ht.region_total hyx hx with hr | hr
    · rcases hr.eq_or_below with rfl | hb
      · exact absurd (.refl _) hout
      · exact hb
    · exact absurd hr hout
  exact ⟨hyk, hb y (h.above hyk)⟩

end Beside

end Tree

end BehaviorTree
