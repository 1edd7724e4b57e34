import BehaviorTree.Proofs.Engine.Sequence

/-!
Nodes that take the frames of their children in hand. What they have in hand is what the children have left, and
when they suspend it goes into their payload.
-/

namespace BehaviorTree
set_option autoImplicit false

open TickM

variable {σ : Type} {R : Rules σ} {c : Activation} {t : Tick σ} {e : Engine σ} {s : Stance}
  {left : NodeId → Option Stack} {marked : Bool} {todo : NodeId → Prop} {p : Payload}

theorem update_none {ks : List NodeId} {d : NodeId} (h : ∀ k ∈ ks, k ≠ d → left k = none) :
    ∀ k ∈ ks, Function.update left d none k = none := by
  intro k hk
  by_cases hkd : k = d
  · rw [hkd, Function.update_self]
  · rw [Function.update_of_ne hkd, h k hk hkd]

theorem lookup_provided {α : Type} [BEq α] [LawfulBEq α] {β : Type} {x : α} {o : Option β} {xs : List α}
    {ys : List (Option β)} (hnodup : xs.Nodup) (h : (x, o) ∈ xs.zip ys) : (provided xs ys).lookup x = o := by
  induction xs generalizing ys with
  | nil => simp at h
  | cons a xs ih =>
    obtain ⟨ha, hxs⟩ := List.nodup_cons.mp hnodup
    cases ys with
    | nil => simp at h
    | cons b ys =>
      rw [provided, List.zip_cons_cons] at *
      rcases List.mem_cons.mp h with hhead | htail
      · obtain ⟨rfl, rfl⟩ := Prod.mk.inj hhead
        cases o with
        | some y => simp
        | none =>
          rw [List.filterMap_cons_none rfl, List.lookup_eq_none_iff]
          rintro ⟨z, y⟩ hz
          obtain ⟨⟨z', y'⟩, hz', hy⟩ := List.mem_filterMap.mp hz
          obtain ⟨_, rfl, hpair⟩ := Option.map_eq_some_iff.mp hy
          obtain ⟨rfl, rfl⟩ := Prod.mk.inj hpair
          simp only [bne_iff_ne, ne_eq]
          rintro rfl
          exact ha (List.of_mem_zip hz').1
      · have hne : (x == a) = false := beq_false_of_ne fun he => ha (he ▸ (List.of_mem_zip htail).1)
        cases b with
        | none => exact ih hxs htail
        | some y => simpa [provided, List.lookup_cons, hne] using ih hxs htail

namespace Stance

theorem parked_of_none (h : s.own = none) (k : NodeId) : s.parked k = none := by simp [parked, h]

theorem parked_of_one {b : NodeId} {st : Stack} (h : s.own = some p) (hp : Tree.parked s.node p = [(b, st)])
    (k : NodeId) : s.parked k = if k = b then some st else none := by
  rw [parked, h, Option.bind_some, hp, List.lookup_cons]
  by_cases hk : k = b
  · simp [hk]
  · simp [beq_false_of_ne hk, hk]

end Stance

namespace Engine.Sound

variable (he : e.Sound R)
include he

section Watchdog

variable (hb : s.node.behavior = .watchdog)

omit he in
include hb in
/-- A watchdog has a guard, a child that it guards, and one that cleans up. -/
theorem exists_guard (h : t.Stands R c s [] left marked todo) :
    ∃ a b d, s.node.children[0]? = some a ∧ s.node.children[1]? = some b ∧ s.node.children[2]? = some d ∧
      a ≠ b ∧ a ≠ d ∧ b ≠ d ∧ c.tree.started s.node = [a, b, d] := by
  have hsup := h.orderly.supplied h.get
  have hnodup := h.orderly.nodup h.get
  rw [hb, Behavior.needs] at hsup
  rw [Tree.started, hb, Behavior.needs]
  obtain ⟨a, b, d, rest, hc⟩ : ∃ a b d rest, s.node.children = a :: b :: d :: rest := by
    rcases hc : s.node.children with _ | ⟨a, _ | ⟨b, _ | ⟨d, rest⟩⟩⟩
    · simp [hc] at hsup
    · simp [hc] at hsup
    · simp [hc] at hsup
    · exact ⟨a, b, d, rest, rfl⟩
  rw [hc] at hnodup ⊢
  simp only [List.nodup_cons, List.mem_cons, not_or] at hnodup
  exact ⟨a, b, d, rfl, rfl, rfl, hnodup.1.1, hnodup.1.2.1, hnodup.2.1.1, rfl⟩

omit he in
/-- Only the last child of a watchdog cleans up after another. -/
theorem not_cleansUp {b d k : NodeId} (h : t.Stands R c s [] left marked todo) (hk : k ∈ c.tree.started s.node)
    (htwo : s.node.children[2]? = some d) (hne : k ≠ d) : ¬ c.tree.CleansUp k b := fun hc =>
  hne (Option.some.inj ((h.cleansUp hk hc).2.2.1.symm.trans htwo))

omit he in
/-- The children of a node other than a watchdog do not clean up. -/
theorem not_cleansUp_of_behavior {b k : NodeId} (h : t.Stands R c s [] left marked todo)
    (hk : k ∈ c.tree.started s.node) (hb : s.node.behavior ≠ .watchdog) : ¬ c.tree.CleansUp k b := fun hc =>
  hb (h.cleansUp hk hc).1

/-- The guarded child is given up, and the child that cleans up has one chance. -/
theorem guardFailed {a b d : NodeId} {saved : Stack} (htwo : s.node.children[2]? = some d)
    (hstart : c.tree.started s.node = [a, b, d]) (hl : left b = some saved)
    (hl' : ∀ k ∈ c.tree.started s.node, k ≠ b → left k = none) (hown : s.own ≠ none) (hf : ¬ t.Flagged c)
    (h : t.Stands R c s [] left marked todo) :
    (e.guardFailed s.node.toSite saved c t).Meets (fun st u => u.Settles c s st) fun err u => u.Falls c s err := by
  have hmem : d ∈ c.tree.started s.node := by simp [hstart]
  have hgone := (h.calm ((Tick.Calm.refl h.runs).report (.guardFailed c.tree.name s.node.id))).abandon hf
    (by simp [hstart]) hl
  have hnone := update_none hl'
  rw [Engine.guardFailed, meets_bind, meets_report, meets_bind, meets_abandon, Engine.cleanUp, meets_bind, meets_bind,
    meets_child htwo, meets_bind]
  refine (he.step_child hgone hmem (hnone d hmem) (fun hne => absurd rfl hne) (fun hf' => absurd hf' hf)
    (Stance.tells_of_own hown) fun k hk _ => hnone k hk).mono ?_ fun _ _ hf => hf
  rintro ⟨status, rest⟩ u ⟨hu, _⟩
  have hend := update_none (d := d) fun k hk _ => hnone k hk
  by_cases hs : status = .running
  · simp only [hs, if_true] at hu ⊢
    by_cases hf' : u.Flagged c
    · exact Tick.Settles.of_flagged hf'
    · have hgone' := (hu.calm ((Tick.Calm.refl hu.runs).report (.cleanupAbandoned c.tree.name s.node.id))).abandon
        hf' hmem (Function.update_self d _ _)
      rw [Function.update_idem] at hgone'
      exact hgone'.settles rfl hend (by simp)
  · simp only [hs, if_false] at hu ⊢
    exact hu.settles rfl hend (by simp)

include hb

theorem guarded {a b d : NodeId} {saved : Option Stack} (hone : s.node.children[1]? = some b)
    (htwo : s.node.children[2]? = some d) (hbd : b ≠ d) (hstart : c.tree.started s.node = [a, b, d])
    (hl : left b = saved)
    (hl' : ∀ k ∈ c.tree.started s.node, k ≠ b → left k = none) (hown : s.own = none ↔ saved = none)
    (hf : ¬ t.Flagged c) (h : t.Stands R c s [] left false todo) :
    (e.guarded s.node.toSite saved c t).Meets (fun st u => u.Settles c s st) fun err u => u.Falls c s err := by
  have hmem : b ∈ c.tree.started s.node := by simp [hstart]
  have htells : s.Tells c.tree left false := by
    intro hnone
    rw [hown.mp hnone] at hl
    simp only [Bool.false_and, Bool.false_eq_true, false_iff, not_exists, not_and, not_not]
    intro k hk
    by_cases hkb : k = b
    · rw [hkb, hl]
    · exact hl' k hk hkb
  rw [Engine.guarded, meets_bind, meets_child hone, meets_bind]
  refine (he.step_child h hmem hl (fun hne => fun hnone => hne (hown.mp hnone)) (fun hf' => absurd hf' hf)
    htells fun _ _ hc => absurd hc (not_cleansUp h hmem htwo hbd)).mono ?_ fun _ _ hf => hf
  rintro ⟨status, rest⟩ u ⟨hu, _⟩
  have hended : status ≠ .running → u.Settles c s status := by
    intro hs
    rw [if_neg hs] at hu
    exact hu.settles rfl (update_none hl') hs
  cases status with
  | success => exact hended (by simp)
  | failure => exact hended (by simp)
  | running =>
    have hparked : Tree.parked s.node (.guarded rest) = [(b, rest)] := by simp [Tree.parked, hb, hone]
    refine hu.settles_parking rfl (by simp [Node.Saves, hb]) (by simp [Tree.awaited, hb]) ?_ ?_
    · intro k st hk
      rw [hparked] at hk
      obtain ⟨rfl, rfl⟩ : k = b ∧ st = rest := by simpa using hk
      simp
    · intro k hk hnot
      have hkb : k ≠ b := fun hkb => hnot rest (by simp [hparked, hkb])
      rw [Function.update_of_ne hkb, hl' k hk hkb]

omit he in
theorem guardRunning {a : NodeId} (hl : ∀ k ∈ c.tree.started s.node, s.own = none → k ≠ a → left k = none)
    (h : t.Returns R c s left marked todo a .running) :
    t.Falls c s (.unexpectedStatus c.tree.name s.node.name s.node.id .running) := by
  obtain ⟨above, hst⟩ := h.running rfl
  have hblames : c.tree.Blames (.unexpectedStatus c.tree.name s.node.name s.node.id .running) := .guard hst.get hb
  by_cases hnone : s.own = none
  · refine hst.falls_here hblames (by rw [hb]; rfl) fun k hk => ?_
    by_cases hka : k = a
    · exact .inr (by rw [hka, Function.update_self])
    · exact .inl (by rw [Function.update_of_ne hka, hl k hk hnone hka])
  · exact ⟨hblames, fun hown' => absurd hown' hnone⟩

theorem watchdog (h : t.Begins R c s) :
    (e.watchdog s.node.toSite c t).Meets (fun st u => u.Settles c s st) fun err u => u.Falls c s err := by
  obtain ⟨a, b, d, hzero, hone, htwo, hab, had, hbd, hstart⟩ := exists_guard hb h.stands
  have hmem : a ∈ c.tree.started s.node := by simp [hstart]
  have hguard : s.parked a = none → (e.run a c t).Meets
      (fun status u => u.Returns R c s s.parked false (fun _ => True) a status) fun err u => u.Falls c s err :=
    fun ha => he.run_child h.stands hmem ha (fun _ => trivial) (fun hown => by simp [Stance.parked_of_none hown])
      fun _ _ hc => absurd hc (not_cleansUp h.stands hmem htwo had)
  rw [Engine.watchdog, h.meets_saved]
  cases hown : s.own with
  | none =>
    have hnone := Stance.parked_of_none hown
    simp only
    rw [Engine.guard, meets_bind, meets_child hzero, meets_bind]
    refine (hguard (hnone a)).mono ?_ fun _ _ hf => hf
    intro status u hret
    cases status with
    | running => exact guardRunning hb (fun k _ _ _ => hnone k) hret
    | success =>
      obtain ⟨hst, _, hf⟩ := hret.stands (hnone a) (by simp)
      exact he.guarded hb hone htwo hbd hstart (hnone b) (fun k _ _ => hnone k) (by simp [hown]) hf hst
    | failure => exact (hret.stands (hnone a) (by simp)).1.settles rfl (fun k _ => hnone k) (by simp)
  | some p =>
    have hsaves := h.saves hown
    cases p
    case guarded saved =>
      have hself : Tree.parked s.node (.guarded saved) = [(b, saved)] := by simp [Tree.parked, hb, hone]
      have hparked := Stance.parked_of_one hown hself
      have hnone : ∀ k, k ≠ b → s.parked k = none := fun k hkb => by rw [hparked, if_neg hkb]
      have hhere : s.parked b = some saved := by rw [hparked, if_pos rfl]
      simp only
      rw [Engine.guard, meets_bind, meets_child hzero, meets_bind]
      refine (hguard (hnone a hab)).mono ?_ fun _ _ hf => hf
      intro status u hret
      cases status with
      | running => exact guardRunning hb (fun k _ hnone' _ => by simp [hown] at hnone') hret
      | success =>
        obtain ⟨hst, _, hf⟩ := hret.stands (hnone a hab) (by simp)
        exact he.guarded hb hone htwo hbd hstart hhere (fun k _ hkb => hnone k hkb) (by simp [hown]) hf hst
      | failure =>
        obtain ⟨hst, _, hf⟩ := hret.stands (hnone a hab) (by simp)
        exact he.guardFailed htwo hstart hhere (fun k _ hkb => hnone k hkb) (by simp [hown]) hf hst
    all_goals simp [Node.Saves, hb] at hsaves

end Watchdog

section Timeout

variable {limit : Float} (hb : s.node.behavior = .timeout limit)
include hb

omit he in
/-- The only child has run, and is given up if its time is up. -/
theorem expire {a : NodeId} (expiry : Float) {r : Status × Stack} (hzero : s.node.children[0]? = some a)
    (hstart : c.tree.started s.node = [a])
    (h : t.Stands R c s [] (Function.update left a (if r.1 = .running then some r.2 else none)) marked todo) :
    (expire s.node.toSite expiry r c t).Meets (fun st u => u.Settles c s st) fun err u => u.Falls c s err := by
  obtain ⟨status, rest⟩ := r
  have hidle : ∀ k ∈ c.tree.started s.node, Function.update left a none k = none := by simp [hstart]
  cases status with
  | success => exact h.settles rfl hidle (by simp)
  | failure => exact h.settles rfl hidle (by simp)
  | running =>
    rw [Engine.expire, meets_bind, meets_time]
    split
    · by_cases hf : t.Flagged c
      · exact Tick.Settles.of_flagged hf
      · have hgone := (h.calm ((Tick.Calm.refl h.runs).report (.timedOut c.tree.name s.node.id))).abandon hf
          (by simp [hstart]) (Function.update_self a _ _)
        rw [Function.update_idem] at hgone
        exact hgone.settles rfl hidle (by simp)
    · have hparked : Tree.parked s.node (.deadline expiry rest) = [(a, rest)] := by simp [Tree.parked, hb, hzero]
      refine h.settles_parking rfl (by simp [Node.Saves, hb]) (by simp [Tree.awaited, hb]) ?_ ?_
      · intro k st hk
        rw [hparked] at hk
        obtain ⟨rfl, rfl⟩ : k = a ∧ st = rest := by simpa using hk
        simp
      · intro k hk hnot
        have hka : k = a := by simpa [hstart] using hk
        exact absurd (by simp [hparked, hka]) (hnot rest)

theorem timeout (h : t.Begins R c s) :
    (e.timeout s.node.toSite limit c t).Meets (fun st u => u.Settles c s st) fun err u => u.Falls c s err := by
  have hsup := h.stands.orderly.supplied h.stands.get
  rw [hb, Behavior.needs] at hsup
  obtain ⟨a, rest, hchildren⟩ : ∃ a rest, s.node.children = a :: rest := List.exists_cons_of_length_pos hsup
  have hzero : s.node.children[0]? = some a := by simp [hchildren]
  have hstart : c.tree.started s.node = [a] := by simp [Tree.started, hb, Behavior.needs, hchildren]
  have hmem : a ∈ c.tree.started s.node := by simp [hstart]
  have hclean : ∀ {b}, ¬ c.tree.CleansUp a b := not_cleansUp_of_behavior h.stands hmem (by simp [hb])
  rw [Engine.timeout, h.meets_saved]
  cases hown : s.own with
  | none =>
    have hnone := Stance.parked_of_none hown
    simp only
    rw [meets_bind, meets_child hzero, meets_bind]
    refine (he.step_child h.stands hmem (hnone a) (fun hne => absurd rfl hne) (fun _ => trivial)
      (fun _ => by simp [hnone]) fun _ _ hc => absurd hc hclean).mono ?_ fun _ _ hf => hf
    intro r u hu
    exact expire hb _ hzero hstart hu.1
  | some p =>
    have hsaves := h.saves hown
    cases p
    case deadline expiry saved =>
      have hone : Tree.parked s.node (.deadline expiry saved) = [(a, saved)] := by simp [Tree.parked, hb, hzero]
      have hparked := Stance.parked_of_one hown hone
      simp only
      rw [meets_bind]
      refine (he.step_child h.stands hmem (by rw [hparked, if_pos rfl]) (fun _ => by simp [hown]) (fun _ => trivial)
        (Stance.tells_of_own (by simp [hown])) fun _ _ hc => absurd hc hclean).mono ?_ fun _ _ hf => hf
      intro r u hu
      exact expire hb _ hzero hstart hu.1
    all_goals simp [Node.Saves, hb] at hsaves

end Timeout

end Engine.Sound

/-- A child of a node that runs them side by side has been stepped. -/
theorem Stance.Tells.step {tree : Tree} {k : NodeId} {r : Status × Stack} (h : s.Tells tree left marked)
    (ha : s.node.behavior.runsAbreast = true) (hk : k ∈ tree.started s.node) (hl : s.own = none → left k = none) :
    s.Tells tree (Function.update left k (if r.1 = .running then some r.2 else none))
      (marked || decide (r.1 = .running)) := by
  intro hown
  have hbefore := h hown
  rw [ha, Bool.and_true] at hbefore ⊢
  by_cases hr : r.1 = .running
  · rw [decide_eq_true hr, Bool.or_true, if_pos hr]
    exact ⟨fun _ => ⟨k, hk, by simp⟩, fun _ => rfl⟩
  · rw [decide_eq_false hr, Bool.or_false, if_neg hr, Function.update_eq_self_iff.mpr (hl hown).symm]
    exact hbefore

theorem Node.Abreast.runsAbreast {n : Node} (h : n.Abreast) : n.behavior.runsAbreast = true := by
  rcases h with h | h <;> rw [h] <;> rfl

theorem Node.Abreast.started {n : Node} (h : n.Abreast) (tree : Tree) : tree.started n = n.children := by
  rcases h with h | h <;> rw [Tree.started, h]

theorem Node.Abreast.parked {n : Node} (h : n.Abreast) (saved : List (Option Stack)) :
    Tree.parked n (.branches saved) = provided n.children saved := by
  rcases h with h | h <;> simp [Tree.parked, h]

def Stance.Hands (s : Stance) (left : NodeId → Option Stack) (out : List (Option Stack)) : Prop :=
  out.length = s.node.children.length ∧ ∀ k o, (k, o) ∈ s.node.children.zip out → left k = o

/-- The children that are still to be stepped, each with the frames that it goes on from. -/
structure Stance.Awaits (s : Stance) (tree : Tree) (fresh : Bool) (left : NodeId → Option Stack) (todo : NodeId → Prop)
    (branches : List (NodeId × Option Stack)) : Prop where
  resumed : fresh = false → s.own ≠ none
  nodup : (branches.map Prod.fst).Nodup
  kid {k : NodeId} {o : Option Stack} : (k, o) ∈ branches → k ∈ tree.started s.node ∧ todo k
  left {k : NodeId} {o : Option Stack} : (k, o) ∈ branches → left k = if fresh then none else o

theorem Stance.Awaits.rest {tree : Tree} {fresh : Bool} {k : NodeId} {o o' : Option Stack}
    {branches : List (NodeId × Option Stack)} (h : s.Awaits tree fresh left todo ((k, o) :: branches)) :
    s.Awaits tree fresh (Function.update left k o') (fun x => todo x ∧ x ≠ k) branches := by
  obtain ⟨hk, hnodup⟩ := List.nodup_cons.mp h.nodup
  have hne : ∀ {k' o''}, (k', o'') ∈ branches → k' ≠ k := by
    rintro k' o'' hmem rfl
    exact hk (List.mem_map.mpr ⟨_, hmem, rfl⟩)
  refine ⟨h.resumed, hnodup, ?_, ?_⟩
  · intro k' o'' hmem
    obtain ⟨hstart, htodo⟩ := h.kid (List.mem_cons_of_mem _ hmem)
    exact ⟨hstart, htodo, hne hmem⟩
  · intro k' o'' hmem
    rw [Function.update_of_ne (hne hmem)]
    exact h.left (List.mem_cons_of_mem _ hmem)

/-- The first of the children that are still to be stepped. -/
theorem Engine.Sound.step_first {fresh : Bool} {k : NodeId} {o : Option Stack} {branches : List (NodeId × Option Stack)}
    (he : e.Sound R) (hb : s.node.Abreast) (h : t.Stands R c s [] left marked todo) (ht : s.Tells c.tree left marked)
    (hw : s.Awaits c.tree fresh left todo ((k, o) :: branches)) :
    (e.stepBranch k (if fresh then none else o) c t).Meets
      (fun r u => ∃ marked', u.Stands R c s []
          (Function.update left k (if r.1 = .running then some r.2 else none)) marked' (fun x => todo x ∧ x ≠ k) ∧
        s.Tells c.tree (Function.update left k (if r.1 = .running then some r.2 else none)) marked' ∧
        (r.1 ≠ .running → ¬ u.Flagged c))
      fun err u => u.Falls c s err := by
  obtain ⟨hk, htodo⟩ := hw.kid List.mem_cons_self
  have hl := hw.left List.mem_cons_self
  have hown : (if fresh then none else o) ≠ none → s.own ≠ none := by
    cases fresh with
    | true => exact fun hne => absurd rfl hne
    | false => exact fun _ => hw.resumed rfl
  have hclean : ∀ {b}, ¬ c.tree.CleansUp k b := not_cleansUp_of_behavior h hk (by rcases hb with hb | hb <;> simp [hb])
  refine (he.step_child h hk hl hown (fun _ => htodo) ht fun _ _ hc => absurd hc hclean).mono ?_ fun _ _ hf => hf
  rintro r u ⟨hu, hf⟩
  refine ⟨_, hu, ht.step hb.runsAbreast hk ?_, hf⟩
  intro hnone
  by_contra hne
  rw [hl] at hne
  exact hown hne hnone

namespace Engine.Sound

theorem settles_branches {out : List (Option Stack)} {status : Status} (hb : s.node.Abreast) (hs : status ≠ .running)
    (h : t.Stands R c s [] left marked todo) (hout : s.Hands left out) :
    ((if out.any Option.isSome then suspend s.node.toSite (.branches out) else pure status : TickM σ Status) c t).Meets
      (fun st u => u.Settles c s st) fun err u => u.Falls c s err := by
  have hstart := hb.started c.tree
  have hparked := hb.parked out
  have hfind : ∀ k ∈ s.node.children, ∃ o, (k, o) ∈ s.node.children.zip out := by
    intro k hk
    obtain ⟨i, hi, rfl⟩ := List.getElem_of_mem hk
    exact ⟨out.get ⟨i, hout.1 ▸ hi⟩, List.mem_of_getElem? (i := i) (by simp [hi, hout.1])⟩
  split
  · refine h.settles_parking rfl ?_ ?_ ?_ ?_
    · rcases hb with hb | hb <;> simpa [Node.Saves, hb] using hout.1
    · rcases hb with hb | hb <;> simp [Tree.awaited, hb]
    · intro k st hk
      rw [hparked] at hk
      obtain ⟨⟨k', o⟩, hz, ho⟩ := List.mem_filterMap.mp hk
      obtain ⟨st', rfl, hst⟩ := Option.map_eq_some_iff.mp ho
      obtain ⟨rfl, rfl⟩ := Prod.mk.inj hst
      exact hout.2 _ _ hz
    · intro k hk hnot
      obtain ⟨o, ho⟩ := hfind k (hstart ▸ hk)
      rw [hout.2 k o ho]
      cases o with
      | none => rfl
      | some st =>
        refine absurd ?_ (hnot st)
        rw [hparked]
        exact List.mem_filterMap.mpr ⟨_, ho, rfl⟩
  · rename_i hany
    refine h.settles rfl (fun k hk => ?_) hs
    obtain ⟨o, ho⟩ := hfind k (hstart ▸ hk)
    rw [hout.2 k o ho]
    cases o with
    | none => rfl
    | some st => exact absurd (List.any_eq_true.mpr ⟨_, (List.of_mem_zip ho).2, rfl⟩) hany

variable (he : e.Sound R)
include he

theorem stepAll (hb : s.node.Abreast) (fresh : Bool) {branches : List (NodeId × Option Stack)}
    (h : t.Stands R c s [] left marked todo) (ht : s.Tells c.tree left marked)
    (hw : s.Awaits c.tree fresh left todo branches) :
    (e.stepAll fresh branches c t).Meets
      (fun out u => out.length = branches.length ∧ ∃ left' marked' todo', u.Stands R c s [] left' marked' todo' ∧
        (∀ k, k ∉ branches.map Prod.fst → left' k = left k) ∧
        ∀ k o, (k, o) ∈ (branches.map Prod.fst).zip out → left' k = o)
      fun err u => u.Falls c s err := by
  induction branches generalizing t left marked todo with
  | nil => exact ⟨rfl, left, marked, todo, h, fun _ _ => rfl, by simp⟩
  | cons b rest ih =>
    obtain ⟨k, saved⟩ := b
    have hk : k ∉ rest.map Prod.fst := (List.nodup_cons.mp hw.nodup).1
    have hcons : ∀ (o : Option Stack) (marked' : Bool) (u : Tick σ),
        u.Stands R c s [] (Function.update left k o) marked' (fun x => todo x ∧ x ≠ k) →
        s.Tells c.tree (Function.update left k o) marked' →
        ((do return o :: (← e.stepAll fresh rest)) c u).Meets
          (fun out u => out.length = ((k, saved) :: rest).length ∧ ∃ left' marked' todo',
            u.Stands R c s [] left' marked' todo' ∧
            (∀ x, x ∉ ((k, saved) :: rest).map Prod.fst → left' x = left x) ∧
            ∀ x o, (x, o) ∈ (((k, saved) :: rest).map Prod.fst).zip out → left' x = o)
          fun err u => u.Falls c s err := by
      intro o marked' u hu ht'
      rw [meets_bind]
      refine (ih hu ht' hw.rest).mono ?_ fun _ _ hf => hf
      rintro out v ⟨hlen, left', marked'', todo', hv, hothers, hout⟩
      refine ⟨by simp [hlen], left', marked'', todo', hv, ?_, ?_⟩
      · intro x hx
        rw [List.map_cons, List.mem_cons, not_or] at hx
        rw [hothers x hx.2, Function.update_of_ne hx.1]
      · intro x o' hx
        rw [List.map_cons, List.zip_cons_cons] at hx
        rcases List.mem_cons.mp hx with hx | hx
        · obtain ⟨rfl, rfl⟩ := Prod.mk.inj hx
          rw [hothers _ hk, Function.update_self]
        · exact hout x o' hx
    rw [Engine.stepAll]
    split
    · rename_i hskip
      obtain ⟨rfl, rfl⟩ : fresh = false ∧ saved = none := by simpa using hskip
      have hl : left k = none := hw.left List.mem_cons_self
      have hsame : Function.update left k none = left := Function.update_eq_self_iff.mpr hl.symm
      exact hcons none marked t (by rw [hsame]; exact h.mono fun _ hx => hx.1) (by rw [hsame]; exact ht)
    · rw [meets_bind]
      refine (he.step_first hb h ht hw).mono ?_ fun _ _ hf => hf
      rintro ⟨status, frames⟩ u ⟨marked', hu, ht', _⟩
      exact hcons _ marked' u hu ht'

omit he in
/-- What a node that runs its children side by side finds saved. -/
theorem meets_savedBranches {f : Option (List (Option Stack)) → TickM σ Status} {Q : Status → Tick σ → Prop}
    {E : RunError → Tick σ → Prop} {H : Halt → Prop} (hb : s.node.Abreast) (h : t.Begins R c s)
    (hnone : s.own = none → (f none c t).Meets Q E H)
    (hsome : ∀ saved, s.own = some (.branches saved) → s.Hands s.parked saved → (f (some saved) c t).Meets Q E H) :
    ((savedBranches s.node.toSite >>= f) c t).Meets Q E H := by
  rw [Engine.savedBranches, bind_assoc, h.meets_saved]
  cases hown : s.own with
  | none => exact hnone hown
  | some p =>
    have hsaves := h.saves hown
    cases p
    case branches saved =>
      have hlen : saved.length = s.node.children.length := by
        rcases hb with hb | hb <;> simpa [Node.Saves, hb] using hsaves
      simp only [hlen, if_true]
      refine hsome saved hown ⟨hlen, fun k o hk => ?_⟩
      have hparked : s.parked k = (Tree.parked s.node (.branches saved)).lookup k := by simp [Stance.parked, hown]
      rw [hparked, hb.parked]
      exact lookup_provided (h.stands.orderly.nodup h.stands.get) hk
    all_goals rcases hb with hb | hb <;> simp [Node.Saves, hb] at hsaves

omit he in
theorem awaits {fresh : Bool} {saved : List (Option Stack)} (hb : s.node.Abreast) (h : t.Begins R c s)
    (hlen : saved.length = s.node.children.length) (hfresh : fresh = false → s.own ≠ none)
    (hleft : ∀ k o, (k, o) ∈ s.node.children.zip saved → s.parked k = if fresh then none else o) :
    s.Awaits c.tree fresh s.parked (fun _ => True) (s.node.children.zip saved) := by
  refine ⟨hfresh, ?_, fun hmem => ⟨?_, trivial⟩, hleft _ _⟩
  · rw [List.map_fst_zip (by omega)]
    exact h.stands.orderly.nodup h.stands.get
  · rw [hb.started]
    exact (List.of_mem_zip hmem).1

theorem parallel (hb : s.node.behavior = .parallel) (h : t.Begins R c s) :
    (e.parallel s.node.toSite c t).Meets (fun st u => u.Settles c s st) fun err u => u.Falls c s err := by
  have habreast : s.node.Abreast := .inl hb
  have hgo : ∀ (fresh : Bool) (saved : List (Option Stack)), saved.length = s.node.children.length →
      s.Tells c.tree s.parked false → s.Awaits c.tree fresh s.parked (fun _ => True) (s.node.children.zip saved) →
      (e.stepParallel s.node.toSite fresh saved c t).Meets (fun st u => u.Settles c s st)
        fun err u => u.Falls c s err := by
    intro fresh saved hlen ht hw
    rw [stepParallel, meets_bind]
    refine (he.stepAll habreast fresh h.stands ht hw).mono ?_ fun _ _ hf => hf
    rintro out u ⟨hout, left', marked', todo', hu, _, hleft⟩
    rw [List.map_fst_zip (by omega)] at hleft
    rw [List.length_zip, hlen, Nat.min_self] at hout
    exact settles_branches habreast (by simp) hu ⟨hout, hleft⟩
  rw [Engine.parallel]
  refine meets_savedBranches habreast h ?_ ?_
  · intro hown
    have hnone := Stance.parked_of_none hown
    refine hgo true _ (by simp) (fun _ => by simp [hnone]) (awaits habreast h (by simp) (by simp) ?_)
    intro k _ _
    exact hnone k
  · intro saved hown hsaved
    have hne : s.own ≠ none := by simp [hown]
    exact hgo false saved hsaved.1 (Stance.tells_of_own hne) (awaits habreast h hsaved.1 (fun _ => hne) hsaved.2)

/-- A race ends with what its children have left in hand. Those behind the winner are as they were, so a winner in the
first tick has empty stacks in hand for rivals that have not been started. -/
theorem raceAll (hb : s.node.Abreast) (fresh : Bool) {done : List NodeId} {passed : List (Option Stack)}
    {branches : List (NodeId × Option Stack)} (hlen : passed.length = done.length)
    (hdone : ∀ k ∈ done, k ∉ branches.map Prod.fst)
    (hpassed : ∀ k o, (k, o) ∈ done.zip passed.reverse → left k = o)
    (hempty : fresh = true → ∀ k o, (k, o) ∈ branches → o = some ∅)
    (h : t.Stands R c s [] left marked todo) (ht : s.Tells c.tree left marked)
    (hw : s.Awaits c.tree fresh left todo branches) :
    (e.raceAll fresh passed branches c t).Meets
      (fun r u => r.2.length = done.length + branches.length ∧ (r.1 = true → ¬ u.Flagged c) ∧
        ∃ left' marked' todo', u.Stands R c s [] left' marked' todo' ∧
          ∀ k o, (k, o) ∈ (done ++ branches.map Prod.fst).zip r.2 →
            left' k = o ∨ r.1 = true ∧ left' k = none ∧ o = some ∅)
      fun err u => u.Falls c s err := by
  induction branches generalizing t left marked todo done passed with
  | nil =>
    refine ⟨by simp [hlen], by simp, left, marked, todo, h, ?_⟩
    intro k o hk
    rw [List.map_nil, List.append_nil] at hk
    exact .inl (hpassed k o hk)
  | cons b rest ih =>
    obtain ⟨k, saved⟩ := b
    have hnodup := List.nodup_cons.mp hw.nodup
    have hkdone : k ∉ done := fun hmem => hdone k hmem List.mem_cons_self
    have hpassed' : ∀ (o : Option Stack) x o', (x, o') ∈ (done ++ [k]).zip (passed.reverse ++ [o]) →
        Function.update left k o x = o' := by
      intro o x o' hx
      rw [List.zip_append (by simp [hlen])] at hx
      rcases List.mem_append.mp hx with hx | hx
      · have hne : x ≠ k := fun he => hkdone (he ▸ (List.of_mem_zip hx).1)
        rw [Function.update_of_ne hne]
        exact hpassed x o' hx
      · obtain ⟨rfl, rfl⟩ : x = k ∧ o' = o := by simpa using hx
        exact Function.update_self _ _ _
    have hgo : ∀ (o : Option Stack) (marked' : Bool) (u : Tick σ),
        u.Stands R c s [] (Function.update left k o) marked' (fun x => todo x ∧ x ≠ k) →
        s.Tells c.tree (Function.update left k o) marked' →
        (e.raceAll fresh (o :: passed) rest c u).Meets
          (fun r u => r.2.length = done.length + ((k, saved) :: rest).length ∧ (r.1 = true → ¬ u.Flagged c) ∧
            ∃ left' marked' todo', u.Stands R c s [] left' marked' todo' ∧
              ∀ x o, (x, o) ∈ (done ++ ((k, saved) :: rest).map Prod.fst).zip r.2 →
                left' x = o ∨ r.1 = true ∧ left' x = none ∧ o = some ∅)
          fun err u => u.Falls c s err := by
      intro o marked' u hu ht'
      refine (@ih _ _ _ _ (done ++ [k]) (o :: passed) (by simp [hlen]) ?_ ?_ ?_ hu ht' hw.rest).mono ?_
        fun _ _ hf => hf
      · intro x hx hmem
        rcases List.mem_append.mp hx with hx | hx
        · exact hdone x hx (List.mem_cons_of_mem _ hmem)
        · exact hnodup.1 (List.mem_singleton.mp hx ▸ hmem)
      · rw [List.reverse_cons]
        exact hpassed' o
      · exact fun hf x o' hmem => hempty hf x o' (List.mem_cons_of_mem _ hmem)
      · rintro r v ⟨hout, hf, left', marked'', todo', hv, hleft⟩
        refine ⟨by simp [hout]; omega, hf, left', marked'', todo', hv, ?_⟩
        rw [List.append_assoc] at hleft
        exact hleft
    rw [Engine.raceAll]
    split
    · rename_i hskip
      obtain rfl : saved = none := by simpa using hskip
      have hl : left k = none := by
        rw [hw.left List.mem_cons_self]
        split <;> rfl
      have hsame : Function.update left k none = left := Function.update_eq_self_iff.mpr hl.symm
      exact hgo none marked t (by rw [hsame]; exact h.mono fun _ hx => hx.1) (by rw [hsame]; exact ht)
    · rw [meets_bind]
      refine (he.step_first hb h ht hw).mono ?_ fun _ _ hf => hf
      rintro ⟨status, frames⟩ u ⟨marked', hu, ht', hf⟩
      cases status with
      | running => exact hgo _ marked' u hu ht'
      | failure => exact hgo _ marked' u hu ht'
      | success =>
        refine ⟨by simp [hlen], fun _ => hf (by simp), _, marked', _, hu, ?_⟩
        intro x o hx
        have hx' : (x, o) ∈ (done ++ [k] ++ rest.map Prod.fst).zip (passed.reverse ++ [none] ++ rest.map Prod.snd) := by
          simpa using hx
        rw [List.zip_append (by simp [hlen])] at hx'
        rcases List.mem_append.mp hx' with hx | hx
        · exact .inl (hpassed' none x o hx)
        · rw [List.zip_map', List.mem_map] at hx
          obtain ⟨⟨x', o'⟩, hmem, he'⟩ := hx
          obtain ⟨rfl, rfl⟩ := Prod.mk.inj he'
          have hne : x' ≠ k := fun he' => hnodup.1 (he' ▸ List.mem_map.mpr ⟨_, hmem, rfl⟩)
          have hl := hw.left (List.mem_cons_of_mem _ hmem)
          change Function.update left k none x' = o' ∨ _ ∧ Function.update left k none x' = none ∧ o' = some ∅
          rw [Function.update_of_ne hne]
          cases fresh with
          | true => exact .inr ⟨rfl, hl, hempty rfl _ _ (List.mem_cons_of_mem _ hmem)⟩
          | false => exact .inl hl

omit he in
theorem abandon_empty : ({ t with env := t.env.abandon ∅ } : Tick σ) = t := by
  have hsweep : ∀ (rounds : Nat) (temps : Temps), Stack.sweep rounds [] temps = temps := by
    intro rounds temps
    cases rounds <;> rfl
  have henv : t.env.abandon ∅ = t.env := by
    rw [Env.abandon, Stack.clear]
    exact congrArg (fun temps => { t.env with temps }) (hsweep _ _)
  rw [henv]

omit he in
/-- The rivals of a winner are given up one after the other. -/
theorem abandonAll {pairs : List (NodeId × Option Stack)} (h : t.Stands R c s [] left marked todo)
    (hf : ¬ t.Flagged c) (hnodup : (pairs.map Prod.fst).Nodup)
    (hpairs : ∀ k o, (k, o) ∈ pairs → k ∈ c.tree.started s.node ∧ (left k = o ∨ left k = none ∧ o = some ∅))
    (hrest : ∀ k ∈ c.tree.started s.node, k ∉ pairs.map Prod.fst → left k = none) :
    ((do
      Engine.abandonAll (σ := σ) (pairs.map Prod.snd)
      return Status.success) c t).Meets (fun st u => u.Settles c s st) fun err u => u.Falls c s err := by
  induction pairs generalizing t left with
  | nil => exact h.settles rfl (fun k hk => hrest k hk (by simp)) (by simp)
  | cons b rest ih =>
    obtain ⟨k, o⟩ := b
    obtain ⟨hk, hnodup'⟩ := List.nodup_cons.mp hnodup
    have hne : ∀ {x o'}, (x, o') ∈ rest → x ≠ k := by
      rintro x o' hmem rfl
      exact hk (List.mem_map.mpr ⟨_, hmem, rfl⟩)
    have hpairs' := fun x o' hmem => hpairs x o' (List.mem_cons_of_mem _ hmem)
    obtain ⟨hmem, hl⟩ := hpairs k o List.mem_cons_self
    have hidle : left k = none → ∀ x ∈ c.tree.started s.node, x ∉ rest.map Prod.fst → left x = none := by
      intro hnone x hx hnot
      by_cases hxk : x = k
      · rw [hxk, hnone]
      · exact hrest x hx (by simpa [hxk] using hnot)
    cases o with
    | none => exact ih h hf hnodup' hpairs' (hidle (hl.elim id fun hl => hl.1))
    | some st =>
      change ((do
        abandon st
        Engine.abandonAll (σ := σ) (rest.map Prod.snd)
        return Status.success) c t).Meets _ _
      rw [meets_bind, meets_abandon]
      rcases hl with hl | ⟨hl, hst⟩
      · refine ih (h.abandon hf hmem hl) hf hnodup' ?_ ?_
        · intro x o' hx
          rw [Function.update_of_ne (hne hx)]
          exact hpairs' x o' hx
        · intro x hx hnot
          by_cases hxk : x = k
          · rw [hxk, Function.update_self]
          · rw [Function.update_of_ne hxk]
            exact hrest x hx (by simpa [hxk] using hnot)
      · obtain rfl := Option.some.inj hst
        rw [abandon_empty]
        exact ih h hf hnodup' hpairs' (hidle hl)

theorem race (hb : s.node.behavior = .race) (h : t.Begins R c s) :
    (e.race s.node.toSite c t).Meets (fun st u => u.Settles c s st) fun err u => u.Falls c s err := by
  have habreast : s.node.Abreast := .inr hb
  have hgo : ∀ (fresh : Bool) (saved : List (Option Stack)), saved.length = s.node.children.length →
      (fresh = true → ∀ k o, (k, o) ∈ s.node.children.zip saved → o = some ∅) →
      s.Tells c.tree s.parked false → s.Awaits c.tree fresh s.parked (fun _ => True) (s.node.children.zip saved) →
      (e.stepRace s.node.toSite fresh saved c t).Meets (fun st u => u.Settles c s st)
        fun err u => u.Falls c s err := by
    intro fresh saved hlen hempty ht hw
    rw [stepRace, meets_bind]
    refine (@raceAll _ _ _ _ _ _ _ _ _ he habreast fresh [] _ _ rfl (by simp) (by simp) hempty h.stands ht hw).mono
      ?_ fun _ _ hf => hf
    rintro ⟨won, out⟩ u ⟨hout, hf, left', marked', todo', hu, hleft⟩
    rw [List.nil_append, List.map_fst_zip (by omega)] at hleft
    have hout' : out.length = s.node.children.length := by simpa [hlen] using hout
    cases won with
    | false =>
      refine settles_branches habreast (by simp) hu ⟨hout', fun k o hk => ?_⟩
      exact (hleft k o hk).resolve_right fun hl => by simp at hl
    | true =>
      have hpairs : out = (s.node.children.zip out).map Prod.snd := by rw [List.map_snd_zip (by omega)]
      have hkeys : (s.node.children.zip out).map Prod.fst = s.node.children := List.map_fst_zip (by omega)
      simp only [if_true]
      rw [hpairs]
      refine abandonAll hu (hf rfl) ?_ ?_ ?_
      · rw [hkeys]
        exact hu.orderly.nodup hu.get
      · intro k o hk
        refine ⟨?_, (hleft k o hk).imp_right fun hl => hl.2⟩
        rw [habreast.started]
        exact (List.of_mem_zip hk).1
      · intro k hk hnot
        rw [hkeys, ← habreast.started c.tree] at hnot
        exact absurd hk hnot
  rw [Engine.race]
  refine meets_savedBranches habreast h ?_ ?_
  · intro hown
    have hnone := Stance.parked_of_none hown
    refine hgo true _ (by simp) ?_ (fun _ => by simp [hnone]) (awaits habreast h (by simp) (by simp) ?_)
    · intro _ k o hk
      obtain ⟨_, _, rfl⟩ := List.mem_map.mp (List.of_mem_zip hk).2
      rfl
    · intro k _ _
      exact hnone k
  · intro saved hown hsaved
    have hne : s.own ≠ none := by simp [hown]
    exact hgo false saved hsaved.1 (by simp) (Stance.tells_of_own hne)
      (awaits habreast h hsaved.1 (fun _ => hne) hsaved.2)

end Engine.Sound

end BehaviorTree
