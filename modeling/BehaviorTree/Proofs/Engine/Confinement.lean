import BehaviorTree.Proofs.Engine.Zone

/-!
Every node stays in the zones that it belongs to, whatever state it finds there. No node ever asks for a child that
is not there.
-/

namespace BehaviorTree
set_option autoImplicit false

open TickM

variable {σ : Type}

namespace Zone

variable {t : Tree} (z : Zone t)

def Floor (id : NodeId) (frames : List NodeId) : Prop :=
  z.steady → ∀ x, frames.head? = some x → t.Region id x → x = id

/-- In a steady zone there are frames of some nodes more than before, and none more if nothing is running. -/
def Rises (B : NodeId → Prop) (frames : List NodeId) (status : Status) (frames' : List NodeId) : Prop :=
  z.steady → ∃ above, frames' = above ++ frames ∧ (∀ x ∈ above, B x) ∧ (status ≠ .running → above = [])

/-- In a steady zone a node that has its frame on top takes it away when it has ended. -/
def Returns (id : NodeId) (frames : List NodeId) (status : Status) (frames' : List NodeId) : Prop :=
  z.steady → (status = .running → ∃ above, frames' = above ++ frames ∧ ∀ x ∈ above, t.Region id x) ∧
    (status ≠ .running → frames = id :: frames')

/-- In a steady zone a node that has ended has no frame, and if it was on top then only its frame is gone. -/
def Ends (id : NodeId) (frames : List NodeId) (status : Status) (frames' : List NodeId) : Prop :=
  z.steady → (status = .running → ∃ above, frames' = above ++ frames ∧ ∀ x ∈ above, t.Region id x) ∧
    (status ≠ .running → frames' = frames ∨ frames = id :: frames')

variable {z} {B : NodeId → Prop} {id k : NodeId} {frames frames' frames'' : List NodeId} {status status' : Status}

namespace Rises

theorem same : z.Rises B frames status frames := fun _ => ⟨[], rfl, by simp, fun _ => rfl⟩

theorem eq (h : z.Rises B frames status frames') (hs : status ≠ .running) (hz : z.steady) : frames' = frames := by
  obtain ⟨above, hf, _, hnil⟩ := h hz
  rw [hf, hnil hs, List.nil_append]

theorem floor (h : z.Rises B frames status frames') (hs : status ≠ .running) (hf : z.Floor id frames) :
    z.Floor id frames' := by
  intro hz
  rw [h.eq hs hz]
  exact hf hz

theorem trans (h : z.Rises B frames status frames') (hs : status ≠ .running) (h' : z.Rises B frames' status' frames'') :
    z.Rises B frames status' frames'' := by
  intro hz
  rw [← h.eq hs hz]
  exact h' hz

theorem of_same (h : z.steady → frames' = frames) : z.Rises B frames status frames' := by
  intro hz
  rw [h hz]
  exact same hz

end Rises

theorem Floor.of_same (hf : z.Floor id frames) (h : z.steady → frames' = frames) : z.Floor id frames' := by
  intro hz
  rw [h hz]
  exact hf hz

end Zone

structure Engine.Confined (e : Engine σ) (R : Rules σ) : Prop where
  run {c : Activation} {z : Zone c.tree} {id : NodeId} {frames : List NodeId} : z.calls id → z.Floor id frames →
    z.Stays R frames (e.run id) (z.Ends id frames)
  resume {c : Activation} {z : Zone c.tree} {id : NodeId} {frames frames' : List NodeId} :
    z.base.length ≤ frames.length → z.Floor id frames → z.Rises (c.tree.Below id) frames .running frames' →
    z.Stays R frames' (e.resume frames.length) (z.Rises (c.tree.Below id) frames)

namespace Node

def Chains (n : Node) : Prop := n.behavior = .sequence ∨ n.behavior = .selector

def Iterates (n : Node) : Prop := n.behavior = .forEach ∨ ∃ count, n.behavior = .loop count

def Abreast (n : Node) : Prop := n.behavior = .parallel ∨ n.behavior = .race

/-- A node that passes its only child's result on in some way. -/
def Wraps (n : Node) : Prop := n.behavior = .invert ∨ (∃ status, n.behavior = .always status) ∨ n.behavior = .once

end Node

/-- What a list that begins somewhere in another begins with. -/
theorem cons_eq_drop {α : Type} {x : α} {xs ys : List α} {i : Nat} (h : x :: xs = ys.drop i) :
    ∃ hi : i < ys.length, x = ys[i] ∧ xs = ys.drop (i + 1) := by
  have hi : i < ys.length := by
    by_contra hge
    rw [List.drop_eq_nil_of_le (by omega)] at h
    cases h
  rw [List.drop_eq_getElem_cons hi] at h
  exact ⟨hi, List.cons.inj h⟩

namespace Engine.Confined

open Zone

variable {R : Rules σ} {c : Activation} {z : Zone c.tree} {e : Engine σ} {n : Node} {k : NodeId}
  {frames frames' : List NodeId} {B : NodeId → Prop} {status : Status}

section Frames

variable (he : e.Confined R)
include he

theorem resumeAbove {id : NodeId} (hl : z.base.length ≤ frames.length) (hfl : z.Floor id frames)
    (hr : z.Rises (c.tree.Below id) frames .running frames') :
    z.Stays R frames' (e.resumeAbove frames.length) (z.Rises (c.tree.Below id) frames) := by
  refine .bind .env fun env frames₁ henv' => ?_
  obtain ⟨hsame, henv, hs⟩ := henv'
  obtain rfl : frames' = frames₁ := hsame.symm
  have hdone : env.stack.size ≤ frames.length → ∀ status, z.Rises (c.tree.Below id) frames status frames' := by
    intro hle status hz
    obtain ⟨above, hf, hb, _⟩ := hr hz
    have hnil : above = [] := by
      rw [Stack.size, hs, hf, List.length_append] at hle
      exact List.eq_nil_of_length_eq_zero (by omega)
    exact ⟨above, hf, hb, fun _ => hnil⟩
  cases htop : env.stack.top? with
  | none =>
    refine .pure (hdone ?_ _)
    rw [Stack.size, List.head?_eq_none_iff.mp htop]
    exact Nat.zero_le _
  | some top =>
    simp only
    split
    · rename_i hsize
      exact .pure (hdone hsize _)
    · rename_i hsize
      obtain ⟨above, hframes, hadm⟩ := henv.frames
      have hmem : top ∈ above := by
        rw [Stack.top?, hframes] at htop
        rw [Stack.size, hframes, List.length_append] at hsize
        cases above with
        | nil => simp at hsize; omega
        | cons x above =>
          obtain rfl : x = top := by simpa using htop
          exact List.mem_cons_self
      have hhead : frames'.head? = some top := by rw [← hs]; exact htop
      have hfloor : z.Floor top frames' := by
        intro _ x hx _
        rw [hhead] at hx
        exact (Option.some.inj hx).symm
      refine .bind (he.run (hadm top hmem).1 hfloor) fun status frames'' hrun => ?_
      have hstill : z.Rises (c.tree.Below id) frames .running frames'' := by
        intro hz
        obtain ⟨above', hf, hb, _⟩ := hr hz
        obtain ⟨x, rest, rfl⟩ : ∃ x rest, above' = x :: rest := by
          cases above' with
          | cons x rest => exact ⟨x, rest, rfl⟩
          | nil =>
            rw [Stack.size, hs, hf] at hsize
            exact absurd (Nat.le_refl _) hsize
        obtain rfl : x = top := by
          rw [hf] at hhead
          simpa using hhead
        by_cases hst : status = .running
        · obtain ⟨more, hf', hb'⟩ := (hrun hz).1 hst
          refine ⟨more ++ x :: rest, by rw [hf', hf, List.append_assoc], ?_, fun hne => absurd rfl hne⟩
          intro y hy
          rcases List.mem_append.mp hy with hy | hy
          · exact (hb x List.mem_cons_self).trans (hb' y hy)
          · exact hb y hy
        · rcases (hrun hz).2 hst with hf' | hf'
          · exact ⟨x :: rest, by rw [hf', hf], hb, fun hne => absurd rfl hne⟩
          · rw [hf, List.cons_append] at hf'
            exact ⟨rest, (List.cons.inj hf').2.symm, fun y hy => hb y (List.mem_cons_of_mem _ hy),
              fun hne => absurd rfl hne⟩
      cases status with
      | running => exact .pure hstill
      | success => exact he.resume hl hfl hstill
      | failure => exact he.resume hl hfl hstill

omit he in
/-- Frames that are cut off above the floor are the zone's. -/
theorem capture (hl : z.base.length ≤ frames.length) (hr : z.Rises B frames status frames') :
    z.Stays R frames' (capture (σ := σ) status frames.length) fun s frames'' =>
      (∀ y ∈ s.frames, z.Admits y ∧ (z.steady → B y)) ∧ (z.steady → frames'' = frames) := by
  intro t t' hf hs
  have hended : status ≠ .running → z.steady → t'.env.stack.frames = frames := fun hne hz => hs.trans (hr.eq hne hz)
  cases status with
  | success => exact ⟨hf, List.forall_mem_nil _, hended (by simp)⟩
  | failure => exact ⟨hf, List.forall_mem_nil _, hended (by simp)⟩
  | running =>
    obtain ⟨above, hframes, hadm⟩ := hf.holds.frames
    have hk : t'.env.stack.size - frames.length ≤ above.length := by
      rw [Stack.size, hframes, List.length_append]
      omega
    have hcut : t'.env.stack.splitAt frames.length =
        (⟨above.drop (t'.env.stack.size - frames.length) ++ z.base⟩,
          ⟨above.take (t'.env.stack.size - frames.length)⟩) := by
      rw [Stack.splitAt, hframes, List.drop_append_of_le_length hk, List.take_append_of_le_length hk]
    have hsteady : z.steady → ∃ more, t'.env.stack.splitAt frames.length = (⟨frames⟩, ⟨more⟩) ∧ ∀ x ∈ more, B x := by
      intro hz
      obtain ⟨more, hmore, hb, _⟩ := hr hz
      refine ⟨more, ?_, hb⟩
      have heq : t'.env.stack = (⟨frames⟩ : Stack) ++ (⟨more⟩ : Stack) := congrArg Stack.mk (hs.trans hmore)
      rw [heq]
      exact Stack.splitAt_append ⟨frames⟩ ⟨more⟩
    rw [TickM.capture, meets_bind, meets_env, hcut]
    refine ⟨hf.setStack _ fun x hx => hadm x (List.mem_of_mem_drop hx), ?_, ?_⟩
    · intro y hy
      refine ⟨hadm y (List.mem_of_mem_take hy), fun hz => ?_⟩
      obtain ⟨more, hmore, hb⟩ := hsteady hz
      rw [hcut] at hmore
      obtain rfl : _ = more := congrArg Stack.frames (congrArg Prod.snd hmore)
      exact hb y hy
    · intro hz
      obtain ⟨more, hmore, _⟩ := hsteady hz
      rw [hcut] at hmore
      exact congrArg Stack.frames (congrArg Prod.fst hmore)

omit he in
theorem runCaptured {id : NodeId}
    (hrun : z.Stays R frames (e.run id) (z.Rises B frames)) :
    z.Stays R frames (e.runCaptured id) fun r frames' =>
      (∀ y ∈ r.2.frames, z.Admits y ∧ (z.steady → B y)) ∧ (z.steady → frames' = frames) := by
  refine .bind .env ?_
  rintro env _ ⟨rfl, henv, rfl⟩
  obtain ⟨above, hframes, _⟩ := henv.frames
  have hl : z.base.length ≤ env.stack.frames.length := by
    rw [hframes, List.length_append]
    omega
  exact .bind hrun fun status frames' hr => .bind (capture hl hr) fun left _ hleft => .pure hleft

theorem resumeCaptured {id : NodeId} {saved : Stack} (hfl : z.Floor id frames)
    (hs : ∀ y ∈ saved.frames, z.Names id y) :
    z.Stays R frames (e.resumeCaptured saved) fun r frames' =>
      (∀ y ∈ r.2.frames, z.Names id y) ∧ (z.steady → frames' = frames) := by
  refine .bind .env ?_
  rintro env _ ⟨rfl, henv, rfl⟩
  obtain ⟨above, hframes, _⟩ := henv.frames
  have hl : z.base.length ≤ env.stack.frames.length := by
    rw [hframes, List.length_append]
    omega
  refine .bind (P := fun _ frames' => frames' = saved.frames ++ env.stack.frames) ?_ ?_
  · intro t t' hf hst
    obtain ⟨above, hframes, hadm⟩ := hf.holds.frames
    have happ : t'.env.stack ++ saved = ⟨(saved.frames ++ above) ++ z.base⟩ := by
      rw [List.append_assoc, ← hframes]
      rfl
    rw [meets_modifyEnv]
    refine ⟨?_, by rw [← hst]; rfl⟩
    rw [happ]
    refine hf.setStack _ ?_
    intro x hx
    rcases List.mem_append.mp hx with hx | hx
    · exact (hs x hx).1
    · exact hadm x hx
  · rintro _ _ rfl
    have hrise : z.Rises (c.tree.Below id) env.stack.frames .running (saved.frames ++ env.stack.frames) :=
      fun hz => ⟨saved.frames, rfl, fun x hx => (hs x hx).2 hz, fun hne => absurd rfl hne⟩
    exact .bind (he.resume hl hfl hrise) fun status frames' hr => .bind (capture hl hr) fun left _ hleft => .pure hleft

end Frames

section Nodes

variable (ht : c.tree.Orderly) (hn : c.tree.get? n.id = some n) (hz : z.region n.id)

include hn hz

theorem calls_started (hk : k ∈ c.tree.started n) : z.calls k := z.closed hz ⟨n, hn, hk⟩

omit hz in
include ht in
theorem pair_of_case (hb : n.behavior = .switch) {id : NodeId} {m : Node}
    (hid : id ∈ n.children) (hm : c.tree.get? id = some m) :
    ∃ a b, m.children[0]? = some a ∧ m.children[1]? = some b ∧ a ∈ c.tree.started n ∧ b ∈ c.tree.started n := by
  have hcase := ht.case_of_switch hn hb hid hm
  have hsup := ht.supplied hm
  rw [hcase] at hsup
  have h0 : 0 < m.children.length := by simp [Behavior.needs] at hsup; omega
  have h1 : 1 < m.children.length := by simp [Behavior.needs] at hsup; omega
  have hmem : ∀ {k : Nat} (hk : k < m.children.length), k < 2 → m.children[k] ∈ c.tree.started n := by
    intro k hk hlt
    rw [Tree.started, hb]
    refine List.mem_flatMap.mpr ⟨id, hid, Tree.mem_pair.mpr ⟨m, hm, ?_⟩⟩
    exact List.mem_of_getElem? (i := k) (by rw [List.getElem?_take_of_lt hlt, List.getElem?_eq_getElem hk])
  exact ⟨_, _, List.getElem?_eq_getElem h0, List.getElem?_eq_getElem h1, hmem h0 (by omega), hmem h1 (by omega)⟩

omit hz in
include ht in
theorem child {i : Nat} (hi : i < n.behavior.needs) (hs : c.tree.started n = n.children.take n.behavior.needs) :
    z.Rests R (child (σ := σ) n.toSite i) fun k => k ∈ c.tree.started n := by
  have hlt : i < n.children.length := Nat.lt_of_lt_of_le hi (ht.supplied hn)
  have hmem : n.children[i] ∈ c.tree.started n := by
    rw [hs]
    refine List.mem_of_getElem? (i := i) ?_
    rw [List.getElem?_take_of_lt hi, List.getElem?_eq_getElem hlt]
  have hchild : n.children[i]? = some n.children[i] := List.getElem?_eq_getElem hlt
  refine Rests.mono (.element hchild) fun a ha => ?_
  rw [ha]
  exact hmem

include ht

omit hz in
theorem floor_started (hk : k ∈ c.tree.started n) (hfl : z.Floor n.id frames) : z.Floor k frames := by
  intro hs x hx hr
  obtain rfl := hfl hs x hx (.of_starts ⟨n, hn, hk⟩ hr)
  exact absurd hr (ht.not_region_of_starts ⟨n, hn, hk⟩)

variable (he : e.Confined R)
include he

/-- A child that has ended leaves the frames as they were. -/
theorem runChild (hk : k ∈ c.tree.started n) (hfl : z.Floor n.id frames) :
    z.Stays R frames (e.run k) (z.Rises (c.tree.Below n.id) frames) := by
  have hst : c.tree.Starts n.id k := ⟨n, hn, hk⟩
  refine (he.run (calls_started hn hz hk) (floor_started ht hn hk hfl)).mono ?_
  intro status frames' hrun hs
  by_cases hr : status = .running
  · obtain ⟨above, hf, hb⟩ := (hrun hs).1 hr
    exact ⟨above, hf, fun x hx => ⟨k, hst, hb x hx⟩, fun hne => absurd hr hne⟩
  · rcases (hrun hs).2 hr with hf | hf
    · exact ⟨[], hf, by simp, fun _ => rfl⟩
    · have hhead : frames.head? = some k := by rw [hf]; rfl
      exact absurd (hfl hs k hhead (.of_starts hst (.refl _))).symm (ht.ne_of_starts hst)

theorem runOrSuspend {f : Status → TickM σ Status} {p : Payload} (hk : k ∈ c.tree.started n)
    (hfl : z.Floor n.id frames) (hp : n.Saves p) (hnest : p.nested = []) (hrun : f .running = suspend n.toSite p)
    (hend : ∀ status frames', status ≠ .running → z.Floor n.id frames' →
      z.Stays R frames' (f status) (z.Rises (c.tree.Below n.id) frames')) :
    z.Stays R frames (e.run k >>= f) (z.Rises (c.tree.Below n.id) frames) := by
  refine .bind (runChild ht hn hz he hk hfl) fun status frames' hr => ?_
  by_cases hs : status = .running
  · subst hs
    rw [hrun]
    refine .of_rests (.suspendFlat hn hz hp hnest) fun _ h => ?_
    rw [h]
    exact hr
  · exact (hend status frames' hs (hr.floor hs hfl)).mono fun _ _ => hr.trans hs

theorem chain (hb : n.Chains) (next : Status) {ids : List NodeId} {i : Nat} (hids : ids = n.children.drop i)
    (hfl : z.Floor n.id frames) :
    z.Stays R frames (e.chain n.toSite next i ids) (z.Rises (c.tree.Below n.id) frames) := by
  have hstart : c.tree.started n = n.children := by rcases hb with hb | hb <;> simp [Tree.started, hb]
  induction ids generalizing i frames with
  | nil => exact .pure .same
  | cons id ids ih =>
    obtain ⟨hi, hid, htail⟩ := cons_eq_drop hids
    have hmem : id ∈ c.tree.started n := by
      rw [hstart, hid]
      exact List.getElem_mem hi
    have hsaves : n.Saves (.index i) := by rcases hb with hb | hb <;> simpa [Node.Saves, hb] using hi
    rw [Engine.chain]
    refine runOrSuspend ht hn hz he hmem hfl hsaves rfl rfl fun status frames' hs hfl' => ?_
    cases status with
    | running => exact absurd rfl hs
    | success =>
      simp only
      split
      · exact ih htail hfl'
      · exact .pure .same
    | failure =>
      simp only
      split
      · exact ih htail hfl'
      · exact .pure .same

theorem resumeChain (hb : n.Chains) (next : Status) (hfl : z.Floor n.id frames) :
    z.Stays R frames (e.resumeChain n.toSite next) (z.Rises (c.tree.Below n.id) frames) := by
  rw [Engine.resumeChain]
  refine .after (.saved? hn hz) fun saved hs => ?_
  cases saved with
  | none => exact chain ht hn hz he hb next rfl hfl
  | some p =>
    cases p
    case index i =>
      refine .after (.childStatus _) fun status _ => ?_
      split
      · exact chain ht hn hz he hb next rfl hfl
      · exact .pure .same
    all_goals exact .rejectPayload _

theorem caseAction (hb : n.behavior = .switch) {i : Nat} {pair : List NodeId} (hi : i < n.children.length)
    (hpair : pair[1]? = some k) (hk : k ∈ c.tree.started n) (hfl : z.Floor n.id frames) :
    z.Stays R frames (e.caseAction n.toSite i pair) (z.Rises (c.tree.Below n.id) frames) := by
  have hsaves : n.Saves (.step (actionPhase i)) := by
    simp only [Node.Saves, hb, actionPhase]
    omega
  rw [Engine.caseAction]
  refine .after (.element hpair) fun _ h => ?_
  subst h
  refine runOrSuspend ht hn hz he hk hfl hsaves rfl rfl fun status frames' hs _ => ?_
  cases status with
  | running => exact absurd rfl hs
  | success => exact .pure .same
  | failure => exact .pure .same

theorem tryCases (hb : n.behavior = .switch) {ids : List NodeId} {i : Nat} (hids : ids = n.children.drop i)
    (hfl : z.Floor n.id frames) :
    z.Stays R frames (e.tryCases n.toSite i ids) (z.Rises (c.tree.Below n.id) frames) := by
  induction ids generalizing i frames with
  | nil => exact .pure .same
  | cons id ids ih =>
    obtain ⟨hi, hid, htail⟩ := cons_eq_drop hids
    have hmem : id ∈ n.children := by
      rw [hid]
      exact List.getElem_mem hi
    have hsaves : n.Saves (.step (conditionPhase i)) := by
      simp only [Node.Saves, hb, conditionPhase]
      omega
    rw [Engine.tryCases]
    refine .after (.node id) fun m hm => ?_
    obtain ⟨a, b, ha, hb', hra, hrb⟩ := pair_of_case ht hn hb hmem hm
    refine .after (.element ha) fun _ h => ?_
    subst h
    refine runOrSuspend ht hn hz he hra hfl hsaves rfl rfl fun status frames' hs hfl' => ?_
    cases status with
    | running => exact absurd rfl hs
    | success => exact caseAction ht hn hz he hb hi hb' hrb hfl'
    | failure => exact ih htail hfl'

theorem switch (hb : n.behavior = .switch) (hfl : z.Floor n.id frames) :
    z.Stays R frames (e.switch n.toSite) (z.Rises (c.tree.Below n.id) frames) := by
  rw [Engine.switch]
  refine .after (.saved? hn hz) fun saved hs => ?_
  cases saved with
  | none => exact tryCases ht hn hz he hb rfl hfl
  | some p =>
    cases p
    case step phase =>
      have hphase : phase / 2 < n.children.length := by simpa [Node.Saves, hb] using (hs _ rfl).1
      refine .after (.childStatus _) fun status _ => ?_
      simp only
      split
      · exact .pure .same
      · split
        · have hchild : n.children[phase / 2]? = some n.children[phase / 2] := List.getElem?_eq_getElem hphase
          refine .after (.element hchild) fun _ h => ?_
          subst h
          refine .after (.node _) fun m hm => ?_
          obtain ⟨_, b, _, hb', _, hrb⟩ := pair_of_case ht hn hb (List.getElem_mem hphase) hm
          exact caseAction ht hn hz he hb hphase hb' hrb hfl
        · exact tryCases ht hn hz he hb rfl hfl
    all_goals exact .rejectPayload _

theorem branchAt (hb : n.behavior = .ifElse) {position : Nat} (hlt : position < 3) (hfl : z.Floor n.id frames) :
    z.Stays R frames (e.branchAt n.toSite position) (z.Rises (c.tree.Below n.id) frames) := by
  have hsaves : n.Saves (.step position) := by simpa [Node.Saves, hb] using hlt
  refine .after (child ht hn (by rw [hb]; exact hlt) (by simp [Tree.started, hb])) fun id hid => ?_
  refine runOrSuspend ht hn hz he hid hfl hsaves rfl rfl fun status frames' hs _ => ?_
  cases status with
  | running => exact absurd rfl hs
  | success => exact .pure .same
  | failure => exact .pure .same

theorem branch (hb : n.behavior = .ifElse) {status : Status} (hs : status ≠ .running) (hfl : z.Floor n.id frames) :
    z.Stays R frames (e.branch n.toSite status) (z.Rises (c.tree.Below n.id) frames) := by
  cases status with
  | running => exact absurd rfl hs
  | success => exact branchAt ht hn hz he hb (show 1 < 3 by decide) hfl
  | failure => exact branchAt ht hn hz he hb (show 2 < 3 by decide) hfl

theorem ifElse (hb : n.behavior = .ifElse) (hfl : z.Floor n.id frames) :
    z.Stays R frames (e.ifElse n.toSite) (z.Rises (c.tree.Below n.id) frames) := by
  rw [Engine.ifElse]
  refine .after (.saved? hn hz) fun saved hs => ?_
  cases saved with
  | none =>
    refine .after (child ht hn (by simp [hb, Behavior.needs]) (by simp [Tree.started, hb])) fun id hid => ?_
    exact runOrSuspend ht hn hz he hid hfl (p := .step 0) (by simp [Node.Saves, hb]) rfl rfl
      fun status frames' hs hfl' => branch ht hn hz he hb hs hfl'
  | some p =>
    cases p
    case step position =>
      cases position with
      | zero => exact .after (.childStatus _) fun status hs => branch ht hn hz he hb hs hfl
      | succ _ => exact .of_rests (.childStatus _) fun _ _ => .same
    all_goals exact .rejectPayload _

/-- A pass leaves the frames as they were unless a child is running. -/
theorem pass (hb : n.Iterates) (iteration : Nat) {ids : List NodeId} {i : Nat} (hids : ids = n.children.drop i)
    (hfl : z.Floor n.id frames) {g : PassEnd → TickM σ Status} (hsus : g .suspended = pure .running)
    (hfail : g .failed = pure .failure)
    (hpass : ∀ frames', z.Floor n.id frames' →
      z.Stays R frames' (g .passed) (z.Rises (c.tree.Below n.id) frames')) :
    z.Stays R frames (e.pass n.toSite iteration i ids >>= g) (z.Rises (c.tree.Below n.id) frames) := by
  have hstart : c.tree.started n = n.children := by rcases hb with hb | ⟨_, hb⟩ <;> simp [Tree.started, hb]
  induction ids generalizing i frames with
  | nil => exact hpass frames hfl
  | cons id ids ih =>
    obtain ⟨hi, hid, htail⟩ := cons_eq_drop hids
    have hmem : id ∈ c.tree.started n := by
      rw [hstart, hid]
      exact List.getElem_mem hi
    have hsaves : n.Saves (.cursor iteration i) := by rcases hb with hb | ⟨_, hb⟩ <;> simpa [Node.Saves, hb] using hi
    rw [Engine.pass, bind_assoc]
    refine runOrSuspend ht hn hz he hmem hfl hsaves rfl ?_ fun status frames' hs hfl' => ?_
    · funext c t
      change g .suspended c _ = _
      rw [hsus]
      rfl
    · cases status with
      | running => exact absurd rfl hs
      | success => exact ih htail hfl'
      | failure =>
        change z.Stays R frames' (g .failed) _
        rw [hfail]
        exact .pure .same

variable {enter : Nat → TickM σ Unit} {iterations : Nat}

theorem passes (hb : n.Iterates) (hent : ∀ i < iterations, z.Rests R (enter i) fun _ => True) {count iteration : Nat}
    (hcount : iteration + count ≤ iterations) (hfl : z.Floor n.id frames) :
    z.Stays R frames (e.passes n.toSite enter count iteration) (z.Rises (c.tree.Below n.id) frames) := by
  induction count generalizing iteration frames with
  | zero => exact .pure .same
  | succ count ih =>
    rw [Engine.passes]
    refine .after (hent iteration (by omega)) fun _ _ => ?_
    exact pass ht hn hz he hb iteration rfl hfl rfl rfl fun frames' hfl' => ih (by omega) hfl'

theorem iterate (hb : n.Iterates) (hent : ∀ i < iterations, z.Rests R (enter i) fun _ => True)
    (hfl : z.Floor n.id frames) :
    z.Stays R frames (e.iterate n.toSite iterations enter) (z.Rises (c.tree.Below n.id) frames) := by
  rw [Engine.iterate]
  refine .after (.saved? hn hz) fun saved hs => ?_
  cases saved with
  | none => exact passes ht hn hz he hb hent (by omega) hfl
  | some p =>
    cases p
    case cursor iteration i =>
      refine .after (.childStatus _) fun status _ => ?_
      cases status with
      | running => exact .pure .same
      | failure => exact .pure .same
      | success =>
        simp only
        split
        · exact pass ht hn hz he hb iteration rfl hfl rfl rfl fun frames' hfl' =>
            passes ht hn hz he hb hent (by omega) hfl'
        · exact .pure .same
    all_goals exact .rejectPayload _

omit ht he hn hz in
theorem writeSlot (name : Option String) (value : Option Value) :
    z.Rests R (writeSlot (σ := σ) name value) fun _ => True := by
  cases name with
  | none => exact .pure trivial
  | some name => exact .modifyEnv (g := (·.set name value)) (fun _ => rfl) (fun _ => rfl) fun _ => rfl

theorem forEach (hb : n.behavior = .forEach) (hfl : z.Floor n.id frames) :
    z.Stays R frames (e.forEach n.toSite) (z.Rises (c.tree.Below n.id) frames) := by
  rw [Engine.forEach]
  refine .after .env fun env _ => ?_
  cases env.input? 0 with
  | none => exact .after (.report _) fun _ _ => .pure .same
  | some v =>
    cases v
    case array items =>
      refine iterate ht hn hz he (.inl hb) (fun i hi => ?_) hfl
      exact .bind (.element (List.getElem?_eq_getElem hi)) fun _ _ =>
        .bind (writeSlot _ _) fun _ _ => writeSlot _ _
    all_goals exact .after (.report _) fun _ _ => .pure .same

theorem loop {count : Nat} (hb : n.behavior = .loop count) (hfl : z.Floor n.id frames) :
    z.Stays R frames (e.loop n.toSite count) (z.Rises (c.tree.Below n.id) frames) :=
  iterate ht hn hz he (.inr ⟨count, hb⟩) (fun _ _ => writeSlot _ _) hfl

def Fine {t : Tree} (z : Zone t) (id : NodeId) (saved : Option Stack) : Prop :=
  ∀ s, saved = some s → ∀ y ∈ s.frames, z.Names id y

omit ht hn hz he in
theorem fine_none : Fine z n.id none := by
  rintro _ ⟨⟩

omit ht hn hz he in
theorem fine_some {s : Stack} (hs : ∀ y ∈ s.frames, z.Names n.id y) : Fine z n.id (some s) := by
  rintro _ ⟨⟩
  exact hs

theorem stepBranch {saved : Option Stack} (hk : k ∈ c.tree.started n) (hfl : z.Floor n.id frames)
    (hs : Fine z n.id saved) :
    z.Stays R frames (e.stepBranch k saved) fun r frames' =>
      Fine z n.id (some r.2) ∧ (z.steady → frames' = frames) := by
  cases saved with
  | none =>
    refine (runCaptured (runChild ht hn hz he hk hfl)).mono ?_
    rintro r frames' ⟨hr, hsame⟩
    exact ⟨fine_some hr, hsame⟩
  | some s =>
    refine (resumeCaptured he hfl (hs s rfl)).mono ?_
    rintro r frames' ⟨hr, hsame⟩
    exact ⟨fine_some hr, hsame⟩

omit ht he in
theorem savedBranches :
    z.Rests R (savedBranches (σ := σ) n.toSite) fun previous =>
      ∀ saved, previous = some saved → saved.length = n.children.length ∧ ∀ s ∈ saved, Fine z n.id s := by
  rw [Engine.savedBranches]
  refine .bind (.saved? hn hz) fun saved hs => ?_
  cases saved with
  | none => exact .pure (by simp)
  | some p =>
    cases p
    case branches saved =>
      simp only
      split
      · rename_i hlen
        refine .pure ?_
        rintro _ ⟨⟩
        refine ⟨hlen, ?_⟩
        rintro s hmem s' rfl y hy
        refine (hs _ rfl).2 y (List.mem_flatMap.mpr ⟨s', ?_, hy⟩)
        exact List.mem_filterMap.mpr ⟨some s', hmem, rfl⟩
      · exact fun _ => .rejectPayload _
    all_goals exact fun _ => .rejectPayload _

theorem stepAll (fresh : Bool) {branches : List (NodeId × Option Stack)} (hfl : z.Floor n.id frames)
    (hreg : ∀ b ∈ branches, b.1 ∈ c.tree.started n ∧ Fine z n.id b.2) :
    z.Stays R frames (e.stepAll fresh branches) fun left frames' =>
      (left.length = branches.length ∧ ∀ s ∈ left, Fine z n.id s) ∧ (z.steady → frames' = frames) := by
  induction branches generalizing frames with
  | nil => exact .pure (by simp)
  | cons b rest ih =>
    obtain ⟨id, saved⟩ := b
    obtain ⟨hid, hsaved⟩ := hreg _ List.mem_cons_self
    have hrest : ∀ {frames' : List NodeId}, (z.steady → frames' = frames) → ∀ {s : Option Stack}, Fine z n.id s →
        z.Stays R frames' (do return s :: (← e.stepAll fresh rest)) fun left frames'' =>
          (left.length = ((id, saved) :: rest).length ∧ ∀ s ∈ left, Fine z n.id s) ∧
            (z.steady → frames'' = frames) := by
      intro frames' hsame s hs
      have hfl' : z.Floor n.id frames' := hfl.of_same hsame
      refine .bind (ih hfl' fun b hb => hreg b (List.mem_cons_of_mem _ hb)) fun left frames'' h => .pure ?_
      obtain ⟨⟨hlen, hleft⟩, hsame'⟩ := h
      refine ⟨⟨by simp [hlen], ?_⟩, fun hst => (hsame' hst).trans (hsame hst)⟩
      intro s' hs'
      rcases List.mem_cons.mp hs' with rfl | hs'
      · exact hs
      · exact hleft s' hs'
    rw [Engine.stepAll]
    split
    · exact hrest (fun _ => rfl) fine_none
    · refine .bind (stepBranch ht hn hz he hid hfl ?_) fun r frames' h => ?_
      · split
        · exact fine_none
        · exact hsaved
      · obtain ⟨status, left⟩ := r
        obtain ⟨hr, hsame⟩ := h
        refine hrest hsame ?_
        split
        · exact hr
        · exact fine_none

omit ht hn hz he in
theorem fine_zip (hb : n.Abreast) {saved : List (Option Stack)} (hs : ∀ s ∈ saved, Fine z n.id s) :
    ∀ b ∈ n.children.zip saved, b.1 ∈ c.tree.started n ∧ Fine z n.id b.2 := by
  have hstart : c.tree.started n = n.children := by rcases hb with hb | hb <;> simp [Tree.started, hb]
  rintro ⟨id, s⟩ hmem
  obtain ⟨hid, hs'⟩ := List.of_mem_zip hmem
  exact ⟨hstart ▸ hid, hs s hs'⟩

omit ht he in
theorem suspendBranches (hb : n.Abreast) {left : List (Option Stack)} (hlen : left.length = n.children.length)
    (hleft : ∀ s ∈ left, Fine z n.id s) :
    z.Rests R (suspend (σ := σ) n.toSite (.branches left)) fun _ => True := by
  refine (Rests.suspend hn hz ?_ ?_).mono fun _ _ => trivial
  · rcases hb with hb | hb <;> simpa [Node.Saves, hb] using hlen
  · intro y hy
    obtain ⟨s, hs, hy⟩ := List.mem_flatMap.mp hy
    obtain ⟨s', hs', rfl⟩ := List.mem_filterMap.mp hs
    exact hleft _ hs' s rfl y hy

theorem parallel (hb : n.behavior = .parallel) (hfl : z.Floor n.id frames) :
    z.Stays R frames (e.parallel n.toSite) (z.Rises (c.tree.Below n.id) frames) := by
  rw [Engine.parallel]
  refine .after (savedBranches hn hz) fun previous hprev => ?_
  have hsaved : (previous.getD (n.children.map fun _ => none)).length = n.children.length ∧
      ∀ s ∈ previous.getD (n.children.map fun _ => none), Fine z n.id s := by
    cases previous with
    | none =>
      refine ⟨by simp, ?_⟩
      intro s hs
      obtain ⟨_, _, rfl⟩ := List.mem_map.mp hs
      exact fine_none
    | some saved => exact hprev saved rfl
  refine .bind (stepAll ht hn hz he _ hfl (fine_zip (.inl hb) hsaved.2)) fun left frames' h => ?_
  obtain ⟨⟨hlen, hleft⟩, hsame⟩ := h
  split
  · refine .of_rests (suspendBranches hn hz (.inl hb) ?_ hleft) fun _ _ => .of_same hsame
    rw [hlen, List.length_zip, hsaved.1, Nat.min_self]
  · exact .pure (.of_same hsame)

theorem raceAll (fresh : Bool) {passed : List (Option Stack)} {branches : List (NodeId × Option Stack)}
    (hfl : z.Floor n.id frames) (hpassed : ∀ s ∈ passed, Fine z n.id s)
    (hreg : ∀ b ∈ branches, b.1 ∈ c.tree.started n ∧ Fine z n.id b.2) :
    z.Stays R frames (e.raceAll fresh passed branches) fun r frames' =>
      (r.2.length = passed.length + branches.length ∧ ∀ s ∈ r.2, Fine z n.id s) ∧ (z.steady → frames' = frames) := by
  induction branches generalizing passed frames with
  | nil => exact .pure ⟨⟨by simp, fun s hs => hpassed s (List.mem_reverse.mp hs)⟩, fun _ => rfl⟩
  | cons b rest ih =>
    obtain ⟨id, saved⟩ := b
    obtain ⟨hid, hsaved⟩ := hreg _ List.mem_cons_self
    have hreg' : ∀ b ∈ rest, b.1 ∈ c.tree.started n ∧ Fine z n.id b.2 :=
      fun b hb => hreg b (List.mem_cons_of_mem _ hb)
    have hrest : ∀ {frames' : List NodeId}, (z.steady → frames' = frames) → ∀ {s : Option Stack}, Fine z n.id s →
        z.Stays R frames' (e.raceAll fresh (s :: passed) rest) fun r frames'' =>
          (r.2.length = passed.length + ((id, saved) :: rest).length ∧ ∀ s ∈ r.2, Fine z n.id s) ∧
          (z.steady → frames'' = frames) := by
      intro frames' hsame s hs
      have hmore : ∀ s' ∈ s :: passed, Fine z n.id s' := by
        intro s' hs'
        rcases List.mem_cons.mp hs' with rfl | hs'
        · exact hs
        · exact hpassed s' hs'
      refine (ih (hfl.of_same hsame) hmore hreg').mono ?_
      rintro r frames'' ⟨⟨hlen, hleft⟩, hsame'⟩
      refine ⟨⟨?_, hleft⟩, fun hst => (hsame' hst).trans (hsame hst)⟩
      rw [hlen]
      simp only [List.length_cons]
      omega
    rw [Engine.raceAll]
    split
    · exact hrest (fun _ => rfl) fine_none
    · refine .bind (stepBranch ht hn hz he hid hfl ?_) fun r frames' h => ?_
      · split
        · exact fine_none
        · exact hsaved
      · obtain ⟨status, left⟩ := r
        obtain ⟨hr, hsame⟩ := h
        cases status with
        | running => exact hrest hsame hr
        | failure => exact hrest hsame fine_none
        | success =>
          refine .pure ⟨⟨by simp, ?_⟩, hsame⟩
          intro s hs
          rcases List.mem_append.mp hs with hs | hs
          · exact hpassed s (List.mem_reverse.mp hs)
          · rcases List.mem_cons.mp hs with rfl | hs
            · exact fine_none
            · obtain ⟨b, hb, rfl⟩ := List.mem_map.mp hs
              exact (hreg' b hb).2

omit ht hn hz he in
theorem abandonAll {saved : List Stack} (hs : ∀ s ∈ saved, ∀ y ∈ s.frames, z.Admits y) :
    z.Rests R (saved.forM (abandon (σ := σ))) fun _ => True := by
  induction saved with
  | nil => exact .pure trivial
  | cons s saved ih =>
    exact .bind (.abandon (hs s List.mem_cons_self)) fun _ _ => ih fun s hs' => hs s (List.mem_cons_of_mem _ hs')

theorem race (hb : n.behavior = .race) (hfl : z.Floor n.id frames) :
    z.Stays R frames (e.race n.toSite) (z.Rises (c.tree.Below n.id) frames) := by
  rw [Engine.race]
  refine .after (savedBranches hn hz) fun previous hprev => ?_
  have hsaved : (previous.getD (n.children.map fun _ => some ∅)).length = n.children.length ∧
      ∀ s ∈ previous.getD (n.children.map fun _ => some ∅), Fine z n.id s := by
    cases previous with
    | none =>
      refine ⟨by simp, ?_⟩
      intro s hs
      obtain ⟨_, _, rfl⟩ := List.mem_map.mp hs
      rintro _ ⟨⟩ y hy
      cases hy
    | some saved => exact hprev saved rfl
  refine .bind (raceAll ht hn hz he _ hfl (by simp) (fine_zip (.inr hb) hsaved.2)) fun r frames' h => ?_
  obtain ⟨won, left⟩ := r
  obtain ⟨⟨hlen, hleft⟩, hsame⟩ := h
  simp only
  split
  · refine .after (abandonAll ?_) fun _ _ => .pure (.of_same hsame)
    intro s hs y hy
    obtain ⟨s', hs', rfl⟩ := List.mem_filterMap.mp hs
    exact (hleft _ hs' s rfl y hy).1
  · split
    · refine .of_rests (suspendBranches hn hz (.inr hb) ?_ hleft) fun _ _ => .of_same hsame
      rw [hlen, List.length_zip, hsaved.1, Nat.min_self, List.length_nil, Nat.zero_add]
    · exact .pure (.of_same hsame)

theorem cleanUp (hb : n.behavior = .watchdog) (hfl : z.Floor n.id frames) :
    z.Stays R frames (e.cleanUp n.toSite) fun _ frames' => z.steady → frames' = frames := by
  rw [Engine.cleanUp]
  refine .after (child ht hn (by simp [hb, Behavior.needs]) (by simp [Tree.started, hb])) fun id hid => ?_
  refine .bind (runCaptured (runChild ht hn hz he hid hfl)) fun r frames' h => ?_
  obtain ⟨status, left⟩ := r
  obtain ⟨hr, hsame⟩ := h
  simp only
  split
  · exact .after (.report _) fun _ _ => .of_rests (.abandon fun y hy => (hr y hy).1) fun _ _ => hsame
  · exact .pure hsame

theorem guarded (hb : n.behavior = .watchdog) {saved : Option Stack} (hs : Fine z n.id saved)
    (hfl : z.Floor n.id frames) :
    z.Stays R frames (e.guarded n.toSite saved) (z.Rises (c.tree.Below n.id) frames) := by
  rw [Engine.guarded]
  refine .after (child ht hn (by simp [hb, Behavior.needs]) (by simp [Tree.started, hb])) fun id hid => ?_
  refine .bind (stepBranch ht hn hz he hid hfl hs) fun r frames' h => ?_
  obtain ⟨status, left⟩ := r
  obtain ⟨hr, hsame⟩ := h
  cases status with
  | running =>
    refine .of_rests (.suspend hn hz (by simp [Node.Saves, hb]) ?_) fun _ _ => .of_same hsame
    simpa [Payload.nestedFrames, Payload.nested] using hr left rfl
  | success => exact .pure (.of_same hsame)
  | failure => exact .pure (.of_same hsame)

theorem guardFailed (hb : n.behavior = .watchdog) {saved : Stack} (hs : ∀ y ∈ saved.frames, z.Names n.id y)
    (hfl : z.Floor n.id frames) :
    z.Stays R frames (e.guardFailed n.toSite saved) (z.Rises (c.tree.Below n.id) frames) := by
  rw [Engine.guardFailed]
  exact .after (.report _) fun _ _ => .after (.abandon fun y hy => (hs y hy).1) fun _ _ =>
    .bind (cleanUp ht hn hz he hb hfl) fun _ _ hsame => .pure (.of_same hsame)

theorem guard (hb : n.behavior = .watchdog) {saved : Option Stack} (hsaved : Fine z n.id saved)
    (hfl : z.Floor n.id frames) :
    z.Stays R frames (e.guard n.toSite saved) (z.Rises (c.tree.Below n.id) frames) := by
  refine .after (child ht hn (by simp [hb, Behavior.needs]) (by simp [Tree.started, hb])) fun guard hguard => ?_
  refine .bind (runChild ht hn hz he hguard hfl) fun status frames' hr => ?_
  cases status with
  | running => exact .rejectStatus _ _
  | success =>
    exact (guarded ht hn hz he hb hsaved (hr.floor (by simp) hfl)).mono fun _ _ => hr.trans (by simp)
  | failure =>
    cases saved with
    | none => exact .pure hr
    | some saved =>
      exact (guardFailed ht hn hz he hb (hsaved saved rfl) (hr.floor (by simp) hfl)).mono
        fun _ _ => hr.trans (by simp)

theorem watchdog (hb : n.behavior = .watchdog) (hfl : z.Floor n.id frames) :
    z.Stays R frames (e.watchdog n.toSite) (z.Rises (c.tree.Below n.id) frames) := by
  rw [Engine.watchdog]
  refine .after (.saved? hn hz) fun saved hs => ?_
  cases saved with
  | none => exact guard ht hn hz he hb fine_none hfl
  | some p =>
    cases p
    case guarded saved =>
      refine guard ht hn hz he hb (fine_some ?_) hfl
      simpa [Payload.nestedFrames, Payload.nested] using (hs _ rfl).2
    all_goals exact .rejectPayload _

omit ht he in
theorem expire {limit : Float} (hb : n.behavior = .timeout limit) (expiry : Float) {r : Status × Stack}
    (hr : ∀ y ∈ r.2.frames, z.Names n.id y) : z.Rests R (expire (σ := σ) n.toSite expiry r) fun _ => True := by
  obtain ⟨status, left⟩ := r
  cases status with
  | success => exact .pure trivial
  | failure => exact .pure trivial
  | running =>
    refine .bind .time fun now _ => ?_
    split
    · exact .bind (.report _) fun _ _ => .bind (.abandon fun y hy => (hr y hy).1) fun _ _ => .pure trivial
    · refine (Rests.suspend hn hz (by simp [Node.Saves, hb]) ?_).mono fun _ _ => trivial
      simpa [Payload.nestedFrames, Payload.nested]

theorem timeout {limit : Float} (hb : n.behavior = .timeout limit) (hfl : z.Floor n.id frames) :
    z.Stays R frames (e.timeout n.toSite limit) (z.Rises (c.tree.Below n.id) frames) := by
  rw [Engine.timeout]
  refine .after (.saved? hn hz) fun saved hs => ?_
  cases saved with
  | none =>
    refine .after (child ht hn (by simp [hb, Behavior.needs]) (by simp [Tree.started, hb])) fun id hid => ?_
    refine .bind (stepBranch ht hn hz he hid hfl fine_none) fun r frames' h => .after .time fun _ _ => ?_
    exact .of_rests (expire hn hz hb _ (h.1 r.2 rfl)) fun _ _ => .of_same h.2
  | some p =>
    cases p
    case deadline expiry saved =>
      refine .bind (resumeCaptured he hfl ?_) fun r frames' h => ?_
      · simpa [Payload.nestedFrames, Payload.nested] using (hs _ rfl).2
      · exact .of_rests (expire hn hz hb _ h.1) fun _ _ => .of_same h.2
    all_goals exact .rejectPayload _

theorem wrap (hb : n.Wraps) (result : Status → Status) (hfl : z.Floor n.id frames) :
    z.Stays R frames (e.wrap n.toSite result) (z.Rises (c.tree.Below n.id) frames) := by
  have hneeds : 0 < n.behavior.needs := by rcases hb with hb | ⟨_, hb⟩ | hb <;> simp [hb, Behavior.needs]
  have hstart : c.tree.started n = n.children.take n.behavior.needs := by
    rcases hb with hb | ⟨_, hb⟩ | hb <;> simp [Tree.started, hb]
  have hsaves : n.Saves .marker := by rcases hb with hb | ⟨_, hb⟩ | hb <;> simp [Node.Saves, hb]
  rw [Engine.wrap]
  refine .bind (P := z.Rises (c.tree.Below n.id) frames) ?_ fun status frames' hr => ?_
  · rw [Engine.onlyChild]
    refine .after (.saved? hn hz) fun saved hs => ?_
    cases saved with
    | none => exact .after (child ht hn hneeds hstart) fun id hid => runChild ht hn hz he hid hfl
    | some p =>
      cases p
      case marker => exact .of_rests (.childStatus _) fun _ _ => .same
      all_goals exact .rejectPayload _
  · cases status with
    | running =>
      refine .of_rests (.suspendFlat hn hz hsaves rfl) fun _ h => ?_
      rw [h]
      exact hr
    | success => exact .pure (.of_same (hr.eq (by simp)))
    | failure => exact .pure (.of_same (hr.eq (by simp)))

theorem once (hb : n.behavior = .once) (hfl : z.Floor n.id frames) :
    z.Stays R frames (e.once n.toSite) (z.Rises (c.tree.Below n.id) frames) := by
  have hwrap := wrap ht hn hz he (.inr (.inr hb)) id hfl
  rw [Engine.once]
  refine .after .env fun env _ => ?_
  split
  · exact hwrap
  · split
    · exact .pure .same
    · exact .after (.modifyEnv (fun _ => rfl) (fun _ => rfl) fun _ => rfl) fun _ _ => hwrap

omit ht he in
theorem countRun {limit : Option Nat} {policy : RepeatPolicy} (hb : n.behavior = .repeated limit policy) (done : Nat)
    (status : Status) : z.Rests R (countRun (σ := σ) n.toSite limit policy done status) fun _ => True := by
  rw [Engine.countRun]
  split
  · exact .pure trivial
  · split
    · exact .pure trivial
    · exact (Rests.suspendFlat hn hz (by simp [Node.Saves, hb]) rfl).mono fun _ _ => trivial

theorem startRun {limit : Option Nat} {policy : RepeatPolicy} (hb : n.behavior = .repeated limit policy) (done : Nat)
    (hfl : z.Floor n.id frames) :
    z.Stays R frames (e.startRun n.toSite limit policy done) (z.Rises (c.tree.Below n.id) frames) := by
  rw [Engine.startRun]
  split
  · exact .pure .same
  · refine .after (child ht hn (by simp [hb, Behavior.needs]) (by simp [Tree.started, hb])) fun id hid => ?_
    refine runOrSuspend ht hn hz he hid hfl (p := .repeated done true) (by simp [Node.Saves, hb]) rfl rfl
      fun status frames' hs _ => ?_
    cases status with
    | running => exact absurd rfl hs
    | success => exact .of_rests (countRun hn hz hb done _) fun _ _ => .same
    | failure => exact .of_rests (countRun hn hz hb done _) fun _ _ => .same

theorem repeated {limit : Option Nat} {policy : RepeatPolicy} (hb : n.behavior = .repeated limit policy)
    (hfl : z.Floor n.id frames) :
    z.Stays R frames (e.repeated n.toSite limit policy) (z.Rises (c.tree.Below n.id) frames) := by
  rw [Engine.repeated]
  refine .after (.saved? hn hz) fun saved hs => ?_
  cases saved with
  | none => exact startRun ht hn hz he hb 0 hfl
  | some p =>
    cases p
    case repeated done childRunning =>
      cases childRunning with
      | true =>
        exact .after (.childStatus _) fun status _ => .of_rests (countRun hn hz hb done status) fun _ _ => .same
      | false => exact startRun ht hn hz he hb done hfl
    all_goals exact .rejectPayload _

omit ht he in
theorem action (hh : e.Honors R) (ha : n.behavior.IsAction) :
    z.Rests R (e.behave n.toSite n.behavior) fun _ => True := by
  intro frames t t' hf hs
  refine ((acts_behave hh ha hn hf.runs).mono ?_ fun _ u h => hf.calm h.2).halts fun _ => .inl
  rintro status u hacts
  cases hacts with
  | done hcalm _ => exact ⟨hf.calm hcalm, hcalm.stack ▸ hs, trivial⟩
  | suspended hcalm _ hsaves hp hu =>
    rw [hu]
    exact ⟨(hf.calm hcalm).setPayload hn hz (.inl hsaves) (by simp [Payload.nestedFrames, hp]),
      hcalm.stack ▸ hs, trivial⟩

theorem behave (hh : e.Honors R) (hfl : z.Floor n.id frames) :
    z.Stays R frames (e.behave n.toSite n.behavior) (z.Rises (c.tree.Below n.id) frames) := by
  have hplain := ht.plain hn
  have haction : n.behavior.IsAction →
      z.Stays R frames (e.behave n.toSite n.behavior) (z.Rises (c.tree.Below n.id) frames) :=
    fun ha => .of_rests (action hn hz hh ha) fun _ _ => .same
  cases hb : n.behavior <;> rw [hb] at haction hplain
  case sequence => exact resumeChain ht hn hz he (.inl hb) _ hfl
  case selector => exact resumeChain ht hn hz he (.inr hb) _ hfl
  case parallel => exact parallel ht hn hz he hb hfl
  case race => exact race ht hn hz he hb hfl
  case switch => exact switch ht hn hz he hb hfl
  case case => exact .after .tree fun _ _ => .fail
  case ifElse => exact ifElse ht hn hz he hb hfl
  case forEach => exact forEach ht hn hz he hb hfl
  case loop => exact loop ht hn hz he hb hfl
  case watchdog => exact watchdog ht hn hz he hb hfl
  case repeated => exact repeated ht hn hz he hb hfl
  case invert => exact wrap ht hn hz he (.inl hb) _ hfl
  case always => exact wrap ht hn hz he (.inr (.inl ⟨_, hb⟩)) _ hfl
  case once => exact once ht hn hz he hb hfl
  case timeout => exact timeout ht hn hz he hb hfl
  case routine => exact hplain.elim
  all_goals exact haction trivial

omit ht hn hz he in
theorem calm_writeOutputs {t t' : Tick σ} (h : t.Calm R c t') (names : List String) (values : List (Option Value)) :
    t.Calm R c { t' with env := writeOutputs t'.env names values } := by
  rw [writeOutputs]
  generalize names.zip values = pairs
  induction pairs generalizing t' with
  | nil => exact h
  | cons pair rest ih =>
    obtain ⟨name, value⟩ := pair
    by_cases hname : name = ""
    · simpa [hname] using ih h
    · simpa [hname] using ih (h.set name value)

theorem withSlots (hh : e.Honors R) (hfl : z.Floor n.id frames) :
    z.Stays R frames (e.withSlots n) fun r frames' =>
      ∀ status, r.1 = .ok status → z.Rises (c.tree.Below n.id) frames status frames' := by
  rw [Engine.withSlots]
  refine .after .env fun before _ => .after (.modifyEnv (fun _ => rfl) (fun _ => rfl) fun _ => rfl) fun _ _ => ?_
  refine .bind (P := fun r frames' => ∀ status, r = .ok status → z.Rises (c.tree.Below n.id) frames status frames') ?_
    fun r frames' hr => .after .env fun _ _ =>
      .after (.modifyEnv (fun _ => rfl) (fun _ => rfl) fun _ => rfl) fun _ _ => .pure hr
  intro t t' hf hs
  rw [meets_attempt]
  refine (behave ht hn hz he hh hfl t t' hf hs).mono ?_ fun _ _ h => ⟨h, by simp⟩
  rintro status u ⟨hu, hr⟩
  refine ⟨hu, ?_⟩
  rintro _ ⟨⟩
  exact hr

end Nodes

section Calls

variable (ht : c.tree.Orderly) (hn : c.tree.get? n.id = some n) (hz : z.calls n.id)

include hz

theorem pushFrame {t t' : Tick σ} (hf : z.From R t t') (hs : t'.env.temps[n.id]? = none) :
    z.From R t { t' with env := { t'.env with stack := t'.env.stack.push n.id } } := by
  obtain ⟨above, hframes, hadm⟩ := hf.holds.frames
  have hpush : t'.env.stack.push n.id = ⟨(n.id :: above) ++ z.base⟩ := by rw [Stack.push, hframes, List.cons_append]
  rw [hpush]
  refine hf.setStack _ ?_
  intro x hx
  rcases List.mem_cons.mp hx with rfl | hx
  · exact ⟨hz, fun hstray => hf.holds.strays hstray hs⟩
  · exact hadm x hx

theorem leaveFrame (status : Status) :
    z.Stays R frames (leaveFrame (σ := σ) n.id status) fun status' frames' =>
      status' = status ∧ frames = n.id :: frames' := by
  intro t t' hf hs
  rw [Engine.leaveFrame, meets_bind, meets_env]
  split
  · rename_i htop
    obtain ⟨above, hframes, hadm⟩ := hf.holds.frames
    cases above with
    | nil =>
      rw [Stack.top?, hframes, List.nil_append] at htop
      exact absurd hz (z.apart (List.mem_of_mem_head? htop))
    | cons x above =>
      have hx : x = n.id := by
        rw [Stack.top?, hframes] at htop
        simpa using htop
      subst hx
      have hget : ∀ y, (t'.env.temps.erase n.id)[y]? = if n.id = y then none else t'.env.temps[y]? := by
        simp [Std.ExtTreeMap.getElem?_erase]
      have hpop : t'.env.popFrame =
          { t'.env with stack := ⟨above ++ z.base⟩, temps := t'.env.temps.erase n.id } := by
        simp [Env.popFrame, Stack.pop, hframes]
      rw [meets_bind, meets_modifyEnv, hpop]
      refine ⟨hf.env ⟨⟨above, rfl, fun y hy => hadm y (List.mem_cons_of_mem _ hy)⟩, ?_, hf.holds.parked, ?_, ?_⟩
        ⟨?_, fun _ => rfl⟩, rfl, hs.symm.trans hframes⟩
      · intro y w p hy hp hw
        rw [hget] at hp
        split at hp
        · cases hp
        · exact hf.holds.nested hy hp hw
      · intro y hy
        rw [hget, if_neg]
        · exact hf.holds.strays hy
        · rintro rfl
          exact (hadm _ List.mem_cons_self).2 hy
      · intro y m p hm hp
        rw [hget] at hp
        split at hp
        · cases hp
        · exact hf.holds.fits y m p hm hp
      · intro y hy
        rw [hget, if_neg]
        rintro rfl
        exact hy (z.within hz)
  · exact hf

include hn

theorem conclude (status : Status) (output : List (Option Value)) :
    z.Stays R frames (Engine.conclude (σ := σ) n status output) fun status' frames' =>
      status' = status ∧ (status = .running → frames' = frames) ∧
        (status ≠ .running → frames = n.id :: frames') := by
  unfold Engine.conclude
  refine .after (.modifyEnv (fun _ => rfl) (fun _ => rfl) fun _ => rfl) fun _ _ => ?_
  have hends : status ≠ .running → z.Stays R frames (do
      modifyEnv fun env => writeOutputs env n.output output
      Engine.leaveFrame n.id status) fun status' frames' =>
        status' = status ∧ (status = .running → frames' = frames) ∧
          (status ≠ .running → frames = n.id :: frames') := by
    intro hne
    refine .bind (P := fun _ frames' => frames' = frames) ?_ fun _ frames' hsame => ?_
    · intro t t' hf hs
      have hcalm := calm_writeOutputs (.refl hf.runs) n.output output
      exact ⟨hf.calm hcalm, hcalm.stack ▸ hs⟩
    · subst hsame
      exact (leaveFrame hz status).mono fun _ _ h => ⟨h.1, fun hr => absurd hr hne, fun _ => h.2⟩
  cases status with
  | success => exact hends (by simp)
  | failure => exact hends (by simp)
  | running =>
    refine .after .env fun env _ => ?_
    split
    · exact .pure ⟨rfl, fun _ => rfl, fun hne => absurd rfl hne⟩
    · exact .of_rests (.suspendMark hn (z.within hz)) fun _ h => ⟨h, fun _ => rfl, fun hne => absurd rfl hne⟩

variable (he : e.Confined R)
include ht he

theorem runFramed (hh : e.Honors R) (resumed : Bool) (hfl : z.Floor n.id frames) :
    z.Stays R frames (e.runFramed n resumed) (z.Returns n.id frames) := by
  have hnote : ∀ a : Activity, a.Quiet true → a.job? = none → a.isRequest = false → a.isClear = false →
      a.node? = some n.id → z.Rests R (observe (σ := σ) a) fun _ => True :=
    fun a hq hj hr hc hid frames t t' hf hs =>
      ⟨hf.observe hq hj hr hc fun x hx => Option.some.inj (hid.symm.trans hx) ▸ hz, hs, trivial⟩
  have hstill : ∀ {status frames'}, z.Rises (c.tree.Below n.id) frames status frames' → z.steady →
      ∃ above, frames' = above ++ frames ∧ ∀ x ∈ above, c.tree.Region n.id x := by
    intro status frames' hr hst
    obtain ⟨above, hf, hb, _⟩ := hr hst
    exact ⟨above, hf, fun x hx => (hb x hx).region⟩
  have hend : ∀ status output frames', z.Rises (c.tree.Below n.id) frames status frames' → z.Stays R frames' (do
      if n.debug then report fun tree => .nodeRun tree n.id n.name status resumed
      Engine.conclude n status output) (z.Returns n.id frames) := by
    intro status output frames' hr
    have hconclude : z.Stays R frames' (Engine.conclude (σ := σ) n status output) (z.Returns n.id frames) := by
      refine (conclude hn hz status output).mono ?_
      rintro _ frames'' ⟨rfl, hrunning, hleft⟩ hst
      refine ⟨fun hs => ?_, fun hs => ?_⟩
      · rw [hrunning hs]
        exact hstill hr hst
      · rw [← hr.eq hs hst]
        exact hleft hs
    split
    · exact .after (.report _) fun _ _ => hconclude
    · exact hconclude
  unfold Engine.runFramed
  refine .after (hnote _ rfl rfl rfl rfl rfl) fun _ _ => .bind (withSlots ht hn (z.within hz) he hh hfl) fun r frames' hr => ?_
  obtain ⟨result, output⟩ := r
  refine .after (hnote _ rfl rfl rfl rfl rfl) fun _ _ => ?_
  cases result with
  | error err => exact .bind (P := fun _ _ => False) .fail fun _ _ h => h.elim
  | ok status =>
    refine .bind (P := fun a frames'' => a = status ∧ frames'' = frames') (.pure ⟨rfl, rfl⟩) ?_
    rintro _ _ ⟨rfl, rfl⟩
    refine .after (O := fun _ => True) (fun _ t t' hf hs => ⟨hf, hs, trivial⟩) fun flagged _ => ?_
    split
    · exact .pure fun hst => ⟨fun _ => hstill (hr _ rfl) hst, fun hne => absurd rfl hne⟩
    · exact hend _ _ _ (hr _ rfl)

theorem runNode (hh : e.Honors R) (hfl : z.Floor n.id frames) :
    z.Stays R frames (e.runNode n) (z.Ends n.id frames) := by
  intro t t' hf hst
  simp only [Engine.runNode, meets_bind, meets_env]
  split
  · refine (runFramed ht hn hz he hh _ hfl t t' hf hst).mono (fun status u h => ⟨h.1, fun hz => ?_⟩) fun _ _ h => h
    exact ⟨(h.2 hz).1, fun hs => .inr ((h.2 hz).2 hs)⟩
  · rename_i hs
    rw [meets_bind, meets_modifyEnv]
    have hpush := pushFrame hz hf (by simpa [Env.isSuspended] using hs)
    have hfl' : z.Floor n.id (n.id :: frames) := by
      intro _ x hx _
      exact (Option.some.inj hx).symm
    refine (runFramed ht hn hz he hh _ hfl' t _ hpush (by simp [Stack.push, hst])).mono ?_ fun _ _ h => h
    rintro status u ⟨hu, hreturns⟩
    refine ⟨hu, fun hz => ⟨fun hr => ?_, fun hr => ?_⟩⟩
    · obtain ⟨above, hframes, hreg⟩ := (hreturns hz).1 hr
      refine ⟨above ++ [n.id], by rw [hframes, List.append_assoc]; rfl, ?_⟩
      intro x hx
      rcases List.mem_append.mp hx with hx | hx
      · exact hreg x hx
      · rw [List.mem_singleton.mp hx]
        exact .refl _
    · exact .inl (List.cons.inj ((hreturns hz).2 hr)).2.symm

end Calls

theorem runId (he : e.Confined R) (hh : e.Honors R) {id : NodeId} (hz : z.calls id) (hfl : z.Floor id frames) :
    z.Stays R frames (do e.runNode (← TickM.node id)) (z.Ends id frames) := by
  intro t t' hf hs
  have ht := hf.runs.orderly
  have hrun : z.Stays R frames (do e.runNode (← TickM.node id)) (z.Ends id frames) := by
    refine .after (.node id) fun n hn => ?_
    obtain rfl : n.id = id := ht.id_eq hn
    exact runNode ht hn hz he hh hfl
  exact hrun t t' hf hs

theorem succ {e' : Engine σ} (he : e.Confined R) (hh : e.Honors R)
    (hrun : e'.run = fun id => do e.runNode (← TickM.node id))
    (hresume : e'.resume = fun level => e.resumeAbove level) :
    e'.Confined R where
  run hid hfl := by
    rw [hrun]
    exact runId he hh hid hfl
  resume hl hfl hr := by
    rw [hresume]
    exact resumeAbove he hl hfl hr

end Engine.Confined

end BehaviorTree
