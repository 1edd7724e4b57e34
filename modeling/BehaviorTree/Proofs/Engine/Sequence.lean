import BehaviorTree.Proofs.Engine.Standing

/-!
Nodes that run one child at a time. While a child runs, the others are idle, and the payload that is saved when the
child is running names it.
-/

namespace BehaviorTree
set_option autoImplicit false

open TickM

variable {σ : Type}

/-- The behavior of a node is about to go, afresh or on a payload that the node has saved. -/
structure Tick.Begins (R : Rules σ) (c : Activation) (s : Stance) (t : Tick σ) : Prop where
  stands : t.Stands R c s [] s.parked false fun _ => True
  saves {p : Payload} : s.own = some p → s.node.Saves p
  ended {p : Payload} : s.own = some p → c.tree.awaited s.node p ≠ none → t.env.lastStatus ≠ .running
  entered : s.own = none → c.tree.Entered s.node.id

variable {R : Rules σ} {c : Activation} {t : Tick σ} {e : Engine σ} {s : Stance}

namespace Tick.Begins

variable (h : t.Begins R c s)
include h

/-- A node that parks no children has none but idle ones. -/
theorem alone (hp : ∀ p, Tree.parked s.node p = []) : t.Alone R c s := by
  refine h.stands.congr fun k _ => ?_
  cases hown : s.own with
  | none => simp [Stance.parked, hown]
  | some p => simp [Stance.parked, hown, hp]

theorem meets_saved {f : Option Payload → TickM σ Status} {Q : Status → Tick σ → Prop} {E : RunError → Tick σ → Prop}
    {H : Halt → Prop} : ((saved? s.node.toSite >>= f) c t).Meets Q E H ↔ (f s.own c t).Meets Q E H := by
  rw [meets_bind, meets_saved?, h.stands.own]

theorem meets_ended {f : Status → TickM σ Status} {Q : Status → Tick σ → Prop} {E : RunError → Tick σ → Prop}
    {p : Payload} {k : NodeId} (hown : s.own = some p) (haw : c.tree.awaited s.node p = some k) :
    ((childStatus s.node.toSite >>= f) c t).Meets Q E ↔ (f t.env.lastStatus c t).Meets Q E := by
  rw [meets_bind, meets_childStatus (h.ended hown (by simp [haw]))]

theorem calm {u : Tick σ} (hc : t.Calm R c u) : u.Begins R c s :=
  ⟨h.stands.calm hc, h.saves, fun hown haw => hc.lastStatus ▸ h.ended hown haw, h.entered⟩

end Tick.Begins

namespace Engine.Sound

variable (he : e.Sound R)
include he

theorem chain (hb : s.node.Chains) {next : Status}
    (hnext : next ≠ .running) {ids : List NodeId} {i : Nat} (hids : ids = s.node.children.drop i)
    (h : t.Alone R c s) :
    (e.chain s.node.toSite next i ids c t).Meets (fun st u => u.Settles c s st) fun err u => u.Falls c s err := by
  induction ids generalizing i t with
  | nil => exact h.settles rfl (fun _ _ => rfl) hnext
  | cons id ids ih =>
    obtain ⟨hi, rfl, htail⟩ := cons_eq_drop hids
    have hsaves : s.node.Saves (.index i) := by rcases hb with hb | hb <;> simpa [Node.Saves, hb] using hi
    have hawait : c.tree.awaited s.node (.index i) = some s.node.children[i] := by
      rcases hb with hb | hb <;> simp [Tree.awaited, hb, hi]
    rw [Engine.chain]
    refine he.run_alone h hsaves hawait rfl ?_
    intro status u hs hu _ _
    cases status with
    | running => exact absurd rfl hs
    | success =>
      simp only
      split
      · exact ih htail hu
      · exact hu.settles rfl (fun _ _ => rfl) hs
    | failure =>
      simp only
      split
      · exact ih htail hu
      · exact hu.settles rfl (fun _ _ => rfl) hs

theorem resumeChain (hb : s.node.Chains) {next : Status}
    (hnext : next ≠ .running) (h : t.Begins R c s) :
    (e.resumeChain s.node.toSite next c t).Meets (fun st u => u.Settles c s st) fun err u => u.Falls c s err := by
  have halone := h.alone fun p => by rcases hb with hb | hb <;> simp [Tree.parked, hb]
  rw [Engine.resumeChain, h.meets_saved]
  cases hown : s.own with
  | none => exact he.chain hb hnext rfl halone
  | some p =>
    have hsaves := h.saves hown
    cases p
    case index i =>
      have hi : i < s.node.children.length := by rcases hb with hb | hb <;> simpa [Node.Saves, hb] using hsaves
      have hawait : c.tree.awaited s.node (.index i) = some s.node.children[i] := by
        rcases hb with hb | hb <;> simp [Tree.awaited, hb, hi]
      rw [h.meets_ended hown hawait]
      split
      · exact he.chain hb hnext rfl halone
      · exact halone.settles rfl (fun _ _ => rfl) (h.ended hown (by simp [hawait]))
    all_goals rcases hb with hb | hb <;> simp [Node.Saves, hb] at hsaves

section Switch

variable (hb : s.node.behavior = .switch)
include hb

omit he in
/-- The payload of a switch names the condition or the action of a case. -/
theorem awaited_step {i k : Nat} {m : Node} {x : NodeId} (hi : i < s.node.children.length) (hk : k < 2)
    (hm : c.tree.get? s.node.children[i] = some m) (hx : m.children[k]? = some x) :
    s.node.Saves (.step (i * 2 + k)) ∧ c.tree.awaited s.node (.step (i * 2 + k)) = some x := by
  have hdiv : (i * 2 + k) / 2 = i := by omega
  have hmod : (i * 2 + k) % 2 = k := by omega
  refine ⟨by simpa only [Node.Saves, hb, hdiv] using hi, ?_⟩
  simp only [Tree.awaited, hb, hdiv, hmod, List.getElem?_eq_getElem hi, Option.bind_some, Tree.pair, hm]
  rw [List.getElem?_take_of_lt hk, hx]

omit he in
theorem exists_pair (h : t.Alone R c s) {i : Nat} (hi : i < s.node.children.length) :
    ∃ m a b, c.tree.get? s.node.children[i] = some m ∧ m.children[0]? = some a ∧ m.children[1]? = some b := by
  obtain ⟨m, hm, hcase⟩ := h.orderly.cases h.get hb (List.getElem_mem hi)
  have hsup := h.orderly.supplied hm
  rw [hcase, Behavior.needs] at hsup
  exact ⟨m, _, _, hm, List.getElem?_eq_getElem (by omega), List.getElem?_eq_getElem (by omega)⟩

theorem caseAction {i : Nat} {m : Node} {b : NodeId} (hi : i < s.node.children.length)
    (hm : c.tree.get? s.node.children[i] = some m) (hx : m.children[1]? = some b) (h : t.Alone R c s) :
    (e.caseAction s.node.toSite i m.children c t).Meets (fun st u => u.Settles c s st)
      fun err u => u.Falls c s err := by
  obtain ⟨hsaves, hawait⟩ := awaited_step hb hi (by decide) hm hx
  rw [Engine.caseAction, meets_bind, meets_element hx]
  refine he.run_alone h hsaves hawait rfl ?_
  intro status u hs hu _ _
  cases status with
  | running => exact absurd rfl hs
  | success => exact hu.settles rfl (fun _ _ => rfl) hs
  | failure => exact hu.settles rfl (fun _ _ => rfl) hs

theorem tryCases {ids : List NodeId} {i : Nat} (hids : ids = s.node.children.drop i) (h : t.Alone R c s) :
    (e.tryCases s.node.toSite i ids c t).Meets (fun st u => u.Settles c s st) fun err u => u.Falls c s err := by
  induction ids generalizing i t with
  | nil => exact h.settles rfl (fun _ _ => rfl) (by simp)
  | cons id ids ih =>
    obtain ⟨hi, rfl, htail⟩ := cons_eq_drop hids
    obtain ⟨m, a, b, hm, ha, hb'⟩ := exists_pair hb h hi
    obtain ⟨hsaves, hawait⟩ := awaited_step hb hi (by decide) hm ha
    rw [Engine.tryCases, meets_bind, meets_node hm, meets_bind, meets_element ha]
    refine he.run_alone h hsaves hawait rfl ?_
    intro status u hs hu _ _
    cases status with
    | running => exact absurd rfl hs
    | success => exact he.caseAction hb hi hm hb' hu
    | failure => exact ih htail hu

theorem switch (h : t.Begins R c s) :
    (e.switch s.node.toSite c t).Meets (fun st u => u.Settles c s st) fun err u => u.Falls c s err := by
  have halone := h.alone fun p => by simp [Tree.parked, hb]
  rw [Engine.switch, h.meets_saved]
  cases hown : s.own with
  | none => exact he.tryCases hb rfl halone
  | some p =>
    have hsaves := h.saves hown
    cases p
    case step phase =>
      have hi : phase / 2 < s.node.children.length := by simpa [Node.Saves, hb] using hsaves
      obtain ⟨m, a, b, hm, ha, hb'⟩ := exists_pair hb halone hi
      have hphase : phase = phase / 2 * 2 + phase % 2 := by omega
      have hlt : phase % 2 < 2 := by omega
      obtain ⟨x, hx⟩ : ∃ x, m.children[phase % 2]? = some x := by
        rcases Nat.mod_two_eq_zero_or_one phase with hmod | hmod
        · exact ⟨a, by rw [hmod, ha]⟩
        · exact ⟨b, by rw [hmod, hb']⟩
      obtain ⟨_, hawait⟩ := awaited_step hb hi hlt hm hx
      rw [← hphase] at hawait
      have hended := h.ended hown (by simp [hawait])
      rw [h.meets_ended hown hawait]
      simp only
      split
      · exact halone.settles rfl (fun _ _ => rfl) hended
      · split
        · rw [meets_bind, meets_child (List.getElem?_eq_getElem hi), meets_bind, meets_node hm]
          exact he.caseAction hb hi hm hb' halone
        · exact he.tryCases hb rfl halone
    all_goals simp [Node.Saves, hb] at hsaves

end Switch

theorem branchAt (hb : s.node.behavior = .ifElse) {position : Nat} (hlt : position < 3) (h : t.Alone R c s) :
    (e.branchAt s.node.toSite position c t).Meets (fun st u => u.Settles c s st) fun err u => u.Falls c s err := by
  have hsup := h.orderly.supplied h.get
  rw [hb, Behavior.needs] at hsup
  have hchild : s.node.children[position]? = some s.node.children[position] :=
    List.getElem?_eq_getElem (by omega)
  rw [Engine.branchAt, meets_bind, meets_child hchild]
  refine he.run_alone h (by simpa [Node.Saves, hb] using hlt) (by simp [Tree.awaited, hb, hchild]) rfl ?_
  intro status u hs hu _ _
  cases status with
  | running => exact absurd rfl hs
  | success => exact hu.settles rfl (fun _ _ => rfl) hs
  | failure => exact hu.settles rfl (fun _ _ => rfl) hs

theorem branch (hb : s.node.behavior = .ifElse) {status : Status} (hs : status ≠ .running) (h : t.Alone R c s) :
    (e.branch s.node.toSite status c t).Meets (fun st u => u.Settles c s st) fun err u => u.Falls c s err := by
  cases status with
  | running => exact absurd rfl hs
  | success => exact he.branchAt hb (show 1 < 3 by decide) h
  | failure => exact he.branchAt hb (show 2 < 3 by decide) h

theorem ifElse (hb : s.node.behavior = .ifElse) (h : t.Begins R c s) :
    (e.ifElse s.node.toSite c t).Meets (fun st u => u.Settles c s st) fun err u => u.Falls c s err := by
  have halone := h.alone fun p => by simp [Tree.parked, hb]
  have hsup := h.stands.orderly.supplied h.stands.get
  rw [hb, Behavior.needs] at hsup
  have hchild : ∀ position (hlt : position < 3), s.node.children[position]? = some s.node.children[position] :=
    fun position hlt => List.getElem?_eq_getElem (by omega)
  rw [Engine.ifElse, h.meets_saved]
  cases hown : s.own with
  | none =>
    rw [meets_bind, meets_child (hchild 0 (by decide))]
    refine he.run_alone halone (p := .step 0) (by simp [Node.Saves, hb]) ?_ rfl ?_
    · simp only [Tree.awaited, hb, hchild 0 (by decide)]
    · intro status u hs hu _ _
      exact he.branch hb hs hu
  | some p =>
    have hsaves := h.saves hown
    cases p
    case step position =>
      have hlt : position < 3 := by simpa [Node.Saves, hb] using hsaves
      have hawait : c.tree.awaited s.node (.step position) = some s.node.children[position] := by
        simp only [Tree.awaited, hb, hchild position hlt]
      have hended := h.ended hown (by simp [hawait])
      cases position with
      | zero =>
        change ((childStatus s.node.toSite >>= e.branch s.node.toSite) c t).Meets _ _
        rw [h.meets_ended hown hawait]
        exact he.branch hb hended halone
      | succ _ =>
        refine (meets_childStatus hended).mpr ?_
        exact halone.settles rfl (fun _ _ => rfl) hended
    all_goals simp [Node.Saves, hb] at hsaves

section Passes

variable (hb : s.node.Iterates)
include hb

/-- A pass that goes on in some way when all children have succeeded. -/
theorem pass {g : PassEnd → TickM σ Status} (hsus : g .suspended = pure .running) (hfail : g .failed = pure .failure)
    (hpass : ∀ u, u.Alone R c s →
      (g .passed c u).Meets (fun st u => u.Settles c s st) fun err u => u.Falls c s err)
    (iteration : Nat) {ids : List NodeId} {i : Nat} (hids : ids = s.node.children.drop i) (h : t.Alone R c s) :
    ((e.pass s.node.toSite iteration i ids >>= g) c t).Meets (fun st u => u.Settles c s st)
      fun err u => u.Falls c s err := by
  induction ids generalizing i t with
  | nil => exact hpass t h
  | cons id ids ih =>
    obtain ⟨hi, rfl, htail⟩ := cons_eq_drop hids
    have hsaves : s.node.Saves (.cursor iteration i) := by
      rcases hb with hb | ⟨_, hb⟩ <;> simpa [Node.Saves, hb] using hi
    have hawait : c.tree.awaited s.node (.cursor iteration i) = some s.node.children[i] := by
      rcases hb with hb | ⟨_, hb⟩ <;> simp [Tree.awaited, hb, hi]
    rw [Engine.pass, bind_assoc]
    refine he.run_alone h hsaves hawait ?_ ?_
    · funext c t
      change g .suspended c _ = _
      rw [hsus]
      rfl
    · intro status u hs hu _ _
      cases status with
      | running => exact absurd rfl hs
      | success => exact ih htail hu
      | failure =>
        change (g .failed c u).Meets _ _
        rw [hfail]
        exact hu.settles rfl (fun _ _ => rfl) hs

variable {enter : Nat → TickM σ Unit} {iterations : Nat}
  (hent : ∀ i < iterations, ∀ u : Tick σ, u.Runs R c → (enter i c u).Meets (fun _ v => u.Calm R c v) fun _ _ => False)
include hent

theorem passes {count iteration : Nat} (hcount : iteration + count ≤ iterations) (h : t.Alone R c s) :
    (e.passes s.node.toSite enter count iteration c t).Meets (fun st u => u.Settles c s st)
      fun err u => u.Falls c s err := by
  induction count generalizing iteration t with
  | zero => exact h.settles rfl (fun _ _ => rfl) (by simp)
  | succ count ih =>
    rw [Engine.passes, meets_bind]
    refine (hent iteration (by omega) t h.runs).mono ?_ fun _ _ hf => hf.elim
    intro _ u hcalm
    exact he.pass hb rfl rfl (fun v hv => ih (by omega) hv) iteration rfl (h.calm hcalm)

theorem iterate (h : t.Begins R c s) :
    (e.iterate s.node.toSite iterations enter c t).Meets (fun st u => u.Settles c s st)
      fun err u => u.Falls c s err := by
  have halone := h.alone fun p => by rcases hb with hb | ⟨_, hb⟩ <;> simp [Tree.parked, hb]
  rw [Engine.iterate, h.meets_saved]
  cases hown : s.own with
  | none => exact he.passes hb hent (by omega) halone
  | some p =>
    have hsaves := h.saves hown
    cases p
    case cursor iteration i =>
      have hi : i < s.node.children.length := by rcases hb with hb | ⟨_, hb⟩ <;> simpa [Node.Saves, hb] using hsaves
      have hawait : c.tree.awaited s.node (.cursor iteration i) = some s.node.children[i] := by
        rcases hb with hb | ⟨_, hb⟩ <;> simp [Tree.awaited, hb, hi]
      have hended := h.ended hown (by simp [hawait])
      rw [h.meets_ended hown hawait]
      cases hlast : t.env.lastStatus with
      | running => exact absurd hlast hended
      | failure => exact halone.settles rfl (fun _ _ => rfl) (by simp)
      | success =>
        simp only
        split
        · exact he.pass hb rfl rfl (fun u hu => he.passes hb hent (by omega) hu) iteration rfl halone
        · exact halone.settles rfl (fun _ _ => rfl) (by simp)
    all_goals rcases hb with hb | ⟨_, hb⟩ <;> simp [Node.Saves, hb] at hsaves

end Passes

omit he in
theorem meets_writeSlot {u v : Tick σ} {E : RunError → Tick σ → Prop} (h : u.Calm R c v) (name : Option String)
    (value : Option Value) : (writeSlot (σ := σ) name value c v).Meets (fun _ v => u.Calm R c v) E := by
  cases name with
  | none => exact h
  | some name => exact h.set name value

theorem loop {count : Nat} (hb : s.node.behavior = .loop count) (h : t.Begins R c s) :
    (e.loop s.node.toSite count c t).Meets (fun st u => u.Settles c s st) fun err u => u.Falls c s err :=
  he.iterate (.inr ⟨count, hb⟩) (fun _ _ _ hu => meets_writeSlot (.refl hu) _ _) h

theorem forEach (hb : s.node.behavior = .forEach) (h : t.Begins R c s) :
    (e.forEach s.node.toSite c t).Meets (fun st u => u.Settles c s st) fun err u => u.Falls c s err := by
  have halone := h.alone fun p => by simp [Tree.parked, hb]
  have hwarn : ({ t with world := t.world.report (.notAnArray c.tree.name s.node.id) } : Tick σ).Settles c s
      .failure :=
    (halone.calm ((Tick.Calm.refl halone.runs).report _)).settles rfl (fun _ _ => rfl) (by simp)
  rw [Engine.forEach, meets_bind, meets_env]
  cases t.env.input? 0 with
  | none => exact hwarn
  | some v =>
    cases v
    case array items =>
      refine he.iterate (.inl hb) (fun i hi u hu => ?_) h
      rw [meets_bind, meets_element (List.getElem?_eq_getElem hi), meets_bind]
      exact (meets_writeSlot (.refl hu) _ _).mono (fun _ v hv => meets_writeSlot hv _ _) fun _ _ hf => hf
    all_goals exact hwarn

section Repeated

variable {limit : Option Nat} {policy : RepeatPolicy} (hb : s.node.behavior = .repeated limit policy)
include hb

omit he in
theorem countRun {status : Status} (hs : status ≠ .running) (done : Nat) (h : t.Alone R c s) :
    (countRun s.node.toSite limit policy done status c t).Meets (fun st u => u.Settles c s st)
      fun err u => u.Falls c s err := by
  have hplain := h.orderly.plain h.get
  rw [hb, Behavior.Plain] at hplain
  rw [Engine.countRun]
  split
  · exact h.settles rfl (fun _ _ => rfl) hs
  · split
    · exact h.settles rfl (fun _ _ => rfl) hplain
    · refine h.settles_parking rfl (by simp [Node.Saves, hb]) (by simp [Tree.awaited, hb]) ?_ fun _ _ _ => rfl
      simp [Tree.parked, hb]

theorem startRun (done : Nat) (h : t.Alone R c s) :
    (e.startRun s.node.toSite limit policy done c t).Meets (fun st u => u.Settles c s st)
      fun err u => u.Falls c s err := by
  have hplain := h.orderly.plain h.get
  have hsup := h.orderly.supplied h.get
  rw [hb] at hplain hsup
  rw [Engine.startRun]
  split
  · exact h.settles rfl (fun _ _ => rfl) hplain
  · have hchild : s.node.children[0]? = some s.node.children[0] := List.getElem?_eq_getElem hsup
    rw [meets_bind, meets_child hchild]
    refine he.run_alone h (p := .repeated done true) (by simp [Node.Saves, hb]) ?_ rfl ?_
    · simp only [Tree.awaited, hb, hchild]
    · intro status u hs hu _ _
      cases status with
      | running => exact absurd rfl hs
      | success => exact countRun hb hs done hu
      | failure => exact countRun hb hs done hu

theorem repeated (h : t.Begins R c s) :
    (e.repeated s.node.toSite limit policy c t).Meets (fun st u => u.Settles c s st)
      fun err u => u.Falls c s err := by
  have halone := h.alone fun p => by simp [Tree.parked, hb]
  have hsup := halone.orderly.supplied halone.get
  rw [hb] at hsup
  rw [Engine.repeated, h.meets_saved]
  cases hown : s.own with
  | none => exact he.startRun hb 0 halone
  | some p =>
    have hsaves := h.saves hown
    cases p
    case repeated done childRunning =>
      cases childRunning with
      | false => exact he.startRun hb done halone
      | true =>
        have hawait : c.tree.awaited s.node (.repeated done true) = some s.node.children[0] := by
          simp only [Tree.awaited, hb]
          exact List.getElem?_eq_getElem hsup
        change ((childStatus s.node.toSite >>= Engine.countRun s.node.toSite limit policy done) c t).Meets _ _
        rw [h.meets_ended hown hawait]
        exact countRun hb (h.ended hown (by simp [hawait])) done halone
    all_goals simp [Node.Saves, hb] at hsaves

end Repeated

theorem wrap (hb : s.node.Wraps) {result : Status → Status}
    (hr : ∀ status, status ≠ .running → result status ≠ .running)
    (h : t.Begins R c s) :
    (e.wrap s.node.toSite result c t).Meets (fun st u => u.Settles c s st) fun err u => u.Falls c s err := by
  have halone := h.alone fun p => by rcases hb with hb | ⟨_, hb⟩ | hb <;> simp [Tree.parked, hb]
  have hsup : 1 ≤ s.node.children.length := by
    have hsup := halone.orderly.supplied halone.get
    rcases hb with hb | ⟨_, hb⟩ | hb <;> simpa [hb, Behavior.needs] using hsup
  have hchild : s.node.children[0]? = some s.node.children[0] := List.getElem?_eq_getElem hsup
  have hsaves : s.node.Saves .marker := by rcases hb with hb | ⟨_, hb⟩ | hb <;> simp [Node.Saves, hb]
  have hawait : c.tree.awaited s.node .marker = some s.node.children[0] := by
    rcases hb with hb | ⟨_, hb⟩ | hb <;> simp only [Tree.awaited, hb, hchild]
  have hend : ∀ (status : Status) (u : Tick σ), status ≠ .running → u.Alone R c s →
      (wrapped s.node.toSite result status c u).Meets (fun st u => u.Settles c s st)
        fun err u => u.Falls c s err := by
    intro status u hs hu
    cases status with
    | running => exact absurd rfl hs
    | success => exact hu.settles rfl (fun _ _ => rfl) (hr _ hs)
    | failure => exact hu.settles rfl (fun _ _ => rfl) (hr _ hs)
  rw [Engine.wrap, Engine.onlyChild, bind_assoc, h.meets_saved]
  cases hown : s.own with
  | none =>
    simp only [bind_assoc]
    rw [meets_bind, meets_child hchild]
    exact he.run_alone halone hsaves hawait rfl fun status u hs hu _ _ => hend status u hs hu
  | some p =>
    have hfound := h.saves hown
    cases p
    case marker =>
      refine (h.meets_ended hown hawait).mpr ?_
      exact hend _ t (h.ended hown (by simp [hawait])) halone
    all_goals rcases hb with hb | ⟨_, hb⟩ | hb <;> simp [Node.Saves, hb] at hfound

theorem once (hb : s.node.behavior = .once) (h : t.Begins R c s) :
    (e.once s.node.toSite c t).Meets (fun st u => u.Settles c s st) fun err u => u.Falls c s err := by
  have halone := h.alone fun p => by simp [Tree.parked, hb]
  rw [Engine.once, meets_bind, meets_env]
  split
  · exact he.wrap (.inr (.inr hb)) (fun _ hs => hs) h
  · split
    · exact halone.settles rfl (fun _ _ => rfl) (by simp)
    · rw [meets_bind, meets_modifyEnv]
      exact he.wrap (.inr (.inr hb)) (fun _ hs => hs) (h.calm ((Tick.Calm.refl h.stands.runs).env rfl rfl rfl rfl))

end Engine.Sound

end BehaviorTree
