import BehaviorTree.Proofs.Life.Passage

/-!
What a tick or a job does to the instances of its world: its own nodes are called and return, others may queue jobs and
ask for interruptions, and nothing else happens to the course of an instance that executes. This holds of every tree
and every node.
-/

namespace BehaviorTree
set_option autoImplicit false

variable {σ α β : Type}

def Tick.Passes (c : Activation) (t t' : Tick σ) : Prop :=
  ∀ k, t.world.Held true c.owner k → k.active = true →
    ∃ k', t.world.Turns Activity.Inner true c.owner k t'.world k' ∧ k'.active = true

def TickM.Passes (o : Tag) (m : TickM σ α) : Prop := ∀ c t, c.owner = o → (m c t).Leaves (t.Passes c)

/-- Whoever is called leaves the courses of the instances in order. -/
structure Engine.Civil (e : Engine σ) : Prop where
  run (o : Tag) (id : NodeId) : (e.run id).Passes o
  resume (o : Tag) (level : Nat) : (e.resume level).Passes o
  hear {w : World σ} {l : Listener σ} (event : Event) : w.Coherent → (∀ o, l.owner? = some o → o.index < w.nextTag) →
    w.Then (e.hear l event) fun _ => w.Continues
  alarm {w : World σ} {a : Alarm σ} : w.Coherent → (∀ o, a.owner? = some o → o.index < w.nextTag) →
    w.Then (e.alarm a) fun _ => w.Continues
  runPending {w : World σ} {o : Tag} {c : Course} : w.Held true o c → c.active = false → c.closed = false →
    w.Then (e.runPending o) fun _ w' => ∃ d, w.Turns Activity.Inner true o c w' d ∧ d.active = false ∧
      (d.asked = false → d.waiting = [])

namespace World

variable {w w' w'' : World σ} {o owner : Tag} {c d f : Course} {K L : Activity → Prop} {b : Bool}

namespace Turns

theorem refl (h : w.Held b o c) : w.Turns K b o c w c :=
  ⟨h, Nat.le_refl _, ⟨[], (List.append_nil _).symm, .nil c, by simp⟩, fun _ => .refl _ w⟩

theorem trans {b' : Bool} (h : w.Turns K b o c w' d) (h' : w'.Turns K b' o d w'' f) : w.Turns K b' o c w'' f := by
  obtain ⟨acts, hacts, hpath, hkind⟩ := h.path
  obtain ⟨acts', hacts', hpath', hkind'⟩ := h'.path
  refine ⟨h'.held, Nat.le_trans h.later h'.later, ⟨acts ++ acts', ?_, hpath.append hpath', ?_⟩, ?_⟩
  · rw [hacts', hacts, List.append_assoc]
  · intro a ha
    cases List.mem_append.mp ha with
    | inl ha => exact hkind a ha
    | inr ha => exact hkind' a ha
  · exact fun hp => (h.others hp).trans (h'.others hp)

theorem mono (h : w.Turns K b o c w' d) (hk : ∀ a, K a → L a) : w.Turns L b o c w' d := by
  obtain ⟨acts, hacts, hpath, hkind⟩ := h.path
  exact ⟨h.held, h.later, ⟨acts, hacts, hpath, fun a ha => hk a (hkind a ha)⟩, h.others⟩

theorem of_continues (h : w.Held true o c) (hw : w.Continues w') :
    ∃ d, w.Turns Activity.Inner true o c w' d ∧ d.active = c.active ∧ d.opening = c.opening ∧
      (c.active = false → c.opening = false → d.closed = c.closed) := by
  obtain ⟨acts, d, hacts, hquiet, hpath, hd⟩ := (hw.guest o).course h.stands
  have hq := hquiet h.executing
  refine ⟨d, ⟨⟨hw.coherent, Nat.lt_of_lt_of_le h.given hw.later, ?_, hd⟩, hw.later,
    ⟨acts, hacts, hpath, fun a ha => (hq a ha).inner⟩, fun {p} _ => hw.guest p⟩, hpath.quiet hq⟩
  rw [(hw.guest o).executing, h.executing]

/-- An instance is seen to do things, and is then as they tell. -/
theorem of_path {b' : Bool} (acts : List Activity) (h : w.Held b o c) (hdated : w'.Dated)
    (hn : w'.nextTag = w.nextTag) (hacts : w'.acts o = w.acts o ++ acts) (hpath : c.Path acts d)
    (hk : ∀ a ∈ acts, K a) (hat : (w'.instanceOf o).At d) (he : (w'.instanceOf o).executing = b')
    (hothers : ∀ p, p ≠ o → Guest p w w') : w.Turns K b' o c w' d := by
  have hstands : w'.Stands o d := ⟨hacts ▸ h.stands.path.append hpath, hat⟩
  refine ⟨⟨⟨hdated, fun p => ?_⟩, hn ▸ h.given, he, hstands⟩, Nat.le_of_eq hn.symm, ⟨acts, hacts, hpath, hk⟩,
    fun hp => hothers _ hp⟩
  by_cases hp : p = o
  · exact hp ▸ ⟨d, hstands⟩
  · exact (hothers p hp).stands (h.coherent.stands p)

theorem observe (h : w.Held b o c) {a : Activity} (hn : c.Next a d) (hk : K a) (hat : (w.instanceOf o).At d) :
    w.Turns K b o c (w.observe o a) d := by
  refine of_path [a] h (h.coherent.observe h.given a) rfl ?_ (.single hn) ?_ hat h.executing
    fun p hp => .observe hp a
  · rw [acts_observe, if_pos rfl]
  · exact List.forall_mem_singleton.mpr hk

/-- The instance changes in what its course is not about, or begins or stops to execute. -/
theorem modify {b' : Bool} (h : w.Held b o c) {g : Instance → Instance} (hat : (g (w.instanceOf o)).At c)
    (he : (g (w.instanceOf o)).executing = b') : w.Turns K b' o c (w.modifyInstance o g) c := by
  have hself := instanceOf_modifyInstance_self w o g
  refine of_path [] h (h.coherent.modify h.given g) rfl ?_ (.nil c) (by simp) (hself ▸ hat) (hself ▸ he)
    fun p hp => .modify hp g
  rw [acts_modifyInstance, List.append_nil]

/-- The instance is seen to do something, and changes as that tells. -/
theorem step {b' : Bool} (h : w.Held b o c) {a : Activity} {g : Instance → Instance} (hn : c.Next a d) (hk : K a)
    (hat : (g (w.instanceOf o)).At d) (he : (g (w.instanceOf o)).executing = b') :
    w.Turns K b' o c ((w.observe o a).modifyInstance o g) d := by
  have hself : ((w.observe o a).modifyInstance o g).instanceOf o = g (w.instanceOf o) :=
    instanceOf_modifyInstance_self _ _ _
  refine of_path [a] h ((h.coherent.observe h.given a).modify h.given g) rfl ?_ (.single hn) ?_
    (hself ▸ hat) (hself ▸ he) fun p hp => (Guest.observe hp a).trans (.modify hp g)
  · rw [acts_modifyInstance, acts_observe, if_pos rfl]
  · exact List.forall_mem_singleton.mpr hk

theorem of_eq (h : w.Held b o c) (hdated : w'.Dated) (hi : w'.instances = w.instances)
    (ha : ∀ o, w'.acts o = w.acts o) (hn : w'.nextTag = w.nextTag) : w.Turns K b o c w' c := by
  have hself : w'.instanceOf o = w.instanceOf o := by rw [instanceOf, instanceOf, hi]
  refine of_path [] h hdated hn ?_ (.nil c) (by simp) (hself ▸ h.stands.here) (hself ▸ h.executing)
    fun p _ => .of_instances hi (ha p)
  rw [ha, List.append_nil]

end Turns

end World

namespace TickM.Passes

open World

variable {m : TickM σ α} {o : Tag}

theorem refl (c : Activation) (t : Tick σ) : t.Passes c t := fun k hk ha => ⟨k, .refl hk, ha⟩

theorem pure (a : α) : (Pure.pure a : TickM σ α).Passes o := fun c t _ => refl c t

theorem fail (e : RunError) : (TickM.fail e : TickM σ α).Passes o := fun c t _ => refl c t

theorem halt (h : Halt) : (TickM.halt h : TickM σ α).Passes o := fun _ _ _ => trivial

theorem bind {f : α → TickM σ β} (hm : m.Passes o) (hf : ∀ a, (f a).Passes o) : (m >>= f).Passes o := by
  intro c t hc
  rw [bind_apply]
  have hfirst := hm c t hc
  cases hr : m c t with
  | failed e t' =>
    rw [hr] at hfirst
    exact hfirst
  | halted h => exact trivial
  | ok a t' =>
    rw [hr] at hfirst
    have hrest := hf a c t' hc
    -- both parts pass, and so does one after the other
    have htrans : ∀ u, t'.Passes c u → t.Passes c u := by
      intro u hu k hk ha
      obtain ⟨k₁, h₁, ha₁⟩ := hfirst k hk ha
      obtain ⟨k₂, h₂, ha₂⟩ := hu k₁ h₁.held ha₁
      exact ⟨k₂, h₁.trans h₂, ha₂⟩
    change Outcome.Leaves (f a c t') (t.Passes c)
    cases hr' : f a c t' with
    | halted h => exact trivial
    | ok b u =>
      rw [hr'] at hrest
      exact htrans u hrest
    | failed e u =>
      rw [hr'] at hrest
      exact htrans u hrest

theorem attempt (hm : m.Passes o) : (TickM.attempt m).Passes o := by
  intro c t hc
  have h := hm c t hc
  rw [attempt_apply]
  cases hr : m c t with
  | halted h => exact trivial
  | ok a t' =>
    rw [hr] at h
    exact h
  | failed e t' =>
    rw [hr] at h
    exact h

theorem bindOwner {f : Tag → TickM σ α} (hf : (f o).Passes o) : (TickM.owner >>= f).Passes o := by
  rintro c t rfl
  exact hf c t rfl

theorem tree : (TickM.tree : TickM σ Tree).Passes o := fun c t _ => refl c t
theorem env : (TickM.env : TickM σ Env).Passes o := fun c t _ => refl c t
theorem world : (TickM.world : TickM σ (World σ)).Passes o := fun c t _ => refl c t
theorem modifyEnv (f : Env → Env) : (TickM.modifyEnv f : TickM σ Unit).Passes o := fun c t _ => refl c t

theorem record {e : World σ → Entry} (he : ∀ w o, (e w).of? o = none) :
    (TickM.modifyWorld fun w => w.record (e w) : TickM σ Unit).Passes o := by
  intro c t _ k hk ha
  refine ⟨k, .of_eq hk (hk.coherent.record (he t.world)) rfl (fun o => ?_) rfl, ha⟩
  rw [acts_record, he, Option.toList_none, List.append_nil]

theorem called (id : NodeId) (resumed : Bool) : (TickM.observe (.called id resumed) : TickM σ Unit).Passes o :=
  fun _ _ _ k hk ha => ⟨k, .observe hk (.called id resumed ha) trivial hk.stands.here, ha⟩

theorem returned (id : NodeId) (status : Option Status) :
    (TickM.observe (.returned id status) : TickM σ Unit).Passes o :=
  fun _ _ _ k hk ha => ⟨k, .observe hk (.returned id status ha) trivial hk.stands.here, ha⟩

theorem interrupt : (TickM.interrupt : TickM σ Unit).Passes o := by
  intro c t _ k hk ha
  obtain ⟨hpending, _, hclear, _, _⟩ := hk.stands.here
  have hdue : (t.world.instanceOf c.owner).clearRequested = (k.due || false) := by rw [hclear, Bool.or_false]
  have hbusy : (t.world.instanceOf c.owner).executing ≠ false := by
    rw [hk.executing]
    decide
  have h := Turns.step (K := Activity.Inner) (g := fun i => { i with interrupted := true }) hk
    (.requested k false) trivial ⟨hpending, rfl, hdue, fun _ => rfl, fun he => absurd he hbusy⟩ hk.executing
  exact ⟨_, h, ha⟩

theorem onWorld {m : WorldM σ α} (hm : ∀ w : World σ, w.Coherent → w.Then m fun _ => w.Continues) :
    (TickM.onWorld m).Passes o := by
  intro c t _
  rw [TickM.onWorld]
  cases hr : m.run t.world with
  | error h => exact trivial
  | ok r =>
    intro k hk ha
    obtain ⟨d, hd, hactive, _⟩ := Turns.of_continues hk (hm t.world hk.coherent r.1 r.2 hr)
    exact ⟨d, hd, hactive.trans ha⟩

theorem subscribe (key : EventKey) (listener child : NodeId) :
    (TickM.modifyWorld fun w => (w.subscribe key o (.node o listener child)).2 : TickM σ Unit).Passes o := by
  rintro c t rfl k hk ha
  refine ⟨k, .of_eq hk (hk.coherent.subscribe key c.owner fun o ho => ?_) rfl (fun _ => rfl) rfl, ha⟩
  obtain rfl := Option.some.inj ho
  exact ⟨rfl, hk.given⟩

theorem delay (span : Float) (job : Job) :
    (TickM.modifyWorld fun w => (w.delay span o (.job o job)).2 : TickM σ Unit).Passes o := by
  rintro c t rfl k hk ha
  refine ⟨k, .of_eq hk (hk.coherent.delay span c.owner fun o ho => ?_) rfl (fun _ => rfl) rfl, ha⟩
  obtain rfl := Option.some.inj ho
  exact ⟨rfl, hk.given⟩

end TickM.Passes

end BehaviorTree
