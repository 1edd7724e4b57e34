import BehaviorTree.Proofs.Life.Passage
import BehaviorTree.Proofs.World.Lockstep
import BehaviorTree.Proofs.World.Timetable

/-!
What a world has of one instance: its state, the subscriptions of its tag and the delays of its tag, each in their order.
Nodes leave nothing else in the world, so as long as no host listens, two worlds that have the same of one instance may
have whatever they have of others. What is done with the instance keeps them so, and so does what is done with any other
instance in one of the two.
-/

namespace BehaviorTree
set_option autoImplicit false

open Std

theorem Tag.text_inj {o p : Tag} (h : o.text = p.text) : o = p := by
  have hdigits : Nat.toDigits 10 o.index = Nat.toDigits 10 p.index := by
    have hchars := congrArg String.toList h
    simp only [Tag.text, String.toList_append, List.append_cancel_left_eq] at hchars
    simpa [Nat.toString_eq_ofList_toDigits] using hchars
  have hindex : o.index = p.index := by
    rw [← Nat.ofDigitChars_ten_toDigits (n := o.index), hdigits, Nat.ofDigitChars_ten_toDigits]
  exact congrArg Tag.mk hindex

/-! ### Batches -/

section Batches

variable {κ : Type} {pending pending' batch batch' : List (Appointment κ)} {now : Float}

theorem Appointment.Before.irrefl (x : Appointment κ) : ¬ x.Before x := by
  unfold Before
  omega

theorem Appointment.Before.asymm {x y : Appointment κ} (h : x.Before y) : ¬ y.Before x := by
  unfold Before at h ⊢
  omega

/-- Whom an update sets off, and in which order, is determined by who waits. -/
theorem Batch.unique (h : Batch pending now batch) (h' : Batch pending now batch') : batch = batch' := by
  have hnodup : ∀ {b : List (Appointment κ)}, b.Pairwise Appointment.Before → b.Nodup := by
    intro b hb
    refine hb.imp ?_
    rintro x _ hxy rfl
    exact Appointment.Before.irrefl _ hxy
  have hperm : batch.Perm batch' := by
    rw [List.perm_ext_iff_of_nodup (hnodup h.ordered) (hnodup h'.ordered)]
    intro x
    rw [h.mem_iff, h'.mem_iff]
  exact hperm.eq_of_pairwise (fun x y _ _ hxy hyx => absurd hyx hxy.asymm) h.ordered h'.ordered

/-- Of those whom an update sets off, some are set off as if nobody else had waited. -/
theorem Batch.filter (h : Batch pending now batch) (p : Appointment κ → Bool) :
    Batch (pending.filter p) now (batch.filter p) := by
  refine ⟨h.ordered.filter p, ?_⟩
  intro x
  rw [List.mem_filter, List.mem_filter, h.mem_iff]
  tauto

def Appointment.entry (x : Appointment κ) : PendingDelay κ := ⟨x.expiry, x.tag, x.callback⟩

theorem exists_beside (hsame : pending'.map Appointment.entry = pending.map Appointment.entry) :
    ∃ pairs : List (Appointment κ × Appointment κ), pairs.map Prod.fst = pending ∧ pairs.map Prod.snd = pending' ∧
      ∀ z ∈ pairs, z.2.entry = z.1.entry := by
  induction pending generalizing pending' with
  | nil =>
    rw [List.map_nil, List.map_eq_nil_iff] at hsame
    subst hsame
    exact ⟨[], rfl, rfl, nofun⟩
  | cons x pending ih =>
    cases pending' with
    | nil => cases hsame
    | cons x' pending' =>
      obtain ⟨hx, hrest⟩ := List.cons.inj hsame
      obtain ⟨pairs, rfl, rfl, hpairs⟩ := ih hrest
      exact ⟨(x, x') :: pairs, rfl, rfl, List.forall_mem_cons.mpr ⟨hx, hpairs⟩⟩

/-- The order in which appointments are made decides, and not by which ids. -/
theorem Batch.map_entry (hsame : pending'.map Appointment.entry = pending.map Appointment.entry)
    (hp : pending.Pairwise fun x y => x.id.index < y.id.index)
    (hp' : pending'.Pairwise fun x y => x.id.index < y.id.index) (h : Batch pending now batch)
    (h' : Batch pending' now batch') : batch'.map Appointment.entry = batch.map Appointment.entry := by
  obtain ⟨pairs, rfl, rfl, hentry⟩ := exists_beside hsame
  have hexpiry : ∀ z ∈ pairs, z.2.expiry = z.1.expiry := fun z hz => congrArg PendingDelay.expiry (hentry z hz)
  -- ids compare alike on both sides
  have hids : ∀ x ∈ pairs, ∀ y ∈ pairs, x.1.id.index < y.1.id.index ↔ x.2.id.index < y.2.id.index := by
    have hboth := (List.pairwise_map.mp hp).and (List.pairwise_map.mp hp')
    intro x hx y hy
    refine List.Pairwise.forall_of_forall_of_flip (R := fun x y : Appointment κ × Appointment κ =>
      x.1.id.index < y.1.id.index ↔ x.2.id.index < y.2.id.index) ?_ (hboth.imp ?_) (hboth.imp ?_) hx hy
    · exact fun x _ => iff_of_false (Nat.lt_irrefl _) (Nat.lt_irrefl _)
    · intro x y hxy
      exact iff_of_true hxy.1 hxy.2
    · intro x y hxy
      exact iff_of_false (Nat.lt_asymm hxy.1) (Nat.lt_asymm hxy.2)
  have hwaits : ∀ x ∈ batch, ∃ z, z ∈ pairs ∧ z.1 = x := by
    intro x hx
    exact List.mem_map.mp ((h.mem_iff x).mp hx).1
  obtain ⟨due, rfl, hdue⟩ := exists_map_eq hwaits
  have hbatch : Batch (pairs.map Prod.snd) now (due.map Prod.snd) := by
    constructor
    · rw [List.pairwise_map]
      refine (List.pairwise_map.mp h.ordered).imp_of_mem ?_
      intro x y hx hy hxy
      unfold Appointment.Before at hxy ⊢
      rw [hexpiry x (hdue x hx), hexpiry y (hdue y hy), ← hids x (hdue x hx) y (hdue y hy)]
      exact hxy
    · intro x
      constructor
      · intro hx
        obtain ⟨z, hz, rfl⟩ := List.mem_map.mp hx
        refine ⟨List.mem_map.mpr ⟨z, hdue z hz, rfl⟩, ?_⟩
        rw [hexpiry z (hdue z hz)]
        exact ((h.mem_iff z.1).mp (List.mem_map.mpr ⟨z, hz, rfl⟩)).2
      · rintro ⟨hx, hnow⟩
        obtain ⟨z, hz, rfl⟩ := List.mem_map.mp hx
        rw [hexpiry z hz] at hnow
        obtain ⟨y, hy, hfst⟩ := List.mem_map.mp ((h.mem_iff z.1).mpr ⟨List.mem_map.mpr ⟨z, hz, rfl⟩, hnow⟩)
        have hid : y.2.id = z.2.id := by
          have hlt := hids y (hdue y hy) z hz
          have hgt := hids z hz y (hdue y hy)
          rw [hfst] at hlt hgt
          have hindex : y.2.id.index = z.2.id.index := by omega
          exact congrArg DelayId.mk hindex
        have hsnd : y.2.entry = z.2.entry := by rw [hentry y (hdue y hy), hentry z hz, hfst]
        refine List.mem_map.mpr ⟨y, hy, ?_⟩
        cases hy2 : y.2
        cases hz2 : z.2
        simp_all [Appointment.entry]
  rw [h'.unique hbatch, List.map_map, List.map_map]
  exact List.map_congr_left fun z hz => hentry z (hdue z hz)

end Batches

/-! ### What an instance has in a world -/

def Roster.of {κ : Type} (r : Roster κ) (o : Tag) : List (Subscription κ) :=
  (r.members.filter (·.2.tag = o)).map Prod.snd

def Agenda.of {κ : Type} (a : Agenda κ) (o : Tag) : List (PendingDelay κ) :=
  (a.pending.filter (·.tag = o)).map Appointment.entry

section Of

variable {κ : Type} {o p : Tag}

@[simp] theorem Roster.of_append (n : Nat) (members : List (SubscriptionId × Subscription κ))
    (m : SubscriptionId × Subscription κ) :
    ({ nextIndex := n, members := members ++ [m] } : Roster κ).of o =
      ({ nextIndex := n, members } : Roster κ).of o ++ if m.2.tag = o then [m.2] else [] := by
  unfold of
  rw [List.filter_append, List.map_append]
  congr 1
  by_cases h : m.2.tag = o
  · simp [h]
  · simp [h]

@[simp] theorem Agenda.of_append (n : Nat) (pending : List (Appointment κ)) (batches : List (List (Appointment κ)))
    (x : Appointment κ) :
    ({ nextIndex := n, pending := pending ++ [x], batches } : Agenda κ).of o =
      ({ nextIndex := n, pending, batches } : Agenda κ).of o ++ if x.tag = o then [x.entry] else [] := by
  unfold of
  rw [List.filter_append, List.map_append]
  congr 1
  by_cases h : x.tag = o
  · simp [h]
  · simp [h]

theorem Roster.of_release (r : Roster κ) :
    ({ r with members := r.members.filter fun m => !decide (m.2.tag = p) } : Roster κ).of o =
      if p = o then [] else r.of o := by
  unfold of
  rw [List.filter_filter]
  split
  · rename_i h
    subst h
    simp
  · rename_i h
    congr 1
    apply List.filter_congr
    rintro m -
    by_cases ho : m.2.tag = o
    · simp [ho, Ne.symm h]
    · simp [ho]

theorem Agenda.of_release (a : Agenda κ) :
    ({ a with pending := a.pending.filter (·.tag ≠ p) } : Agenda κ).of o = if p = o then [] else a.of o := by
  unfold of
  rw [List.filter_filter]
  split
  · rename_i h
    subst h
    simp
  · rename_i h
    congr 1
    apply List.filter_congr
    rintro x -
    by_cases ho : x.tag = o
    · simp [ho, Ne.symm h]
    · simp [ho]

end Of

/-- A node that dispatches no events. -/
def Node.Quiet (n : Node) : Prop := ∀ event, n.behavior ≠ .dispatch event

/-- A tree whose nodes dispatch no events. -/
def Tree.Quiet (t : Tree) : Prop := ∀ id n, t.get? id = some n → n.Quiet

def Listener.Of {σ : Type} (o : Tag) (l : Listener σ) : Prop := ∃ listener child, l = .node o listener child

section Files

variable {σ : Type} {o p : Tag} {w w' v v' : World σ} {r r' : Roster (Listener σ)} {a a' : Agenda (Alarm σ)}

namespace World

/-- A world in which nodes have filed what there is, under the tags of their instances. No node dispatches events. -/
structure Files (w : World σ) (r : Roster (Listener σ)) (a : Agenda (Alarm σ)) : Prop where
  roster : w.subscriptions.Lists r
  agenda : w.delays.Lists a
  ordered : a.pending.Pairwise fun x y => x.id.index < y.id.index
  listens : ∀ m ∈ r.members, m.2.key.Heard m.2.tag ∧ m.2.callback.Of m.2.tag
  waits : ∀ x ∈ a.pending, ∃ job, x.callback = .job x.tag job
  quiet (p : Tag) : (w.instanceOf p).tree.Quiet

namespace Files

variable (h : w.Files r a)
include h

theorem of_eq (hs : w'.subscriptions = w.subscriptions) (hd : w'.delays = w.delays)
    (hi : w'.instances = w.instances) : w'.Files r a := by
  refine ⟨hs ▸ h.roster, hd ▸ h.agenda, h.ordered, h.listens, h.waits, fun p => ?_⟩
  unfold instanceOf
  rw [hi]
  exact h.quiet p

theorem modify {f : Instance → Instance} (hf : (f (w.instanceOf p)).tree.Quiet) : (w.modifyInstance p f).Files r a := by
  refine ⟨h.roster, h.agenda, h.ordered, h.listens, h.waits, fun q => ?_⟩
  by_cases hq : q = p
  · subst hq
    rw [instanceOf_modifyInstance_self]
    exact hf
  · rw [instanceOf_modifyInstance_of_ne hq]
    exact h.quiet q

theorem subscribe {key : EventKey} (hkey : key.Heard p) (listener child : NodeId) :
    (w.subscribe key p (.node p listener child)).2.Files
      { nextIndex := r.nextIndex + 1
        members := r.members ++ [(⟨r.nextIndex⟩, ⟨key, p, .node p listener child⟩)] } a := by
  refine ⟨(h.roster.add key p (.node p listener child)).2, h.agenda, h.ordered, ?_, h.waits, h.quiet⟩
  intro m hm
  rcases List.mem_append.mp hm with hm | hm
  · exact h.listens m hm
  · rw [List.mem_singleton.mp hm]
    exact ⟨hkey, listener, child, rfl⟩

theorem delay (span : Float) (job : Job) :
    (w.delay span p (.job p job)).2.Files r
      { a with
        nextIndex := a.nextIndex + 1
        pending := a.pending ++ [⟨⟨a.nextIndex⟩, w.time + span, p, .job p job⟩] } := by
  refine ⟨h.roster, (h.agenda.schedule (w.time + span) p (.job p job)).2, ?_, h.listens, ?_, h.quiet⟩
  · rw [List.pairwise_append]
    refine ⟨h.ordered, List.pairwise_singleton _ _, ?_⟩
    intro x hx y hy
    rw [List.mem_singleton.mp hy]
    exact h.agenda.nextIndex ▸ h.agenda.given ((h.agenda.pending x).mp hx)
  · intro x hx
    rcases List.mem_append.mp hx with hx | hx
    · exact h.waits x hx
    · rw [List.mem_singleton.mp hx]
      exact ⟨job, rfl⟩

theorem release (p : Tag) :
    (w.releaseTag p).Files { r with members := r.members.filter fun m => !decide (m.2.tag = p) }
      { a with pending := a.pending.filter (·.tag ≠ p) } := by
  have hroster : (w.releaseTag p).subscriptions.Lists
      { r with members := r.members.filter fun m => !decide (m.2.tag = p) } := by
    rw [subscriptions_releaseTag]
    exact (h.roster.removeOwner p).2
  have hagenda : (w.releaseTag p).delays.Lists { a with pending := a.pending.filter (·.tag ≠ p) } := by
    rw [delays_releaseTag]
    exact h.agenda.cancelOwner p
  refine ⟨hroster, hagenda, h.ordered.filter _, ?_, ?_, fun q => ?_⟩
  · exact fun m hm => h.listens m (List.mem_of_mem_filter hm)
  · exact fun x hx => h.waits x (List.mem_of_mem_filter hx)
  · unfold instanceOf
    rw [instances_releaseTag]
    exact h.quiet q

/-- What instances tell about themselves is heard by their own nodes. -/
theorem lifecycle (event : Lifecycle) (o : Tag) :
    w.subscriptions.callbacks ⟨event.name, some o.text⟩ =
      ((r.of o).filter (·.key = ⟨event.name, some o.text⟩)).map Subscription.callback := by
  have hown : ∀ m ∈ r.members, m.2.key = ⟨event.name, some o.text⟩ → m.2.tag = o := by
    intro m hm hkey
    have hlifecycle : (Lifecycle.ofName? m.2.key.name).isSome := by
      rw [hkey]
      cases event <;> rfl
    have htarget := (h.listens m hm).1 hlifecycle
    rw [hkey] at htarget
    exact (Tag.text_inj (Option.some.inj htarget)).symm
  rw [h.roster.callbacks, Roster.of, List.filter_map, List.filter_filter, List.map_map]
  congr 1
  apply List.filter_congr
  intro m hm
  rw [Function.comp_apply, Bool.eq_iff_iff, Bool.and_eq_true, decide_eq_true_eq, decide_eq_true_eq]
  exact ⟨fun hkey => ⟨hkey, hown m hm hkey⟩, And.left⟩

theorem hears (event : Lifecycle) (o : Tag) :
    ∀ l ∈ w.subscriptions.callbacks ⟨event.name, some o.text⟩, l.Of o := by
  intro l hl
  rw [h.lifecycle] at hl
  obtain ⟨e, he, rfl⟩ := List.mem_map.mp hl
  obtain ⟨m, hm, rfl⟩ := List.mem_map.mp (List.mem_of_mem_filter he)
  obtain ⟨hm, ho⟩ := List.mem_filter.mp hm
  rw [← of_decide_eq_true ho]
  exact (h.listens m hm).2

end Files

end World

/-! ### Worlds that share an instance -/

theorem Instance.Like.eq {Fits : Node → Prop} {i i' : Instance} (h : i.Like (fun _ => True) Fits i') : i' = i := by
  rw [h.rest, h.env.eq]

namespace World

/-- Two worlds have the same of one instance. In the second, nobody else waits. -/
structure Shares (o : Tag) (w w' : World σ) : Prop where
  time : w'.time = w.time
  there : w'.instances.contains o = w.instances.contains o
  instanceOf : w'.instanceOf o = w.instanceOf o
  given : o.index < w.nextTag
  filed : ∃ r a r' a', w.Files r a ∧ w'.Files r' a' ∧ r'.of o = r.of o ∧ a'.of o = a.of o ∧ ∀ x ∈ a'.pending, x.tag = o

@[simp] theorem time_releaseTag (w : World σ) (tag : Tag) : (w.releaseTag tag).time = w.time := by
  rw [releaseTag]
  simp only
  split <;> rfl

theorem contains_modifyInstance (w : World σ) (p o : Tag) (f : Instance → Instance) :
    (w.modifyInstance p f).instances.contains o = (decide (p = o) || w.instances.contains o) := by
  change (w.instances.insert p _).contains o = _
  rw [ExtTreeMap.contains_insert]
  congr 1
  rw [Bool.eq_iff_iff, beq_iff_eq, LawfulEqCmp.compare_eq_iff_eq, decide_eq_true_eq]

namespace Shares

variable (h : w.Shares o w')
include h

theorem quiet (p : Tag) : (w.instanceOf p).tree.Quiet := by
  obtain ⟨r, a, r', a', hw, -⟩ := h.filed
  exact hw.quiet p

theorem like (p : Tag) : (w.instanceOf p).Like (fun _ => True) Node.Quiet (w.instanceOf p) :=
  ⟨.refl _ _, rfl, h.quiet p, fun job _ => job.heeds_all⟩

end Shares

/-- What is done with the instance in both worlds, they share. -/
theorem mirrors_shares (o : Tag) :
    World.Mirrors (σ := σ) o (fun _ => True) Node.Quiet (Listener.Of o) (World.Shares o) where
  time h := h.time
  there h := h.there
  instanceOf h := h.instanceOf ▸ h.like o
  listeners event h := by
    obtain ⟨r, a, r', a', hw, hw', hr, -⟩ := h.filed
    rw [hw.lifecycle, hw'.lifecycle, hr, ← hw.lifecycle]
    exact ⟨rfl, hw.hears event o⟩
  modify {w w' f f'} hf h := by
    have hlike := hf _ _ (h.like o)
    obtain ⟨r, a, r', a', hw, hw', hr, ha, halone⟩ := h.filed
    refine ⟨h.time, ?_, ?_, h.given, r, a, r', a', hw.modify hlike.fits, hw'.modify ?_, hr, ha, halone⟩
    · rw [contains_modifyInstance, contains_modifyInstance, h.there]
    · rw [instanceOf_modifyInstance_self, instanceOf_modifyInstance_self, h.instanceOf]
      exact hlike.eq
    · rw [h.instanceOf, hlike.eq]
      exact hlike.fits
  record _ h := by
    obtain ⟨r, a, r', a', hw, hw', hr, ha, halone⟩ := h.filed
    exact ⟨h.time, h.there, h.instanceOf, h.given, r, a, r', a', hw.of_eq rfl rfl rfl, hw'.of_eq rfl rfl rfl, hr, ha, halone⟩
  subscribe listener child hkey h := by
    obtain ⟨r, a, r', a', hw, hw', hr, ha, halone⟩ := h.filed
    refine ⟨h.time, h.there, h.instanceOf, h.given, _, a, _, a', hw.subscribe hkey listener child,
      hw'.subscribe hkey listener child, ?_, ha, halone⟩
    rw [Roster.of_append, Roster.of_append]
    exact congrArg (· ++ _) hr
  delay span job _ h := by
    obtain ⟨r, a, r', a', hw, hw', hr, ha, halone⟩ := h.filed
    refine ⟨h.time, h.there, h.instanceOf, h.given, r, _, r', _, hw.delay span job, hw'.delay span job, hr, ?_, ?_⟩
    · rw [Agenda.of_append, Agenda.of_append, h.time]
      exact congrArg (· ++ _) ha
    · intro x hx
      rcases List.mem_append.mp hx with hx | hx
      · exact halone x hx
      · rw [List.mem_singleton.mp hx]
  release {w w'} h := by
    obtain ⟨r, a, r', a', hw, hw', hr, ha, halone⟩ := h.filed
    have hthere : (w'.releaseTag o).instances.contains o = (w.releaseTag o).instances.contains o := by
      rw [instances_releaseTag, instances_releaseTag]
      exact h.there
    have hsame : (w'.releaseTag o).instanceOf o = (w.releaseTag o).instanceOf o := by
      rw [instanceOf_releaseTag, instanceOf_releaseTag, h.instanceOf]
    refine ⟨?_, hthere, hsame, ?_, _, _, _, _, hw.release o, hw'.release o, ?_, ?_, ?_⟩
    · rw [time_releaseTag, time_releaseTag, h.time]
    · rw [nextTag_releaseTag]
      exact h.given
    · rw [Roster.of_release, Roster.of_release, if_pos rfl, if_pos rfl]
    · rw [Agenda.of_release, Agenda.of_release, if_pos rfl, if_pos rfl]
    · exact fun x hx => halone x (List.mem_of_mem_filter hx)

/-- What is done with another instance in the first world changes nothing that the second shares with it. -/
theorem mirrors_apart {o p : Tag} (hne : o ≠ p) (w' : World σ) :
    World.Mirrors p (fun _ => True) Node.Quiet (Listener.Of p) (fun w v => v = w ∧ w.Shares o w') where
  time h := h.1 ▸ rfl
  there h := h.1 ▸ rfl
  instanceOf := by
    rintro w _ ⟨rfl, h⟩
    exact h.like p
  listeners event h := by
    obtain ⟨rfl, h⟩ := h
    obtain ⟨r, a, r', a', hw, -⟩ := h.filed
    exact ⟨rfl, hw.hears event p⟩
  modify {w v f f'} hf h := by
    obtain ⟨rfl, h⟩ := h
    have hlike := hf _ _ (h.like p)
    obtain ⟨r, a, r', a', hw, hw', hr, ha, halone⟩ := h.filed
    refine ⟨?_, h.time, ?_, ?_, h.given, r, a, r', a', hw.modify hlike.fits, hw', hr, ha, halone⟩
    · unfold modifyInstance
      rw [hlike.eq]
    · rw [contains_modifyInstance, h.there, decide_eq_false (Ne.symm hne), Bool.false_or]
    · rw [instanceOf_modifyInstance_of_ne hne, h.instanceOf]
  record _ h := by
    obtain ⟨rfl, h⟩ := h
    obtain ⟨r, a, r', a', hw, hw', hr, ha, halone⟩ := h.filed
    exact ⟨rfl, h.time, h.there, h.instanceOf, h.given, r, a, r', a', hw.of_eq rfl rfl rfl, hw', hr, ha, halone⟩
  subscribe listener child hkey h := by
    obtain ⟨rfl, h⟩ := h
    obtain ⟨r, a, r', a', hw, hw', hr, ha, halone⟩ := h.filed
    refine ⟨rfl, h.time, h.there, h.instanceOf, h.given, _, a, r', a', hw.subscribe hkey listener child, hw', ?_, ha,
      halone⟩
    rw [Roster.of_append, if_neg (Ne.symm hne), List.append_nil]
    exact hr
  delay span job _ h := by
    obtain ⟨rfl, h⟩ := h
    obtain ⟨r, a, r', a', hw, hw', hr, ha, halone⟩ := h.filed
    refine ⟨rfl, h.time, h.there, h.instanceOf, h.given, r, _, r', a', hw.delay span job, hw', hr, ?_, halone⟩
    rw [Agenda.of_append, if_neg (Ne.symm hne), List.append_nil]
    exact ha
  release {w v} h := by
    obtain ⟨rfl, h⟩ := h
    obtain ⟨r, a, r', a', hw, hw', hr, ha, halone⟩ := h.filed
    refine ⟨rfl, ?_, ?_, ?_, ?_, _, _, r', a', hw.release p, hw', ?_, ?_, halone⟩
    · rw [time_releaseTag, h.time]
    · rw [instances_releaseTag, h.there]
    · rw [instanceOf_releaseTag, h.instanceOf]
    · rw [nextTag_releaseTag]
      exact h.given
    · rw [Roster.of_release, if_neg (Ne.symm hne), hr]
    · rw [Agenda.of_release, if_neg (Ne.symm hne), ha]

end World

end Files

end BehaviorTree
