import BehaviorTree.Engine.Knot
import BehaviorTree.Proofs.Life.Course
import BehaviorTree.Proofs.World.Filing

/-!
How the instances of a world pass from one moment to another. Each stands at a point of its course; what others do takes
it further without beginning or ending anything of it while it executes. Nothing is asked of the trees here, nor of
the host: whatever a computation gives, if it gives anything, is described.
-/

namespace BehaviorTree
set_option autoImplicit false

variable {σ α β : Type}

/-- Whatever a computation gives is as described. -/
def World.Then (w : World σ) (m : WorldM σ α) (Q : α → World σ → Prop) : Prop :=
  ∀ a w', m.run w = .ok (a, w') → Q a w'

def Outcome.Leaves (o : Outcome σ α) (Q : Tick σ → Prop) : Prop :=
  match o with
  | .ok _ t => Q t
  | .failed _ t => Q t
  | .halted _ => True

theorem Outcome.Leaves.mono {r : Outcome σ α} {Q Q' : Tick σ → Prop} (h : r.Leaves Q) (hq : ∀ t, Q t → Q' t) :
    r.Leaves Q' := by
  cases r with
  | ok a t => exact hq t h
  | failed e t => exact hq t h
  | halted e => exact trivial

section Then

variable {w : World σ} {Q Q' : α → World σ → Prop}

theorem World.Then.mono {m : WorldM σ α} (h : w.Then m Q) (hq : ∀ a w, Q a w → Q' a w) : w.Then m Q' :=
  fun a w' hr => hq a w' (h a w' hr)

@[simp] theorem then_pure (a : α) : w.Then (pure a) Q ↔ Q a w := by
  constructor
  · exact fun h => h a w rfl
  · rintro h _ _ ⟨⟩
    exact h

@[simp] theorem then_bind (m : WorldM σ β) (f : β → WorldM σ α) :
    w.Then (m >>= f) Q ↔ w.Then m fun b w => w.Then (f b) Q := by
  constructor
  · intro h b w₁ hm a w₂ hf
    refine h a w₂ ?_
    rw [StateT.run_bind, hm]
    exact hf
  · intro h a w₂ hr
    rw [StateT.run_bind] at hr
    cases hm : m.run w with
    | error e =>
      rw [hm] at hr
      cases hr
    | ok r =>
      obtain ⟨b, w₁⟩ := r
      rw [hm] at hr
      exact h b w₁ hm a w₂ hr

@[simp] theorem then_map (m : WorldM σ β) (f : β → α) : w.Then (f <$> m) Q ↔ w.Then m fun b w => Q (f b) w := by
  rw [← bind_pure_comp, then_bind]
  simp only [then_pure]

@[simp] theorem then_get (Q : World σ → World σ → Prop) : w.Then get Q ↔ Q w w := by
  constructor
  · exact fun h => h w w rfl
  · rintro h _ _ ⟨⟩
    exact h

@[simp] theorem then_modify (f : World σ → World σ) (Q : PUnit → World σ → Prop) :
    w.Then (modify f) Q ↔ Q ⟨⟩ (f w) := by
  constructor
  · exact fun h => h ⟨⟩ (f w) rfl
  · rintro h _ _ ⟨⟩
    exact h

@[simp] theorem then_apply (f : World σ → α × World σ) : w.Then (Engine.apply f) Q ↔ Q (f w).1 (f w).2 := by
  constructor
  · exact fun h => h (f w).1 (f w).2 rfl
  · intro h a w' hr
    have hpair : f w = (a, w') := Except.ok.inj hr
    rw [hpair] at h
    exact h

@[simp] theorem then_throw (e : Halt) : w.Then (throw e : WorldM σ α) Q ↔ True := by
  refine iff_true_intro ?_
  rintro _ _ ⟨⟩

/-- A loop over a list keeps what each of its rounds keeps. -/
theorem then_forM {f : β → WorldM σ PUnit} {P : World σ → Prop} {xs : List β} (hw : P w)
    (hf : ∀ x ∈ xs, ∀ w, P w → w.Then (f x) fun _ w => P w) : w.Then (xs.forM f) fun _ w => P w := by
  induction xs generalizing w with
  | nil => exact (then_pure _).mpr hw
  | cons x xs ih =>
    refine (then_bind _ _).mpr ?_
    refine (hf x List.mem_cons_self w hw).mono fun _ w' hw' => ?_
    exact ih hw' fun y hy => hf y (List.mem_cons_of_mem _ hy)

/-- A computation of a tick on the state of an instance. -/
theorem then_activate {owner : Tag} (m : TickM σ α) {Q : World σ → Prop}
    (h : (m ⟨owner, (w.instanceOf owner).tree⟩ ⟨(w.instanceOf owner).env, w.observe owner .entered⟩).Leaves
      fun t => Q (Engine.giveBack owner t)) : w.Then (Engine.activate owner m) fun _ w' => Q w' := by
  have hseen : (w.observe owner .entered).instanceOf owner = w.instanceOf owner := rfl
  simp only [Engine.activate, then_bind, then_modify, then_get, hseen]
  cases hm : m ⟨owner, (w.instanceOf owner).tree⟩ ⟨(w.instanceOf owner).env, w.observe owner .entered⟩ with
  | ok a t =>
    rw [hm] at h
    rintro _ _ ⟨⟩
    exact h
  | failed e t =>
    rw [hm] at h
    rintro _ _ ⟨⟩
    exact h
  | halted e => exact (then_throw e).mpr trivial

end Then

/-- The queue and the flags of an instance are those of a point of its course. While it is idle nothing is
outstanding. -/
structure Instance.At (i : Instance) (c : Course) : Prop where
  pending : i.pending = c.waiting
  interrupted : i.interrupted = c.asked
  clearRequested : i.clearRequested = c.due
  closed : c.closed = true → c.asked = true
  idle : i.executing = false → c.active = false ∧ c.asked = false ∧ c.waiting = []

/-- The queue is closed only once an interruption is asked for. -/
theorem Instance.At.opened {i : Instance} {c : Course} (h : i.At c) (ha : c.asked = false) : c.closed = false := by
  cases hc : c.closed with
  | false => rfl
  | true => exact (h.closed hc).symm.trans ha

/-- Nothing is outstanding of an idle instance but a clearing. -/
theorem Instance.At.still {i : Instance} {c : Course} (h : i.At c) (hi : i.executing = false) : c.Still := by
  obtain ⟨hactive, hasked, hwaiting⟩ := h.idle hi
  exact ⟨hactive, hwaiting, hasked, h.opened hasked⟩

/-- Nothing waits in an instance of which nothing is outstanding, and no interruption is asked for. -/
theorem Instance.At.quiet {i : Instance} {c : Course} (h : i.At c) (hc : c.Still) :
    i.pending = [] ∧ i.interrupted = false := ⟨h.pending.trans hc.waiting, h.interrupted.trans hc.asked⟩

theorem Course.Still.at {i : Instance} {c : Course} (hc : c.Still) (hp : i.pending = []) (hi : i.interrupted = false)
    (hr : i.clearRequested = c.due) : i.At c :=
  ⟨hp.trans hc.waiting.symm, hi.trans hc.asked.symm, hr, fun h => absurd (h.symm.trans hc.closed) (by decide),
    fun _ => ⟨hc.active, hc.asked, hc.waiting⟩⟩

/-- The instance that a listener hands jobs to. -/
def Listener.owner? : Listener σ → Option Tag
  | .node owner _ _ => some owner
  | .host _ => none

/-- The instance that an alarm hands a job to. -/
def Alarm.owner? : Alarm σ → Option Tag
  | .job owner _ => some owner
  | .host _ => none

namespace World

variable {w w' w'' : World σ} {o owner : Tag} {c d f : Course} {b : Bool}

theorem instanceOf_modifyInstance_of_ne (h : o ≠ owner) (f : Instance → Instance) :
    (w.modifyInstance owner f).instanceOf o = w.instanceOf o := by
  rw [instanceOf, modifyInstance, setInstance, Std.ExtTreeMap.getD_insert, if_neg]
  · rfl
  · rw [Std.LawfulEqCmp.compare_eq_iff_eq]
    exact fun he => h he.symm

theorem modifyInstance_modifyInstance (w : World σ) (owner : Tag) (f g : Instance → Instance) :
    (w.modifyInstance owner f).modifyInstance owner g = w.modifyInstance owner fun i => g (f i) := by
  rw [modifyInstance, instanceOf_modifyInstance_self]
  simp only [modifyInstance, setInstance]
  congr 1
  refine Std.ExtTreeMap.ext_getElem? fun k => ?_
  simp only [Std.ExtTreeMap.getElem?_insert]
  split
  · rfl
  · rfl

/-- Who has filed something was given a tag, and files under it. Of tags not given yet nothing was seen. -/
structure Dated (w : World σ) : Prop where
  subscriptions : w.subscriptions.Filed
  delays : w.delays.Filed
  instances {o : Tag} : w.nextTag ≤ o.index → w.instances[o]? = none
  acts {o : Tag} : w.nextTag ≤ o.index → w.acts o = []
  listeners {id : SubscriptionId} {e : Subscription (Listener σ)} {o : Tag} :
    w.subscriptions.entries[id]? = some e → e.callback.owner? = some o → e.tag = o ∧ o.index < w.nextTag
  alarms {id : DelayId} {e : PendingDelay (Alarm σ)} {o : Tag} :
    w.delays.pending[id]? = some e → e.callback.owner? = some o → e.tag = o ∧ o.index < w.nextTag

/-- An instance stands at a point of the course that its journal tells. -/
structure Stands (w : World σ) (o : Tag) (c : Course) : Prop where
  path : Course.Path {} (w.acts o) c
  here : (w.instanceOf o).At c

/-- Every instance stands somewhere on its course. -/
structure Coherent (w : World σ) : Prop extends w.Dated where
  stands (o : Tag) : ∃ c, w.Stands o c

/-- What happens to an instance while others act. -/
structure Guest (o : Tag) (w w' : World σ) : Prop where
  executing : (w'.instanceOf o).executing = (w.instanceOf o).executing
  course {c : Course} : w.Stands o c → ∃ acts d, w'.acts o = w.acts o ++ acts ∧
    ((w.instanceOf o).executing = true → ∀ a ∈ acts, a.Quiet false) ∧ c.Path acts d ∧ w'.Stands o d

/-- A world goes on, and all its instances are guests. -/
structure Continues (w w' : World σ) : Prop where
  coherent : w'.Coherent
  later : w.nextTag ≤ w'.nextTag
  guest (o : Tag) : Guest o w w'

/-- An instance stands at a point of its course; `b` tells whether it executes. -/
structure Held (b : Bool) (o : Tag) (w : World σ) (c : Course) : Prop where
  coherent : w.Coherent
  given : o.index < w.nextTag
  executing : (w.instanceOf o).executing = b
  stands : w.Stands o c

/-- An instance is taken from one point of its course to another, and is seen to do things of some kind on the way;
`b` tells whether it executes then. -/
structure Turns (K : Activity → Prop) (b : Bool) (o : Tag) (w : World σ) (c : Course) (w' : World σ) (d : Course) :
    Prop where
  held : w'.Held b o d
  later : w.nextTag ≤ w'.nextTag
  path : ∃ acts, w'.acts o = w.acts o ++ acts ∧ c.Path acts d ∧ ∀ a ∈ acts, K a
  others {p : Tag} : p ≠ o → Guest p w w'

namespace Guest

theorem refl (o : Tag) (w : World σ) : Guest o w w :=
  ⟨rfl, fun {c} h => ⟨[], c, (List.append_nil _).symm, fun _ => (by simp), .nil c, h⟩⟩

theorem trans (h : Guest o w w') (h' : Guest o w' w'') : Guest o w w'' := by
  refine ⟨h'.executing.trans h.executing, fun {c} hc => ?_⟩
  obtain ⟨acts, d, hacts, hquiet, hd, hdw⟩ := h.course hc
  obtain ⟨acts', f, hacts', hquiet', hf, hfw⟩ := h'.course hdw
  refine ⟨acts ++ acts', f, ?_, ?_, hd.append hf, hfw⟩
  · rw [hacts', hacts, List.append_assoc]
  · intro he a ha
    cases List.mem_append.mp ha with
    | inl ha => exact hquiet he a ha
    | inr ha => exact hquiet' (h.executing.trans he) a ha

/-- Nothing of an instance that its course is about changes. -/
theorem of_eq (he : (w'.instanceOf o).executing = (w.instanceOf o).executing)
    (hp : (w'.instanceOf o).pending = (w.instanceOf o).pending)
    (hi : (w'.instanceOf o).interrupted = (w.instanceOf o).interrupted)
    (hc : (w'.instanceOf o).clearRequested = (w.instanceOf o).clearRequested)
    (ha : w'.acts o = w.acts o) : Guest o w w' := by
  refine ⟨he, fun {c} h => ⟨[], c, by rw [ha, List.append_nil], fun _ => (by simp), .nil c, ha ▸ h.path, ?_⟩⟩
  obtain ⟨hpending, hinterrupted, hclear, hclosed, hidle⟩ := h.here
  exact ⟨hp ▸ hpending, hi ▸ hinterrupted, hc ▸ hclear, hclosed, fun hx => hidle (he ▸ hx)⟩

theorem of_instances (hi : w'.instances = w.instances) (ha : w'.acts o = w.acts o) : Guest o w w' := by
  have h : w'.instanceOf o = w.instanceOf o := by rw [instanceOf, instanceOf, hi]
  exact of_eq (by rw [h]) (by rw [h]) (by rw [h]) (by rw [h]) ha

theorem modify (h : o ≠ owner) (f : Instance → Instance) : Guest o w (w.modifyInstance owner f) := by
  have hi := instanceOf_modifyInstance_of_ne (w := w) h f
  exact of_eq (by rw [hi]) (by rw [hi]) (by rw [hi]) (by rw [hi]) (acts_modifyInstance w f owner o)

theorem observe (h : o ≠ owner) (a : Activity) : Guest o w (w.observe owner a) := by
  refine of_instances rfl ?_
  rw [acts_observe, if_neg fun he => h he.symm, List.append_nil]

theorem stands (h : Guest o w w') (hw : ∃ c, w.Stands o c) : ∃ c, w'.Stands o c := by
  obtain ⟨c, hc⟩ := hw
  obtain ⟨_, d, _, _, _, hd⟩ := h.course hc
  exact ⟨d, hd⟩

end Guest

namespace Continues

theorem refl (h : w.Coherent) : w.Continues w := ⟨h, Nat.le_refl _, fun o => .refl o w⟩

theorem trans (h : w.Continues w') (h' : w'.Continues w'') : w.Continues w'' :=
  ⟨h'.coherent, Nat.le_trans h.later h'.later, fun o => (h.guest o).trans (h'.guest o)⟩

/-- All instances are guests in a world in which files and tags are in order. -/
theorem of_guests (h : w.Coherent) (hw : w'.Dated) (hn : w.nextTag ≤ w'.nextTag) (hg : ∀ o, Guest o w w') :
    w.Continues w' :=
  ⟨⟨hw, fun o => (hg o).stands (h.stands o)⟩, hn, hg⟩

end Continues

namespace Dated

theorem instanceOf_of_le (h : w.Dated) (ho : w.nextTag ≤ o.index) : w.instanceOf o = {} := by
  rw [instanceOf, Std.ExtTreeMap.getD_eq_getD_getElem?, h.instances ho]
  rfl

theorem given (h : w.Dated) (ho : w.instances.contains o = true) : o.index < w.nextTag := by
  refine Nat.lt_of_not_le fun hn => ?_
  rw [Std.ExtTreeMap.contains_eq_isSome_getElem?, h.instances hn] at ho
  cases ho

theorem of_filed (h : w.Dated) (hs : w'.subscriptions.Filed) (hd : w'.delays.Filed)
    (hsub : ∀ (id : SubscriptionId) (e : Subscription (Listener σ)),
      w'.subscriptions.entries[id]? = some e → w.subscriptions.entries[id]? = some e)
    (hdel : ∀ (id : DelayId) (e : PendingDelay (Alarm σ)),
      w'.delays.pending[id]? = some e → w.delays.pending[id]? = some e)
    (hi : w'.instances = w.instances) (ha : ∀ o, w'.acts o = w.acts o) (hn : w.nextTag ≤ w'.nextTag) : w'.Dated where
  subscriptions := hs
  delays := hd
  instances ho := by
    rw [hi]
    exact h.instances (Nat.le_trans hn ho)
  acts ho := by
    rw [ha]
    exact h.acts (Nat.le_trans hn ho)
  listeners he ho := (h.listeners (hsub _ _ he) ho).imp_right fun hlt => Nat.lt_of_lt_of_le hlt hn
  alarms he ho := (h.alarms (hdel _ _ he) ho).imp_right fun hlt => Nat.lt_of_lt_of_le hlt hn

theorem of_eq (h : w.Dated) (hs : w'.subscriptions = w.subscriptions) (hd : w'.delays = w.delays)
    (hi : w'.instances = w.instances) (ha : ∀ o, w'.acts o = w.acts o) (hn : w.nextTag ≤ w'.nextTag) : w'.Dated :=
  h.of_filed (hs ▸ h.subscriptions) (hd ▸ h.delays) (fun _ _ he => hs ▸ he) (fun _ _ he => hd ▸ he) hi ha hn

theorem modify (h : w.Dated) (ho : owner.index < w.nextTag) (f : Instance → Instance) :
    (w.modifyInstance owner f).Dated where
  subscriptions := h.subscriptions
  delays := h.delays
  instances {o} hn := by
    rw [modifyInstance, setInstance, Std.ExtTreeMap.getElem?_insert, if_neg]
    · exact h.instances hn
    · rw [Std.LawfulEqCmp.compare_eq_iff_eq]
      rintro rfl
      exact absurd ho (Nat.not_lt.mpr hn)
  acts hn := (acts_modifyInstance w f owner _).trans (h.acts hn)
  listeners := h.listeners
  alarms := h.alarms

theorem observe (h : w.Dated) (ho : owner.index < w.nextTag) (a : Activity) : (w.observe owner a).Dated where
  subscriptions := h.subscriptions
  delays := h.delays
  instances hn := h.instances hn
  acts {o} hn := by
    rw [acts_observe, if_neg, List.append_nil]
    · exact h.acts hn
    · rintro rfl
      exact absurd ho (Nat.not_lt.mpr hn)
  listeners := h.listeners
  alarms := h.alarms

theorem record (h : w.Dated) {e : Entry} (he : ∀ o, e.of? o = none) : (w.record e).Dated :=
  h.of_eq rfl rfl rfl (fun o => by rw [acts_record, he, Option.toList_none, List.append_nil]) (Nat.le_refl _)

theorem subscribe (h : w.Dated) (key : EventKey) (tag : Tag) {l : Listener σ}
    (hl : ∀ o, l.owner? = some o → tag = o ∧ o.index < w.nextTag) : (w.subscribe key tag l).2.Dated := by
  refine ⟨h.subscriptions.add key tag l, h.delays, h.instances, h.acts, ?_, h.alarms⟩
  intro id e o he ho
  change (w.subscriptions.add key tag l).2.entries[id]? = some e at he
  rw [Subscriptions.entries_add] at he
  split at he
  · obtain rfl := Option.some.inj he
    exact hl o ho
  · exact h.listeners he ho

theorem delay (h : w.Dated) (span : Float) (tag : Tag) {a : Alarm σ}
    (ha : ∀ o, a.owner? = some o → tag = o ∧ o.index < w.nextTag) : (w.delay span tag a).2.Dated := by
  refine ⟨h.subscriptions, h.delays.schedule _ tag a, h.instances, h.acts, h.listeners, ?_⟩
  intro id e o he ho
  change (w.delays.schedule (w.time + span) tag a).2.pending[id]? = some e at he
  rw [Delays.pending_schedule] at he
  split at he
  · obtain rfl := Option.some.inj he
    exact ha o ho
  · exact h.alarms he ho

theorem unsubscribe (h : w.Dated) {s : Subscriptions (Listener σ)} (hs : s.Filed)
    (hsub : ∀ (id : SubscriptionId) (e : Subscription (Listener σ)),
      s.entries[id]? = some e → w.subscriptions.entries[id]? = some e) :
    ({ w with subscriptions := s } : World σ).Dated :=
  h.of_filed hs h.delays hsub (fun _ _ => id) rfl (fun _ => rfl) (Nat.le_refl _)

/-- Delays are removed, or taken out because they are due. -/
theorem expire (h : w.Dated) {d : Delays (Alarm σ)} (hd : d.Filed)
    (hdel : ∀ (id : DelayId) (e : PendingDelay (Alarm σ)),
      d.pending[id]? = some e → w.delays.pending[id]? = some e) :
    ({ w with delays := d } : World σ).Dated :=
  h.of_filed h.subscriptions hd (fun _ _ => id) hdel rfl (fun _ => rfl) (Nat.le_refl _)

theorem releaseTag (h : w.Dated) (tag : Tag) : (w.releaseTag tag).Dated := by
  have hrest : ({ w with
      subscriptions := (w.subscriptions.removeOwner tag).2
      delays := (w.delays.cancelOwner tag).2 } : World σ).Dated :=
    h.of_filed (h.subscriptions.removeOwner tag) (h.delays.cancelOwner tag)
      (fun _ _ he => (Subscriptions.entries_removeOwner h.subscriptions he).1)
      (fun _ _ he => (Delays.pending_cancelOwner h.delays he).1) rfl (fun _ => rfl) (Nat.le_refl _)
  rw [World.releaseTag]
  dsimp only
  split
  · exact hrest.record fun _ => rfl
  · exact hrest

end Dated

end World

end BehaviorTree
