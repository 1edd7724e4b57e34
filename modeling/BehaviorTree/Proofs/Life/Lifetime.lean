import BehaviorTree.Proofs.Life.Behaviors

/-!
What the life of an instance consists of, as its course tells it: each function of the runner takes an instance that
nothing else is being done with from one point of its course to another, and leaves all others guests.
-/

namespace BehaviorTree
set_option autoImplicit false

variable {σ α : Type} {w w' : World σ} {o : Tag} {c d : Course} {b b' : Bool} {e : Engine σ}

namespace Activity

/-- No event of the instance's life is told. -/
def Mute : Activity → Prop
  | announced .. => False
  | _ => True

/-- One event of the instance's life may be told, and nothing is dropped. -/
def Within (event : Lifecycle) : Activity → Prop
  | announced name _ => name = event.name
  | unwound => False
  | _ => True

/-- That the instance was cleared is not told. -/
def Spares : Activity → Prop
  | announced name _ => name ≠ Lifecycle.cleaned.name
  | _ => True

theorem Inner.mute {a : Activity} (h : a.Inner) : a.Mute := by
  cases a with
  | announced => exact h.elim
  | _ => trivial

theorem Inner.within {a : Activity} (h : a.Inner) (event : Lifecycle) : a.Within event := by
  cases a with
  | announced | unwound => exact h.elim
  | _ => trivial

theorem Mute.spares {a : Activity} (h : a.Mute) : a.Spares := by
  cases a with
  | announced => exact h.elim
  | _ => trivial

theorem Within.spares {a : Activity} {event : Lifecycle} (h : a.Within event) (he : event ≠ .cleaned) : a.Spares := by
  cases a with
  | announced name args =>
    intro hname
    exact he (Lifecycle.name_inj.mp (h.symm.trans hname))
  | _ => trivial

end Activity

namespace World

/-- An instance counts as executing while an event of its life is told. -/
def telling (w : World σ) (o : Tag) (event : Lifecycle) : World σ :=
  (w.lock o).observe o (.announced event.name [])

/-- An instance whose suspended nodes and waiting jobs were dropped. -/
def unwound (w : World σ) (o : Tag) : World σ :=
  (w.observe o .unwound).modifyInstance o fun i => { i with interrupted := false, pending := [], env := i.env.unwind }

def clearing (w : World σ) (o : Tag) : World σ :=
  (w.modifyInstance o fun i => { i with clearRequested := false }).telling o .cleaned

end World

@[simp] theorem World.acts_telling (w : World σ) (o : Tag) (event : Lifecycle) :
    (w.telling o event).acts o = w.acts o ++ [.announced event.name []] := by
  rw [telling, acts_observe, if_pos rfl, lock, acts_modifyInstance]

/-- What is seen of an instance after a tick that returned a status: an interruption that was asked for makes it fail,
and a clearing that was asked for comes last. -/
structure World.Settles (w : World σ) (o : Tag) (asked : Bool) (status : Status) (w' : World σ)
    (acts acts' : List Activity) : Prop where
  seen : w'.acts o = w.acts o ++ (acts ++ acts')
  spares : ∀ a ∈ acts, a.Spares
  interrupted : asked = true → status = .failure ∧ w'.Bare o (w'.instanceOf o) ∧ ∃ rest, (∀ a ∈ rest, a.Mute) ∧
    acts = .unwound :: .announced Lifecycle.interrupted.name [] :: rest
  finished : asked = false → ∃ args rest, acts = .announced Lifecycle.afterRun.name args :: rest
  cleared : acts' = [] ∧ (w'.instanceOf o).clearRequested = false ∨
    ∃ rest, acts' = .announced Lifecycle.cleaned.name [] :: rest ∧ (∀ a ∈ rest, a.Mute) ∧
      (w'.instanceOf o).env = {} ∧ ((w'.instanceOf o).clearRequested = true → rest.any Activity.isClear = true)

/-- Whether it executes is nothing that is left of an instance. -/
theorem World.Bare.unlock (h : w.Bare o (w.instanceOf o)) (b : Bool) :
    (w.modifyInstance o fun i => { i with executing := b }).Bare o
      ((w.modifyInstance o fun i => { i with executing := b }).instanceOf o) := by
  rw [instanceOf_modifyInstance_self]
  refine ⟨h.interrupted, h.pending, h.stack, h.temps, h.detached, h.owns.of_eq rfl rfl, ?_⟩
  rw [World.spilled, World.watch, acts_modifyInstance]
  exact h.spilled

theorem World.Settles.unlock {asked : Bool} {status : Status} {acts acts' : List Activity}
    (h : w.Settles o asked status w' acts acts') (b : Bool) :
    w.Settles o asked status (w'.modifyInstance o fun i => { i with executing := b }) acts acts' := by
  have hself := instanceOf_modifyInstance_self w' o fun i => { i with executing := b }
  obtain ⟨hseen, hspares, hinterrupted, hfinished, hcleared⟩ := h
  refine ⟨(acts_modifyInstance _ _ _ _).trans hseen, hspares, fun hc => ?_, hfinished, ?_⟩
  · exact ⟨(hinterrupted hc).1, (hinterrupted hc).2.1.unlock b, (hinterrupted hc).2.2⟩
  · rw [hself]
    exact hcleared

/-- What is suspended in an instance, its queue and a request for its interruption are gone. -/
structure Instance.Released (b : Bool) (i i' : Instance) : Prop where
  pending : i'.pending = []
  interrupted : i'.interrupted = false
  clearRequested : i'.clearRequested = i.clearRequested
  executing : i'.executing = b
  stack : i'.env.stack = ∅
  temps : i'.env.temps = ∅
  detached : i'.env.detached = ∅

namespace World

namespace Turns

variable {K : Activity → Prop}

theorem report (h : w.Held b o c) (r : Report) : w.Turns K b o c (w.report r) c :=
  .of_eq h (h.coherent.record fun _ => rfl) rfl (fun _ => acts_report _ _ _) rfl

theorem releaseTag (h : w.Held b o c) (tag : Tag) : w.Turns K b o c (w.releaseTag tag) c :=
  .of_eq h (h.coherent.releaseTag tag) (instances_releaseTag _ _) (fun _ => acts_releaseTag _ _ _)
    (nextTag_releaseTag _ _)

theorem giveBack {t : Tick σ} (h : t.world.Held true o c) (ha : c.active = true) :
    t.world.Turns Activity.Inner true o c (Engine.giveBack o t) { c with active := false } := by
  obtain ⟨hpending, hinterrupted, hclear, hclosed, hidle⟩ := h.stands.here
  have hput : t.world.Turns Activity.Inner true o c (t.world.modifyInstance o fun i => { i with env := t.env }) c :=
    .modify h ⟨hpending, hinterrupted, hclear, hclosed, hidle⟩ h.executing
  refine hput.trans (.observe hput.held (.left ha) trivial ?_)
  obtain ⟨hpending, hinterrupted, hclear, hclosed, hidle⟩ := hput.held.stands.here
  exact ⟨hpending, hinterrupted, hclear, hclosed, fun hx => ⟨rfl, (hidle hx).2⟩⟩

/-- A tick or job has the state until it is over. -/
theorem activate {m : TickM σ α} (h : w.Held true o c) (ha : c.active = false) (hm : m.Passes o) :
    w.Then (Engine.activate o m) fun _ w' => ∃ d, w.Turns Activity.Inner true o c w' d ∧ d.active = false := by
  refine then_activate m ?_
  obtain ⟨hpending, hinterrupted, hclear, hclosed, _⟩ := h.stands.here
  have hbusy : (w.instanceOf o).executing ≠ false := by
    rw [h.executing]
    decide
  have henter : w.Turns Activity.Inner true o c (w.observe o .entered) { c with active := true, opening := false } :=
    .observe h (.entered ha) trivial ⟨hpending, hinterrupted, hclear, hclosed, fun hx => absurd hx hbusy⟩
  refine (hm ⟨o, (w.instanceOf o).tree⟩ _ rfl).mono fun t ht => ?_
  obtain ⟨k, hk, hactive⟩ := ht _ henter.held rfl
  exact ⟨_, (henter.trans hk).trans (.giveBack hk.held hactive), rfl⟩

/-- The instance is released; nothing of what was suspended or waiting is left. -/
theorem release {f : Instance → Instance} (b' : Bool) (h : w.Held b o c) (ha : c.active = false) (hk : K .unwound)
    (hf : (w.instanceOf o).Released b' (f (w.instanceOf o))) :
    w.Turns K b' o c (((w.releaseTag o).observe o .unwound).modifyInstance o f) c.bare ∧
      (((w.releaseTag o).observe o .unwound).modifyInstance o f).Bare o
        ((((w.releaseTag o).observe o .unwound).modifyInstance o f).instanceOf o) := by
  have hfree : w.Turns K b o c (w.releaseTag o) c := .releaseTag h o
  have hown := ownsNothing_releaseTag h.coherent.subscriptions h.coherent.delays o
  have hsame : (w.releaseTag o).instanceOf o = w.instanceOf o := by rw [instanceOf, instanceOf, instances_releaseTag]
  rw [← hsame] at hf
  generalize w.releaseTag o = w₁ at hfree hown hf ⊢
  obtain ⟨hp, hi, hc, he, hstack, htemps, hdetached⟩ := hf
  constructor
  · refine hfree.trans (.step hfree.held (.unwound ha) hk ?_ he)
    exact ⟨hp, hi, hc.trans hfree.held.stands.here.clearRequested, by simp, fun _ => ⟨ha, rfl, rfl⟩⟩
  · rw [instanceOf_modifyInstance_self]
    refine ⟨hi, hp, hstack, htemps, hdetached, ?_, ?_⟩
    · exact hown.of_eq rfl rfl
    · refine spilled_of_unwound (w₁.acts o) ?_
      rw [acts_modifyInstance, acts_observe, if_pos rfl]

theorem unwind (h : w.Held b o c) (ha : c.active = false) (hk : K .unwound) :
    w.Turns K b o c (w.unwound o) c.bare :=
  .step h (.unwound ha) hk ((Course.still_bare ha).at rfl rfl h.stands.here.clearRequested) h.executing

theorem lock (h : w.Held b o c) : w.Turns K true o c (w.lock o) c := by
  obtain ⟨hpending, hinterrupted, hclear, hclosed, _⟩ := h.stands.here
  exact .modify h ⟨hpending, hinterrupted, hclear, hclosed, by simp⟩ rfl

/-- The instance counts as executing, or no longer, while nothing of it is outstanding. -/
theorem unlock (h : w.Held b o c) (hc : c.Still) (b' : Bool) :
    w.Turns K b' o c (w.modifyInstance o fun i => { i with executing := b' }) c := by
  obtain ⟨hp, hi⟩ := h.stands.here.quiet hc
  exact .modify h (hc.at hp hi h.stands.here.clearRequested) rfl

/-- That an event of an instance's life is told, but not that it was cleared. -/
theorem announced (event : Lifecycle) (h : w.Held true o c) (ha : c.active = false) (hev : event ≠ .cleaned)
    (args : List Value) :
    w.Turns (Activity.Within event) true o c (w.observe o (.announced event.name args))
      { c with opening := event.name == Lifecycle.beforeRun.name } := by
  obtain ⟨hpending, hinterrupted, hclear, hclosed, hidle⟩ := h.stands.here
  exact .observe h (.announced args ha fun hn => hev (Lifecycle.name_inj.mp hn)) rfl
    ⟨hpending, hinterrupted, hclear, hclosed, hidle⟩

/-- That an event of an instance's life is told, of which nothing is outstanding. -/
theorem telling (event : Lifecycle) (h : w.Held b o c) (hc : c.Still) (hev : event ≠ .cleaned) :
    w.Turns (Activity.Within event) true o c (w.telling o event)
      { c with opening := event.name == Lifecycle.beforeRun.name } := by
  have hlock : w.Turns (Activity.Within event) true o c (w.lock o) c := .lock h
  exact hlock.trans (.announced event hlock.held hc.active hev [])

/-- That an instance is cleared of which nothing is outstanding. -/
theorem clearing (h : w.Held b o c) (hc : c.Still) : w.Turns (fun _ => True) true o c (w.clearing o) c.cleared := by
  obtain ⟨hp, hi⟩ := h.stands.here.quiet hc
  have hself : (w.clearing o).instanceOf o = { w.instanceOf o with clearRequested := false, executing := true } := by
    change ((w.modifyInstance o _).lock o).instanceOf o = _
    rw [World.lock, instanceOf_modifyInstance_self, instanceOf_modifyInstance_self]
  refine .of_path [.announced Lifecycle.cleaned.name []] h ?_ rfl ?_ (.single (.cleaned [] hc.active))
    (fun _ _ => trivial) ?_ ?_ fun p hp => ?_
  · exact ((h.coherent.modify h.given _).modify h.given _).observe h.given _
  · rw [World.clearing, acts_telling, acts_modifyInstance]
  · rw [hself]
    exact ⟨hp.trans hc.waiting.symm, hi, rfl, by simp, by simp⟩
  · rw [hself]
  · exact ((Guest.modify hp _).trans (.modify hp _)).trans (.observe hp _)

end Turns

end World

open World

namespace Engine.Civil

variable (he : e.Civil)
include he

theorem runNext (h : w.Held true o c) (ha : c.active = false) (hc : c.closed = false) :
    w.Then (e.runNext o) fun _ w' => ∃ d, w.Turns Activity.Inner true o c w' d ∧ d.active = false ∧
      (d.asked = false → d.waiting = []) := by
  obtain ⟨hpending, hinterrupted, hclear, hclosed, _⟩ := h.stands.here
  have hbusy : (w.instanceOf o).executing ≠ false := by
    rw [h.executing]
    decide
  simp only [Engine.runNext, then_bind, then_get]
  cases hjobs : (w.instanceOf o).pending with
  | nil => exact (then_pure _).mpr ⟨c, .refl h, ha, fun _ => hpending ▸ hjobs⟩
  | cons job rest =>
    simp only [then_bind, then_modify]
    -- the job is off the queue before it is seen to start
    let f : Instance → Instance := fun i => { i with pending := rest }
    have hstart : w.Turns Activity.Inner true o c
        (((w.modifyInstance o f).observe o .entered).observe o (.started job))
        { c with active := true, opening := false, waiting := rest, closed := c.asked } := by
      have hself : (((w.modifyInstance o f).observe o .entered).observe o (.started job)).instanceOf o =
          f (w.instanceOf o) := instanceOf_modifyInstance_self w o f
      refine .of_path [.entered, .started job] h ?_ rfl ?_ ?_ ?_ ?_ ?_ fun p hp => ?_
      · exact ((h.coherent.modify h.given f).observe h.given _).observe h.given _
      · rw [acts_observe, acts_observe, acts_modifyInstance, if_pos rfl, if_pos rfl, List.append_assoc]
        rfl
      · exact .cons (.entered ha) (.single (.started rfl (hpending ▸ hjobs) hc))
      · intro a ha
        cases ha with
        | head => trivial
        | tail _ ha => exact List.mem_singleton.mp ha ▸ trivial
      · rw [hself]
        exact ⟨rfl, hinterrupted, hclear, id, fun hx => absurd hx hbusy⟩
      · rw [hself]
        exact h.executing
      · exact ((Guest.modify hp f).trans (.observe hp _)).trans (.observe hp _)
    have hjob : (w.modifyInstance o f).Then (Engine.activate o (e.runJob job)) fun _ w' =>
        ∃ d, w.Turns Activity.Inner true o c w' d ∧ d.active = false := by
      refine then_activate _ ?_
      refine Outcome.Leaves.mono (he.runAside job ⟨o, _⟩ ⟨_, _⟩ rfl) fun t ht => ?_
      obtain ⟨k, hk, hactive⟩ := ht _ hstart.held rfl
      exact ⟨_, (hstart.trans hk).trans (.giveBack hk.held hactive), rfl⟩
    refine hjob.mono fun result w₁ hw₁ => ?_
    obtain ⟨d, hd, hactive⟩ := hw₁
    -- the rest of the queue is left to the next round, unless the job asked for an interruption
    have hrest : ∀ w₂, w.Turns Activity.Inner true o c w₂ d → w₂.Then (do
        if ((← get).instanceOf o).interrupted then return
        else e.runPending o) fun _ w' => ∃ d, w.Turns Activity.Inner true o c w' d ∧ d.active = false ∧
          (d.asked = false → d.waiting = []) := by
      intro w₂ hw₂
      simp only [then_bind, then_get, hw₂.held.stands.here.interrupted]
      cases hasked : d.asked with
      | true => exact (then_pure _).mpr ⟨d, hw₂, hactive, fun hx => absurd (hasked.symm.trans hx) (by decide)⟩
      | false =>
        refine (he.runPending hw₂.held hactive (hw₂.held.stands.here.opened hasked)).mono fun _ w' hw' => ?_
        obtain ⟨f, hf, hfactive, hempty⟩ := hw'
        exact ⟨f, hw₂.trans hf, hfactive, hempty⟩
    cases result with
    | ok => exact hrest w₁ hd
    | error err => exact hrest _ (hd.trans (.report hd.held _))

theorem told (h : w.Held true o c) (key : EventKey) (args : List Value) :
    w.Then (e.dispatch key args) fun _ w' => ∃ d, w.Turns Activity.Inner true o c w' d ∧ d.active = c.active ∧
      d.opening = c.opening ∧ (c.active = false → c.opening = false → d.closed = c.closed) :=
  (he.dispatch key args h.coherent).mono fun _ _ hw => Turns.of_continues h hw

/-- An event of the life of an instance is told, but not that it was cleared. -/
theorem announce (event : Lifecycle) (h : w.Held true o c) (ha : c.active = false) (hev : event ≠ .cleaned)
    (args : List Value) :
    w.Then (e.announce o event args) fun _ w' => ∃ d, w.Turns (Activity.Within event) true o c w' d ∧
      d.active = false ∧ (event ≠ .beforeRun → d.closed = c.closed) ∧
      ∃ acts, w'.acts o = w.acts o ++ .announced event.name args :: acts := by
  have hseen := Turns.announced event h ha hev args
  simp only [Engine.announce, then_bind, then_modify, then_pure]
  refine (he.told hseen.held _ _).mono fun _ w' hw' => ?_
  obtain ⟨d, hd, hactive, _, hclose⟩ := hw'
  refine ⟨d, hseen.trans (hd.mono fun _ h => h.within event), hactive.trans ha, fun hne => hclose ha ?_, ?_⟩
  · exact beq_eq_false_iff_ne.mpr fun hn => hne (Lifecycle.name_inj.mp hn)
  · obtain ⟨acts, hacts, _⟩ := hd.path
    refine ⟨acts, ?_⟩
    rw [hacts, acts_observe, if_pos rfl, List.append_assoc]
    rfl

/-- Once the end of an instance is told, its jobs run and it is released. -/
theorem windUp {event : Lifecycle} {forget : Env → Env} (h : (w.telling o event).Held true o c)
    (ha : c.active = false) (ho : c.opening = false) (hc : c.closed = false)
    (hforget : ∀ env : Env, (forget env.unwind).stack = ∅ ∧ (forget env.unwind).temps = ∅ ∧
      (forget env.unwind).detached = ∅) :
    w.Then (e.windUp o event forget) fun _ w' => ∃ d,
      (w.telling o event).Turns Activity.Mute (w.instanceOf o).executing o c w' d ∧ d.Still ∧
        w'.Bare o (w'.instanceOf o) ∧ ∃ env : Env, (w'.instanceOf o).env = forget env.unwind := by
  simp only [Engine.windUp, whileExecuting, Engine.announce, Engine.release, then_bind, then_get, then_modify, then_pure,
    modifyInstance_modifyInstance]
  refine (he.told h _ _).mono fun _ w₁ hw₁ => ?_
  obtain ⟨c₁, h₁, hactive₁, _, hclose₁⟩ := hw₁
  refine (he.runPending h₁.held (hactive₁.trans ha) ((hclose₁ ha ho).trans hc)).mono fun _ w₂ hw₂ => ?_
  obtain ⟨c₂, h₂, hactive₂, _⟩ := hw₂
  have hend := Turns.release (K := Activity.Mute)
    (f := fun i => { i with
      env := forget i.env.unwind
      pending := []
      interrupted := false
      executing := (w.instanceOf o).executing }) (w.instanceOf o).executing h₂.held hactive₂ trivial
    ⟨rfl, rfl, rfl, rfl, (hforget _).1, (hforget _).2.1, (hforget _).2.2⟩
  refine ⟨c₂.bare, ((h₁.trans h₂).mono fun _ h => h.mute).trans hend.1, Course.still_bare hactive₂, hend.2, ?_⟩
  exact ⟨_, congrArg Instance.env (instanceOf_modifyInstance_self _ _ _)⟩

/-- An instance that was unwound is told to be interrupted, and released. -/
theorem interruptNow (h : (w.unwound o).Held b o c) (hc : c.Still) :
    w.Then (e.interruptNow o) fun _ w' => ∃ d, (w.unwound o).Turns Activity.Spares b o c w' d ∧ d.Still ∧
      w'.Bare o (w'.instanceOf o) ∧ ∃ acts, (∀ a ∈ acts, a.Mute) ∧
        w'.acts o = (w.unwound o).acts o ++ .announced Lifecycle.interrupted.name [] :: acts := by
  have htell := Turns.telling .interrupted h hc (by simp)
  simp only [Engine.interruptNow, then_bind, then_modify]
  refine (he.windUp (w := w.unwound o) htell.held hc.active rfl hc.closed fun _ => ⟨rfl, rfl, rfl⟩).mono
    fun _ w' hw' => ?_
  obtain ⟨d, hd, hstill, hbare, _⟩ := hw'
  rw [h.executing] at hd
  have hreport := Turns.report (K := Activity.Mute) hd.held (.interrupted o)
  obtain ⟨acts, hacts, _, hmute⟩ := (hd.trans hreport).path
  refine ⟨d, (htell.mono fun _ ha => ha.spares (by simp)).trans ((hd.trans hreport).mono fun _ ha => ha.spares), hstill,
    hbare.report _, acts, hmute, ?_⟩
  rw [hacts, acts_telling, List.append_assoc]
  rfl

/-- An instance is told to be cleared, and forgets everything. -/
theorem clearNow (h : (w.clearing o).Held true o c) (hc : c.Still) (ho : c.opening = false)
    (hb : (w.instanceOf o).executing = b) :
    w.Then (e.clearNow o) fun _ w' => ∃ d, (w.clearing o).Turns Activity.Mute b o c w' d ∧ d.Still ∧
      w'.Bare o (w'.instanceOf o) ∧ (w'.instanceOf o).env = {} := by
  simp only [Engine.clearNow, then_bind, then_modify]
  refine (he.windUp (w := w.modifyInstance o fun i => { i with clearRequested := false }) h hc.active ho hc.closed
    fun _ => ⟨rfl, rfl, rfl⟩).mono fun _ w' hw' => ?_
  obtain ⟨d, hd, hstill, hbare, _, henv⟩ := hw'
  rw [instanceOf_modifyInstance_self] at hd
  have hreport := Turns.report (K := Activity.Mute) hd.held (.cleared o)
  exact ⟨d, hb ▸ hd.trans hreport, hstill, hbare.report _, henv⟩

/-- An instance is interrupted of which nothing is under way. -/
theorem cutShort (h : w.Held b o c) (ha : c.active = false) :
    w.Then (e.interruptNow o) fun _ w' => ∃ d, w.Turns Activity.Spares b o c w' d ∧ d.Still ∧
      w'.Bare o (w'.instanceOf o) ∧ ∃ acts, (∀ a ∈ acts, a.Mute) ∧
        w'.acts o = w.acts o ++ .unwound :: .announced Lifecycle.interrupted.name [] :: acts := by
  have hunwind : w.Turns Activity.Spares b o c (w.unwound o) c.bare := .unwind h ha trivial
  refine (he.interruptNow hunwind.held (Course.still_bare ha)).mono fun _ w' hw' => ?_
  obtain ⟨d, hd, hstill, hbare, acts, hmute, hacts⟩ := hw'
  refine ⟨d, hunwind.trans hd, hstill, hbare, acts, hmute, ?_⟩
  rw [hacts, World.unwound, acts_modifyInstance, acts_observe, if_pos rfl, List.append_assoc]
  rfl

/-- The queue is run, and an interruption served that was asked for. -/
theorem drain (h : (w.lock o).Held true o c) (ha : c.active = false) (hc : c.closed = false)
    (hb : (w.instanceOf o).executing = b) :
    w.Then (e.drain o) fun _ w' => ∃ d, (w.lock o).Turns Activity.Spares b o c w' d ∧ d.Still := by
  simp only [Engine.drain, whileExecuting, then_bind, then_get, then_modify]
  refine (he.runPending h ha hc).mono fun _ w₁ hw₁ => ?_
  obtain ⟨c₁, h₁, hactive₁, hempty⟩ := hw₁
  have hfirst := h₁.mono (L := Activity.Spares) fun _ ha => ha.mute.spares
  have hserved : w₁.Then (if (w₁.instanceOf o).interrupted then e.interruptNow o else pure ()) fun _ w₂ =>
      ∃ c₂, (w.lock o).Turns Activity.Spares true o c w₂ c₂ ∧ c₂.Still := by
    rw [h₁.held.stands.here.interrupted]
    cases hasked : c₁.asked with
    | true =>
      refine (he.cutShort h₁.held hactive₁).mono fun _ w₂ hw₂ => ?_
      obtain ⟨c₂, h₂, hstill, _⟩ := hw₂
      exact ⟨c₂, hfirst.trans h₂, hstill⟩
    | false =>
      exact (then_pure _).mpr
        ⟨c₁, hfirst, hactive₁, hempty hasked, hasked, h₁.held.stands.here.opened hasked⟩
  refine hserved.mono fun _ w₂ hw₂ => ?_
  obtain ⟨c₂, h₂, hstill⟩ := hw₂
  exact ⟨c₂, h₂.trans (hb ▸ .unlock h₂.held hstill _), hstill⟩

theorem tick (h : w.Held true o c) (ha : c.active = false) :
    w.Then (e.tick o) fun _ w' => ∃ d, w.Turns Activity.Inner true o c w' d ∧ d.active = false := by
  simp only [Engine.tick, then_bind, then_get]
  split
  · exact (then_pure _).mpr ⟨c, .refl h, ha⟩
  · split
    · exact Turns.activate h ha (he.run o _)
    · exact Turns.activate h ha (he.resume o 0)

theorem openRun (h : w.Held b o c) (ha : c.active = false) :
    w.Then (e.openRun o) fun _ w' => ∃ d, w.Turns (Activity.Within .beforeRun) true o c w' d ∧ d.active = false := by
  simp only [Engine.openRun, then_bind, then_modify]
  have hlock : w.Turns (Activity.Within .beforeRun) true o c (w.lock o) c := .lock h
  refine (he.announce .beforeRun hlock.held ha (by simp) []).mono fun _ w₁ hw₁ => ?_
  obtain ⟨c₁, h₁, hactive₁, _, _⟩ := hw₁
  refine (he.tick h₁.held hactive₁).mono fun _ w₂ hw₂ => ?_
  obtain ⟨c₂, h₂, hactive₂⟩ := hw₂
  exact ⟨c₂, (hlock.trans h₁).trans (h₂.mono fun _ ha => ha.within _), hactive₂⟩

/-- Those who listen for the end of a tree act. -/
theorem announceSettled (h : w.Held true o c) (ha : c.active = false) (status : Status) :
    w.Then (e.announceSettled o status) fun _ w' => ∃ d, w.Turns Activity.Spares true o c w' d ∧ d.active = false ∧
      d.closed = c.closed := by
  have htold : ∀ event : Lifecycle, event ≠ .cleaned → event ≠ .beforeRun → w.Then (e.announce o event [])
      fun _ w' => ∃ d, w.Turns Activity.Spares true o c w' d ∧ d.active = false ∧ d.closed = c.closed := by
    intro event hcleaned hbefore
    refine (he.announce event h ha hcleaned []).mono fun _ w' hw' => ?_
    obtain ⟨d, hd, hactive, hclosed, _⟩ := hw'
    exact ⟨d, hd.mono fun _ ha => ha.spares hcleaned, hactive, hclosed hbefore⟩
  cases status with
  | success => exact htold .afterRunSuccess (by simp) (by simp)
  | failure => exact htold .afterRunFailure (by simp) (by simp)
  | running => exact (then_pure _).mpr ⟨c, .refl h, ha, rfl⟩

theorem settleTick (h : w.Held true o c) (ha : c.active = false) (status : Status) :
    w.Then (e.settleTick o status) fun status' w' => ∃ d, w.Turns Activity.Spares true o c w' d ∧ d.Still ∧
      (c.asked = true → status' = .failure ∧ w'.Bare o (w'.instanceOf o) ∧ ∃ acts, (∀ a ∈ acts, a.Mute) ∧
        w'.acts o = w.acts o ++ .unwound :: .announced Lifecycle.interrupted.name [] :: acts) ∧
      (c.asked = false → ∃ acts,
        w'.acts o = w.acts o ++ .announced Lifecycle.afterRun.name [.string status.text] :: acts) := by
  simp only [Engine.settleTick, then_bind, then_get, h.stands.here.interrupted]
  cases hasked : c.asked with
  | true =>
    refine (then_bind _ _).mpr ((he.cutShort h ha).mono fun _ w' hw' => (then_pure _).mpr ?_)
    obtain ⟨d, hd, hstill, hbare, hacts⟩ := hw'
    exact ⟨d, hd, hstill, fun _ => ⟨rfl, hbare, hacts⟩, by simp⟩
  | false =>
    simp only [Bool.false_eq_true, if_false, then_bind, false_implies, true_and, forall_const]
    refine (he.announce .afterRun h ha (by simp) _).mono fun _ w₁ hw₁ => ?_
    obtain ⟨c₁, h₁, hactive₁, hclosed₁, acts, hacts⟩ := hw₁
    have hopen₁ : c₁.closed = false := (hclosed₁ (by simp)).trans (h.stands.here.opened hasked)
    have hend : ∀ {w' d}, w₁.Turns Activity.Spares true o c₁ w' d → d.Still →
        ∃ d, w.Turns Activity.Spares true o c w' d ∧ d.Still ∧ ∃ acts,
          w'.acts o = w.acts o ++ .announced Lifecycle.afterRun.name [.string status.text] :: acts := by
      intro w' d hd hstill
      obtain ⟨acts', hacts', _⟩ := hd.path
      refine ⟨d, (h₁.mono fun _ ha => ha.spares (by simp)).trans hd, hstill, acts ++ acts', ?_⟩
      rw [hacts', hacts, List.append_assoc]
      rfl
    refine (he.announceSettled h₁.held hactive₁ status).mono fun _ w₂ hw₂ => ?_
    obtain ⟨c₂, h₂, hactive₂, hclosed₂⟩ := hw₂
    -- the queue is still open, whatever those who hear the events ask for
    have hopen₂ : c₂.closed = false := hclosed₂.trans hopen₁
    have hlock : w₂.Turns Activity.Spares true o c₂ (w₂.lock o) c₂ := .lock h₂.held
    refine (he.drain hlock.held hactive₂ hopen₂ h₂.held.executing).mono fun _ w' hw' => (then_pure _).mpr ?_
    obtain ⟨d, hd, hstill⟩ := hw'
    exact hend ((h₂.trans hlock).trans hd) hstill

theorem afterTick_ok (h : w.Held true o c) (ha : c.active = false) (status : Status) :
    w.Then (e.afterTick o (.ok status)) fun r w' => ∃ d status' acts acts', r = .ok status' ∧
      w.Turns (fun _ => True) true o c w' d ∧ d.Still ∧ w.Settles o c.asked status' w' acts acts' := by
  simp only [Engine.afterTick, then_bind, then_get]
  refine (he.settleTick h ha status).mono fun status' w₁ hw₁ => ?_
  obtain ⟨c₁, h₁, hstill₁, hasked, hopen⟩ := hw₁
  obtain ⟨acts, hacts, _, hspares⟩ := h₁.path
  have hfinished : c.asked = false → ∃ args rest, acts = .announced Lifecycle.afterRun.name args :: rest := by
    intro hc
    obtain ⟨rest, hrest⟩ := hopen hc
    exact ⟨_, rest, List.append_cancel_left (hacts.symm.trans hrest)⟩
  have hfirst := h₁.mono (L := fun _ => True) fun _ _ => trivial
  cases hflag : (w₁.instanceOf o).clearRequested with
  | false =>
    simp only [Bool.false_eq_true, if_false, then_pure]
    refine ⟨c₁, status', acts, [], rfl, hfirst, hstill₁, ?_, hspares, ?_, hfinished, .inl ⟨rfl, hflag⟩⟩
    · rw [hacts, List.append_nil]
    · intro hc
      obtain ⟨hstatus, hbare, rest, hmute, hrest⟩ := hasked hc
      exact ⟨hstatus, hbare, rest, hmute, List.append_cancel_left (hacts.symm.trans hrest)⟩
  | true =>
    have hclear := Turns.clearing h₁.held hstill₁
    simp only [if_true, then_bind, then_pure]
    refine (he.clearNow hclear.held hstill₁.cleared rfl h₁.held.executing).mono fun _ w' hw' => ?_
    obtain ⟨d, hd, hstill, hbare, henv⟩ := hw'
    obtain ⟨rest, hrest, hpath, hmute⟩ := hd.path
    have hseen : (w₁.clearing o).acts o = w.acts o ++ acts ++ [.announced Lifecycle.cleaned.name []] := by
      rw [World.clearing, acts_telling, acts_modifyInstance, hacts]
    refine ⟨d, status', acts, .announced Lifecycle.cleaned.name [] :: rest, rfl,
      (hfirst.trans hclear).trans (hd.mono fun _ _ => trivial), hstill, ?_, hspares, ?_, hfinished,
      .inr ⟨rest, rfl, hmute, henv, fun hdue => ?_⟩⟩
    · rw [hrest, hseen, List.append_assoc, List.append_assoc]
      rfl
    · intro hc
      obtain ⟨hstatus, _, before, hmute, hbefore⟩ := hasked hc
      exact ⟨hstatus, hbare, before, hmute, List.append_cancel_left (hacts.symm.trans hbefore)⟩
    · rw [hd.held.stands.here.clearRequested] at hdue
      cases hnone : rest.any Activity.isClear with
      | true => rfl
      | false => cases hdue.symm.trans (hpath.not_due rfl hnone)

omit he in
theorem afterTick_error (h : w.Held true o c) (ha : c.active = false) (err : RunError) :
    w.Then (e.afterTick o (.error err)) fun r w' => ∃ d, r = .error err ∧ w.Turns (fun _ => True) true o c w' d ∧
      d.Still ∧ w'.Bare o (w'.instanceOf o) := by
  simp only [Engine.afterTick, Engine.release, then_bind, then_get, then_modify, then_pure,
    modifyInstance_modifyInstance]
  have hreport := Turns.report (K := fun _ => True) h (.tickFailed (w.instanceOf o).tree.name err)
  have hend := Turns.release (K := fun _ => True) (f := fun i => { i with
    pending := [], env := i.env.unwind, interrupted := false }) true hreport.held ha trivial
    ⟨rfl, rfl, rfl, hreport.held.executing, rfl, rfl, rfl⟩
  exact ⟨c.bare, trivial, hreport.trans hend.1, Course.still_bare ha, hend.2⟩

theorem closeRun (h : w.Held true o c) (ha : c.active = false) (result : Except RunError Status) :
    w.Then (e.closeRun o result) fun r w' => ∃ d, w.Turns (fun _ => True) false o c w' d ∧ d.Still ∧
      match result with
      | .error err => r = .error err ∧ w'.Bare o (w'.instanceOf o)
      | .ok _ => ∃ status acts acts', r = .ok status ∧ w.Settles o c.asked status w' acts acts' := by
  simp only [Engine.closeRun, then_bind, then_modify, then_pure]
  cases result with
  | error err =>
    refine (afterTick_error h ha err).mono fun r w₁ hw₁ => ?_
    obtain ⟨d, hr, hd, hstill, hbare⟩ := hw₁
    exact ⟨d, hd.trans (.unlock hd.held hstill false), hstill, hr, hbare.unlock false⟩
  | ok status =>
    refine (he.afterTick_ok h ha status).mono fun r w₁ hw₁ => ?_
    obtain ⟨d, status', acts, acts', hr, hd, hstill, hsettles⟩ := hw₁
    exact ⟨d, hd.trans (.unlock hd.held hstill false), hstill, status', acts, acts', hr, hsettles.unlock false⟩

theorem runTree (h : w.Held false o c) :
    w.Then (e.runTree o) fun r w' => ∃ d, w.Turns (fun _ => True) false o c w' d ∧ d.Still ∧
      match r with
      | .error _ => w'.Bare o (w'.instanceOf o)
      | .ok status => ∃ w₁ c₁ acts acts', w.Turns (Activity.Within .beforeRun) true o c w₁ c₁ ∧
        w₁.Settles o c₁.asked status w' acts acts' := by
  simp only [Engine.runTree, then_bind, then_get, h.executing, Bool.false_eq_true, if_false]
  refine (he.openRun h (h.stands.here.still h.executing).active).mono fun result w₁ hw₁ => ?_
  obtain ⟨c₁, h₁, hactive₁⟩ := hw₁
  refine (he.closeRun h₁.held hactive₁ result).mono fun r w' hw' => ?_
  obtain ⟨d, hd, hstill, hr⟩ := hw'
  refine ⟨d, (h₁.mono fun _ _ => trivial).trans hd, hstill, ?_⟩
  cases result with
  | error err =>
    obtain ⟨rfl, hbare⟩ := hr
    exact hbare
  | ok status =>
    obtain ⟨status', acts, acts', rfl, hsettles⟩ := hr
    exact ⟨w₁, c₁, acts, acts', h₁, hsettles⟩

end Engine.Civil

end BehaviorTree
