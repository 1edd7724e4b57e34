import BehaviorTree.Proofs.Life.Lifetime

/-!
What the host and the nodes may do with a world leaves the courses of its instances in order, whatever they do and
however deep their calls nest. So every instance of a world that came about in this way stands on its course.
-/

namespace BehaviorTree
set_option autoImplicit false

variable {σ α : Type} {w w' : World σ} {o : Tag} {c d : Course} {b : Bool} {e : Engine σ}

namespace World

namespace Continues

theorem of_eq (hw : w.Coherent) (hdated : w'.Dated) (hi : w'.instances = w.instances)
    (ha : ∀ o, w'.acts o = w.acts o) (hn : w.nextTag ≤ w'.nextTag) : w.Continues w' :=
  .of_guests hw hdated hn fun o => .of_instances hi (ha o)

theorem record (hw : w.Coherent) {entry : Entry} (he : ∀ o, entry.of? o = none) : w.Continues (w.record entry) :=
  .of_eq hw (hw.record he) rfl (fun o => by rw [acts_record, he, Option.toList_none, List.append_nil]) (Nat.le_refl _)

theorem reports (hw : w.Coherent) (rs : List Report) : w.Continues (rs.foldl World.report w) := by
  induction rs generalizing w with
  | nil => exact .refl hw
  | cons r rs ih =>
    have hfirst : w.Continues (w.report r) := .record hw fun _ => rfl
    exact hfirst.trans (ih hfirst.coherent)

theorem releaseTag (hw : w.Coherent) (tag : Tag) : w.Continues (w.releaseTag tag) :=
  .of_eq hw (hw.releaseTag tag) (instances_releaseTag _ _) (fun _ => acts_releaseTag _ _ _)
    (Nat.le_of_eq (nextTag_releaseTag _ _).symm)

/-- An instance changes in what its course is not about. -/
theorem modify (hw : w.Coherent) (ho : o.index < w.nextTag) {f : Instance → Instance}
    (hf : ∀ i, (f i).executing = i.executing ∧ (f i).pending = i.pending ∧ (f i).interrupted = i.interrupted ∧
      (f i).clearRequested = i.clearRequested) : w.Continues (w.modifyInstance o f) := by
  refine .of_guests hw (hw.modify ho f) (Nat.le_refl _) fun p => ?_
  by_cases hp : p = o
  · obtain ⟨hexec, hpend, hint, hclear⟩ := hf (w.instanceOf o)
    rw [hp]
    refine .of_eq ?_ ?_ ?_ ?_ (acts_modifyInstance _ _ _ _)
    all_goals rw [instanceOf_modifyInstance_self]; assumption
  · exact .modify hp f

/-- Others queue a job of an instance, ask for it to be interrupted, or set its variables. -/
theorem quiet (hw : w.Coherent) (ho : o.index < w.nextTag) {a : Activity} {f : Instance → Instance}
    (hq : a.Quiet false) (he : (f (w.instanceOf o)).executing = (w.instanceOf o).executing)
    (hn : ∀ c, (w.instanceOf o).At c → ∃ d, c.Next a d ∧ (f (w.instanceOf o)).At d) :
    w.Continues ((w.observe o a).modifyInstance o f) := by
  have hself : ((w.observe o a).modifyInstance o f).instanceOf o = f (w.instanceOf o) :=
    instanceOf_modifyInstance_self _ _ _
  refine .of_guests hw ((hw.observe ho a).modify ho f) (Nat.le_refl _) fun p => ?_
  by_cases hp : p = o
  · subst hp
    refine ⟨by rw [hself, he], fun {c} hc => ?_⟩
    obtain ⟨d, hnext, hat⟩ := hn c hc.here
    have hacts : ((w.observe p a).modifyInstance p f).acts p = w.acts p ++ [a] := by
      rw [acts_modifyInstance, acts_observe, if_pos rfl]
    exact ⟨[a], d, hacts, fun _ => List.forall_mem_singleton.mpr hq, .single hnext,
      hacts ▸ hc.path.append (.single hnext), hself ▸ hat⟩
  · exact (Guest.observe hp a).trans (.modify hp f)

theorem of_idle {m : WorldM σ α} {w₀ : World σ} {K : Activity → Prop} (hw : w.Coherent) (ho : o.index < w.nextTag)
    (hb : (w.instanceOf o).executing = false)
    (hm : ∀ c, w.Held false o c → w₀.Then m fun _ w' => ∃ d, w.Turns K false o c w' d) :
    w₀.Then m fun _ => w.Continues := by
  intro a w' hr
  have hturn : ∀ {c}, w.Stands o c → ∃ d, w.Turns K false o c w' d := fun {c} hc => hm c ⟨hw, ho, hb, hc⟩ a w' hr
  obtain ⟨c, hc⟩ := hw.stands o
  obtain ⟨d, hd⟩ := hturn hc
  refine ⟨hd.held.coherent, hd.later, fun p => ?_⟩
  by_cases hp : p = o
  · subst hp
    refine ⟨hd.held.executing.trans hb.symm, fun {c'} hc' => ?_⟩
    obtain ⟨d', hd'⟩ := hturn hc'
    obtain ⟨acts, hacts, hpath, _⟩ := hd'.path
    exact ⟨acts, d', hacts, fun hx => absurd (hx.symm.trans hb) (by decide), hpath, hd'.held.stands⟩
  · exact hd.others hp

end Continues

/-- An idle instance that is asked to be interrupted is unwound. -/
theorem Turns.requested (h : w.Held false o c) :
    ∃ d, w.Turns Activity.Spares false o c ((w.observe o (.requested false)).unwound o) d ∧ d.Still := by
  have hactive := (h.stands.here.still h.executing).active
  have hself : ((w.observe o (.requested false)).unwound o).instanceOf o =
      { w.instanceOf o with interrupted := false, pending := [], env := (w.instanceOf o).env.unwind } :=
    instanceOf_modifyInstance_self _ _ _
  let c₁ : Course := { c with
    asked := true, closed := c.closed || c.active || c.opening, due := c.due || false }
  have hstill : c₁.bare.Still := Course.still_bare hactive
  refine ⟨c₁.bare, .of_path [.requested false, .unwound] h ?_ rfl ?_
    (.cons (.requested c false) (.single (.unwound hactive))) ?_ ?_ (hself ▸ h.executing) fun p hp => ?_, hstill⟩
  · exact ((h.coherent.observe h.given _).observe h.given _).modify h.given _
  · rw [World.unwound, acts_modifyInstance, acts_observe, acts_observe, if_pos rfl, if_pos rfl, List.append_assoc]
    rfl
  · intro a ha
    cases ha with
    | head => trivial
    | tail _ ha => exact List.mem_singleton.mp ha ▸ trivial
  · rw [hself]
    exact hstill.at rfl rfl (h.stands.here.clearRequested.trans (Bool.or_false _).symm)
  · exact ((Guest.observe hp _).trans (.observe hp _)).trans (.modify hp _)

end World

open World

namespace Engine.Civil

variable (he : e.Civil)
include he

theorem schedule (hw : w.Coherent) (ho : o.index < w.nextTag) (job : Job) :
    w.Then (e.schedule o job) fun _ => w.Continues := by
  simp only [Engine.schedule, then_bind, then_get]
  split
  · exact (then_pure _).mpr (.refl hw)
  · cases hb : (w.instanceOf o).executing with
    | true =>
      simp only [if_true, then_bind, then_modify, then_pure]
      refine .quiet hw ho trivial rfl fun c hc => ?_
      obtain ⟨hpending, hinterrupted, hclear, hclosed, _⟩ := hc
      exact ⟨_, .queued c job, by rw [hpending], hinterrupted, hclear, hclosed,
        fun hx => absurd (hb.symm.trans hx) (by decide)⟩
    | false =>
      simp only [Bool.false_eq_true, if_false, then_bind, then_modify]
      refine Continues.of_idle (K := Activity.Spares) hw ho hb fun c h => ?_
      have hstill := h.stands.here.still hb
      obtain ⟨hp, hi⟩ := h.stands.here.quiet hstill
      have hqueue : w.Turns Activity.Spares true o c
          (((w.observe o (.queued job)).modifyInstance o fun i => { i with pending := i.pending ++ [job] }).lock o)
          { c with waiting := c.waiting ++ [job] } := by
        rw [World.lock, modifyInstance_modifyInstance]
        refine .step h (.queued c job) trivial ⟨?_, h.stands.here.interrupted, h.stands.here.clearRequested,
          h.stands.here.closed, by simp⟩ rfl
        rw [h.stands.here.pending]
      refine (he.drain (b := false) hqueue.held hstill.active hstill.closed ?_).mono fun _ w' hw' => ?_
      · rw [instanceOf_modifyInstance_self]
        exact hb
      · obtain ⟨d, hd, _⟩ := hw'
        exact ⟨d, hqueue.trans hd⟩

/-- An instance is asked to be interrupted, while it is idle. -/
theorem interruptTree (h : w.Held false o c) :
    w.Then (e.interruptTree o) fun _ w' => ∃ d, w.Turns Activity.Spares false o c w' d ∧ d.Still ∧
      w'.Bare o (w'.instanceOf o) := by
  have hidle : ((w.observe o (.requested false)).instanceOf o).executing = false := h.executing
  simp only [Engine.interruptTree, then_bind, then_modify, then_get, hidle, Bool.false_eq_true, if_false]
  obtain ⟨_, hunwind, hstill⟩ := Turns.requested h
  refine (he.interruptNow hunwind.held hstill).mono fun _ w' hw' => ?_
  obtain ⟨d, hd, hstill, hbare, _⟩ := hw'
  exact ⟨d, hunwind.trans hd, hstill, hbare⟩

/-- An instance is asked to be cleared, while it is idle. -/
theorem clearTree (h : w.Held false o c) :
    w.Then (e.clearTree o) fun _ w' => ∃ d, w.Turns (fun _ => True) false o c w' d ∧ d.Still ∧
      w'.Bare o (w'.instanceOf o) ∧ (w'.instanceOf o).env = {} ∧
      ∃ acts, (∀ a ∈ acts, a.Mute) ∧
        w'.acts o = w.acts o ++ .requested true :: .announced Lifecycle.cleaned.name [] :: acts ∧
        ((w'.instanceOf o).clearRequested = true → acts.any Activity.isClear = true) := by
  have hidle : ((w.observe o (.requested true)).instanceOf o).executing = false := h.executing
  simp only [Engine.clearTree, then_bind, then_modify, then_get, hidle, Bool.false_eq_true, if_false]
  have hstill := h.stands.here.still h.executing
  obtain ⟨hp, hi⟩ := h.stands.here.quiet hstill
  have hself : ((w.observe o (.requested true)).clearing o).instanceOf o =
      { w.instanceOf o with clearRequested := false, executing := true } := by
    change (((w.observe o (.requested true)).modifyInstance o _).lock o).instanceOf o = _
    rw [World.lock, instanceOf_modifyInstance_self, instanceOf_modifyInstance_self]
    rfl
  let c₁ : Course := { c with
    asked := true, closed := c.closed || c.active || c.opening, due := c.due || true }
  have hcleared : c₁.cleared.Still := ⟨hstill.active, hstill.waiting, rfl, rfl⟩
  have hclear : w.Turns (fun _ => True) true o c ((w.observe o (.requested true)).clearing o) c₁.cleared := by
    refine .of_path [.requested true, .announced Lifecycle.cleaned.name []] h ?_ rfl ?_
      (.cons (.requested c true) (.single (.cleaned [] hstill.active))) (fun _ _ => trivial) ?_ ?_ fun p hp => ?_
    · exact (((h.coherent.observe h.given _).modify h.given _).modify h.given _).observe h.given _
    · rw [World.clearing, acts_telling, acts_modifyInstance, acts_observe, if_pos rfl, List.append_assoc]
      rfl
    · rw [hself]
      exact hcleared.at hp hi rfl
    · rw [hself]
    · exact (((Guest.observe hp _).trans (.modify hp _)).trans (.modify hp _)).trans (.observe hp _)
  refine (he.clearNow hclear.held hcleared rfl hidle).mono fun _ w' hw' => ?_
  obtain ⟨d, hd, hended, hbare, henv⟩ := hw'
  obtain ⟨acts, hacts, hpath, hmute⟩ := hd.path
  refine ⟨d, hclear.trans (hd.mono fun _ _ => trivial), hended, hbare, henv, acts, hmute, ?_, fun hdue => ?_⟩
  · rw [hacts, World.clearing, acts_telling, acts_modifyInstance, acts_observe, if_pos rfl, List.append_assoc,
      List.append_assoc]
    rfl
  · rw [hd.held.stands.here.clearRequested] at hdue
    cases hnone : acts.any Activity.isClear with
    | true => rfl
    | false => cases hdue.symm.trans (hpath.not_due rfl hnone)

omit he in
theorem setTree (h : w.Held false o c) (tree : Tree) :
    w.Then (setTree o tree) fun _ w' => ∃ d, w.Turns (fun _ => True) false o c w' d ∧ d.Still ∧
      w'.Bare o (w'.instanceOf o) := by
  simp only [Engine.setTree, Engine.release, then_bind, then_get, h.executing, Bool.false_eq_true, if_false, then_modify,
    then_pure, modifyInstance_modifyInstance]
  have hstill := h.stands.here.still h.executing
  have hend := Turns.release (K := fun _ => True) (f := fun i => { i with
    tree, env := { i.env.unwind with privates := ∅ }, pending := [] }) false h hstill.active trivial
    ⟨rfl, (h.stands.here.quiet hstill).2, rfl, h.executing, rfl, rfl, rfl⟩
  exact ⟨c.bare, hend.1, Course.still_bare hstill.active, hend.2⟩

/-- What may be done with an instance leaves its course in order, whether or not it executes. -/
theorem run_continues (hw : w.Coherent) (ho : o.index < w.nextTag) : w.Then (e.runTree o) fun _ => w.Continues := by
  cases hb : (w.instanceOf o).executing with
  | true =>
    simp only [Engine.runTree, then_bind, then_get, hb, if_true, then_pure]
    exact .refl hw
  | false =>
    refine Continues.of_idle (K := fun _ => True) hw ho hb fun c h => ?_
    exact (he.runTree h).mono fun _ w' hw' => hw'.imp fun _ hd => hd.1

theorem interrupt_continues (hw : w.Coherent) (ho : o.index < w.nextTag) :
    w.Then (e.interruptTree o) fun _ => w.Continues := by
  cases hb : (w.instanceOf o).executing with
  | true =>
    have hseen : ((w.observe o (.requested false)).instanceOf o).executing = true := hb
    simp only [Engine.interruptTree, then_bind, then_modify, then_get, hseen, if_true]
    refine .quiet hw ho trivial rfl fun c hc => ⟨_, .requested c false, hc.pending, rfl, ?_, fun _ => rfl, ?_⟩
    · exact hc.clearRequested.trans (Bool.or_false _).symm
    · exact fun hx => absurd (hb.symm.trans hx) (by decide)
  | false =>
    refine Continues.of_idle (K := Activity.Spares) hw ho hb fun c h => ?_
    exact (he.interruptTree h).mono fun _ w' hw' => hw'.imp fun _ hd => hd.1

theorem clear_continues (hw : w.Coherent) (ho : o.index < w.nextTag) :
    w.Then (e.clearTree o) fun _ => w.Continues := by
  cases hb : (w.instanceOf o).executing with
  | true =>
    have hseen : ((w.observe o (.requested true)).instanceOf o).executing = true := hb
    simp only [Engine.clearTree, then_bind, then_modify, then_get, hseen, if_true]
    refine .quiet hw ho trivial rfl fun c hc => ⟨_, .requested c true, hc.pending, rfl, ?_, fun _ => rfl, ?_⟩
    · exact (Bool.or_true _).symm
    · exact fun hx => absurd (hb.symm.trans hx) (by decide)
  | false =>
    refine Continues.of_idle (K := fun _ => True) hw ho hb fun c h => ?_
    exact (he.clearTree h).mono fun _ w' hw' => hw'.imp fun _ hd => hd.1

omit he in
theorem setTree_continues (hw : w.Coherent) (ho : o.index < w.nextTag) (tree : Tree) :
    w.Then (Engine.setTree o tree) fun _ => w.Continues := by
  cases hb : (w.instanceOf o).executing with
  | true =>
    simp only [Engine.setTree, then_bind, then_get, hb, if_true, then_pure]
    exact .refl hw
  | false =>
    refine Continues.of_idle (K := fun _ => True) hw ho hb fun c h => ?_
    exact (setTree h tree).mono fun _ w' hw' => hw'.imp fun _ hd => hd.1

omit he in
/-- Nothing is done for a tag that is no instance's. -/
theorem withInstance {absent : α} {m : WorldM σ α} (hw : w.Coherent)
    (hm : o.index < w.nextTag → w.Then m fun _ => w.Continues) :
    w.Then (Engine.withInstance o absent m) fun _ => w.Continues := by
  simp only [Engine.withInstance, then_bind, then_get]
  split
  · exact hm (hw.given ‹_›)
  · exact (then_pure _).mpr (.refl hw)

/-- The clock advances, and the alarms that are due go off. -/
theorem update (hw : w.Coherent) (dt : Float) : w.Then (e.update dt) fun _ => w.Continues := by
  simp only [Engine.update, then_bind, then_get, then_modify]
  have hfirst : w.Continues { w with time := w.time + dt, delays := (w.delays.takeDue (w.time + dt)).2 } := by
    refine .of_eq hw (hw.of_filed hw.subscriptions (hw.delays.takeEach _) (fun _ _ => id) ?_ rfl (fun _ => rfl)
      (Nat.le_refl _)) rfl (fun _ => rfl) (Nat.le_refl _)
    exact fun id entry hid => Delays.pending_of_takeEach hid
  -- the alarms were set under tags that had been given, and these stay given
  have howners : ∀ a ∈ (w.delays.takeDue (w.time + dt)).1, ∀ o, a.owner? = some o → o.index < w.nextTag := by
    intro a ha o ho
    obtain ⟨id, entry, hentry, rfl⟩ := Delays.mem_takeEach ha
    exact (hw.alarms hentry ho).2
  refine then_forM hfirst fun a ha w' hw' => ?_
  refine (he.alarm hw'.coherent fun o ho => ?_).mono fun _ w'' hw'' => hw'.trans hw''
  exact Nat.lt_of_lt_of_le (howners a ha o ho) hw'.later

omit he in
theorem load (hw : w.Coherent) (spec : TreeSpec) (strict : Bool) : w.Continues (w.load spec strict).2 := .reports hw _

omit he in
/-- A new instance has a tag of its own, of which nothing was seen. -/
theorem create (hw : w.Coherent) (tree : Tree) (vars : Variables) : w.Continues (w.create tree vars).2 := by
  let i : Instance := { tree, env := { vars } }
  let w₁ : World σ := { w with nextTag := w.nextTag + 1 }
  have hnext : w₁.Dated := hw.of_eq rfl rfl rfl (fun _ => rfl) (Nat.le_succ _)
  have hset : (w.create tree vars).2 = w₁.modifyInstance ⟨w.nextTag⟩ fun _ => i := rfl
  rw [hset]
  refine .of_guests hw (hnext.modify (Nat.lt_succ_self _) _) (Nat.le_succ _) fun p => ?_
  by_cases hp : p = ⟨w.nextTag⟩
  · have hbefore : w.instanceOf p = {} := hw.instanceOf_of_le (Nat.le_of_eq (congrArg Tag.index hp).symm)
    have hafter : (w₁.modifyInstance ⟨w.nextTag⟩ fun _ => i).instanceOf p = i := by
      rw [hp, instanceOf_modifyInstance_self]
    refine .of_eq ?_ ?_ ?_ ?_ (acts_modifyInstance _ _ _ _)
    all_goals rw [hbefore, hafter]
  · have hfirst : Guest p w w₁ := .of_instances rfl rfl
    exact hfirst.trans (.modify hp _)

/-- Whatever the host does, every instance stays on its course. -/
theorem perform (p : Program σ) (hw : w.Coherent) : w.Then (e.perform p) fun _ => w.Continues := by
  -- an operation, and then the rest of the program from where it leads
  have hstep : ∀ {β : Type} {m : WorldM σ β} {next : β → Program σ} {w : World σ},
      w.Then m (fun _ => w.Continues) →
      (∀ r {w : World σ}, w.Coherent → w.Then (e.perform (next r)) fun _ => w.Continues) →
      w.Then (m >>= fun r => e.perform (next r)) fun _ => w.Continues := by
    intro β m next w hm hnext
    refine (then_bind _ _).mpr (hm.mono fun r w₁ hw₁ => ?_)
    exact (hnext r hw₁.coherent).mono fun _ w₂ hw₂ => hw₁.trans hw₂
  induction p generalizing w with
  | done => exact (then_pure _).mpr (.refl hw)
  | look next ih => exact hstep ((then_get _).mpr (.refl hw)) fun w' _ hw => ih w'.overview hw
  | store host next ih =>
    refine hstep ((then_modify _ _).mpr ?_) fun _ _ hw => ih hw
    exact .of_eq hw (hw.of_eq rfl rfl rfl (fun _ => rfl) (Nat.le_refl _)) rfl (fun _ => rfl) (Nat.le_refl _)
  | note v next ih => exact hstep ((then_modify _ _).mpr (.record hw fun _ => rfl)) fun _ _ hw => ih hw
  | load spec strict next ih => exact hstep ((then_apply _).mpr (load hw spec strict)) fun r _ hw => ih r hw
  | install code f next ih =>
    refine hstep ((then_modify _ _).mpr ?_) fun _ _ hw => ih hw
    exact .of_eq hw (hw.of_eq rfl rfl rfl (fun _ => rfl) (Nat.le_refl _)) rfl (fun _ => rfl) (Nat.le_refl _)
  | newTag next ih =>
    refine hstep ((then_apply _).mpr ?_) fun r _ hw => ih r hw
    exact .of_eq hw (hw.of_eq rfl rfl rfl (fun _ => rfl) (Nat.le_succ _)) rfl (fun _ => rfl) (Nat.le_succ _)
  | create tree vars next ih => exact hstep ((then_apply _).mpr (create hw tree vars)) fun r _ hw => ih r hw
  | run owner next ih => exact hstep (withInstance hw fun ho => he.run_continues hw ho) fun r _ hw => ih r hw
  | interrupt owner next ih => exact hstep (withInstance hw fun ho => he.interrupt_continues hw ho) fun _ _ hw => ih hw
  | clear owner next ih => exact hstep (withInstance hw fun ho => he.clear_continues hw ho) fun _ _ hw => ih hw
  | setTree owner tree next ih =>
    exact hstep (withInstance hw fun ho => setTree_continues hw ho tree) fun r _ hw => ih r hw
  | setVar owner name value next ih =>
    refine hstep (withInstance hw fun ho => (then_modify _ _).mpr ?_) fun _ _ hw => ih hw
    refine .quiet hw ho trivial rfl fun c hc => ⟨c, .assigned c name value, ?_⟩
    exact ⟨hc.pending, hc.interrupted, hc.clearRequested, hc.closed, hc.idle⟩
  | drop owner next ih =>
    refine hstep (withInstance hw fun ho => (then_modify _ _).mpr ?_) fun _ _ hw => ih hw
    have hdrop : w.Continues (w.modifyInstance owner fun i => { i with dropped := true }) :=
      .modify hw ho fun i => ⟨rfl, rfl, rfl, rfl⟩
    exact hdrop.trans (.releaseTag hdrop.coherent owner)
  | update dt next ih => exact hstep (he.update hw dt) fun _ _ hw => ih hw
  | dispatch key args next ih => exact hstep (he.dispatch key args hw) fun r _ hw => ih r hw
  | subscribe key tag callback next _ ih =>
    refine hstep ((then_apply _).mpr ?_) fun r _ hw => ih r hw
    exact .of_eq hw (hw.subscribe key tag (by simp [Listener.owner?])) rfl (fun _ => rfl) (Nat.le_refl _)
  | unsubscribe id next ih =>
    refine hstep ((then_apply _).mpr ?_) fun r _ hw => ih r hw
    refine .of_eq hw (hw.unsubscribe (hw.subscriptions.remove id) ?_) rfl (fun _ => rfl) (Nat.le_refl _)
    exact fun id' entry hid => Subscriptions.entries_of_remove hid
  | unsubscribeEvent event tag next ih =>
    refine hstep ((then_apply _).mpr ?_) fun r _ hw => ih r hw
    refine .of_eq hw (hw.unsubscribe (hw.subscriptions.removeEvent event tag) ?_) rfl (fun _ => rfl) (Nat.le_refl _)
    exact fun id' entry hid => Subscriptions.entries_of_removeEach hid
  | release tag next ih => exact hstep ((then_modify _ _).mpr (.releaseTag hw tag)) fun _ _ hw => ih hw
  | delay time tag callback next _ ih =>
    refine hstep ((then_apply _).mpr ?_) fun r _ hw => ih r hw
    exact .of_eq hw (hw.delay time tag (by simp [Alarm.owner?])) rfl (fun _ => rfl) (Nat.le_refl _)
  | cancel id next ih =>
    refine hstep ((then_apply _).mpr ?_) fun r _ hw => ih r hw
    refine .of_eq hw (hw.expire (hw.delays.cancel id) ?_) rfl (fun _ => rfl) (Nat.le_refl _)
    exact fun id' entry hid => Delays.pending_of_take hid

end Engine.Civil

/-- Calls that nest to whatever depth leave the courses of the instances in order. -/
theorem Engine.civil_ofDepth (n : Nat) : (Engine.ofDepth n : Engine σ).Civil := by
  induction n with
  | zero =>
    exact ⟨fun _ _ => .halt _, fun _ _ => .halt _, fun _ _ _ => (then_throw _).mpr trivial,
      fun _ _ => (then_throw _).mpr trivial, fun _ _ _ => (then_throw _).mpr trivial⟩
  | succ n ih =>
    refine ⟨fun o id => .bind ((ih.alike o).node id) fun node => ih.runNode node,
      fun o level => ih.resumeAbove level, ?_, ?_,
      fun h ha hc => ih.runNext h ha hc⟩
    · intro w l event hw hl
      cases l with
      | node owner listener only => exact ih.schedule hw (hl owner rfl) _
      | host react => exact ih.perform _ hw
    · intro w a hw ha
      cases a with
      | job owner job => exact ih.schedule hw (ha owner rfl) job
      | host act => exact ih.perform act hw

end BehaviorTree
