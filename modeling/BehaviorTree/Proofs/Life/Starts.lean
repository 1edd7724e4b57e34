import BehaviorTree.Proofs.Life.Exclusion
import BehaviorTree.Proofs.Life.Memory
import BehaviorTree.Proofs.Tree.Loading
import BehaviorTree.Workbench.Nodes

/-!
A node that runs its child once hands over to others at most once, whatever is done with its instance, as long as no
host clears instances or gives them other trees. It takes the mark it left for itself as a reason to fail, and neither an
interruption nor anything else that is dropped of the instance takes that away.
-/

namespace BehaviorTree
set_option autoImplicit false

variable {σ α : Type} {o p : Tag} {k : NodeId} {w₀ w w' : World σ}

theorem World.mirrors_elapses (hp : o ≠ p) (hgiven : p.index < w₀.nextTag) :
    World.Mirrors p (fun _ => True) (fun _ => True) (fun _ => True) (fun w v => v = w ∧ w₀.Elapses o k w) := by
  have hstill : ∀ {w : World σ}, w₀.Elapses o k w → p.index < w.nextTag := fun h => Nat.lt_of_lt_of_le hgiven h.later
  refine mirrors_self (fun f h => ?_) (fun {w e} he h => ?_) (fun {w} key listener child h => ?_)
    (fun {w} span job h => ?_) fun h => ?_
  · exact h.unmoved (h.mindful.lasts.modify (hstill h) f) (.modify_other hp f)
  · refine h.unmoved (h.mindful.lasts.record fun q => ?_) (.unseen (he o hp))
    by_cases hq : q = p
    · exact .inl (hq ▸ hstill h)
    · exact .inr (he q hq)
  · refine h.unmoved (h.mindful.lasts.subscribe key p ?_ trivial) (.of_eq (Nat.le_refl _) rfl rfl)
    rintro _ ⟨⟩
    exact ⟨rfl, hstill h⟩
  · refine h.unmoved (h.mindful.lasts.delay span p ?_ trivial) (.of_eq (Nat.le_refl _) rfl rfl)
    rintro _ ⟨⟩
    exact ⟨rfl, hstill h⟩
  · exact h.unmoved (h.mindful.lasts.releaseTag p) (.releaseTag p)

open World

/-- Whoever is called elapses, or keeps the instance vouching for its node if it is called for that. -/
structure Engine.Recalling (o : Tag) (k : NodeId) (e : Engine σ) : Prop where
  run (w₀ : World σ) (running : Tree) (id : NodeId) : TickM.Minds o k w₀ running _ (e.run id) (e.run id)
  resume (w₀ : World σ) (running : Tree) (level : Nat) : TickM.Minds o k w₀ running _ (e.resume level) (e.resume level)
  hear {w : World σ} {l : Listener σ} (event : Event) : w.Mindful o k → l.Lasting →
    (∀ p, l.owner? = some p → p.index < w.nextTag) → w.Then (e.hear l event) fun _ => w.Elapses o k
  alarm {w : World σ} {a : Alarm σ} : w.Mindful o k → a.Lasting →
    (∀ p, a.owner? = some p → p.index < w.nextTag) → w.Then (e.alarm a) fun _ => w.Elapses o k
  runPending {w₀ w : World σ} : w.Minded o k w₀ true → w.Then (e.runPending o) fun _ w' => w'.Minded o k w₀ true
  others {p : Tag} (hp : o ≠ p) (w₀ : World σ) (hgiven : p.index < w₀.nextTag) :
    Engine.InStep p (fun _ => True) (fun _ => True) (fun _ => True) (fun w v => v = w ∧ w₀.Elapses o k w) e e

theorem Engine.dispatch_elapses {e : Engine σ}
    (hhear : ∀ {w : World σ} {l : Listener σ} (event : Event), w.Mindful o k → l.Lasting →
      (∀ p, l.owner? = some p → p.index < w.nextTag) → w.Then (e.hear l event) fun _ => w.Elapses o k)
    (h : w.Mindful o k) (key : EventKey) (args : List Value) : w.Then (e.dispatch key args) fun _ => w.Elapses o k := by
  simp only [Engine.dispatch, then_bind, then_get, then_pure]
  refine then_forM (.refl h) fun l hl v hv => ?_
  obtain ⟨id, entry, hentry, rfl⟩ := Subscriptions.mem_callbacks hl
  refine (hhear _ hv.mindful (h.lasts.hears hentry) fun p hp => ?_).mono fun _ _ hv' => hv.trans hv'
  exact Nat.lt_of_lt_of_le (h.lasts.listeners hentry hp).2 hv.later

theorem WorldM.inStep_elapses {m : WorldM σ α} (hm : ∀ {w : World σ}, w.Mindful o k → w.Then m fun _ => w.Elapses o k) :
    WorldM.InStep (fun w v => v = w ∧ w₀.Elapses o k w) m m :=
  inStep_of_keeps fun h => (hm h.mindful).mono fun _ _ hv => h.trans hv

namespace Engine.Recalling

variable {e : Engine σ} (he : e.Recalling o k)
include he

theorem dispatch (h : w.Mindful o k) (key : EventKey) (args : List Value) :
    w.Then (e.dispatch key args) fun _ => w.Elapses o k := dispatch_elapses he.hear h key args

/-! ### Ticks and jobs of the instance -/

theorem relates (w₀ : World σ) (running : Tree) :
    Engine.Relates o (fun _ => True) (fun n => ∃ i, running.get? i = some n) (TickM.Minds o k w₀ running) e e :=
  { TickM.correspondence_minds with
    heeds := fun {n} _ => n.heeds_all
    run := he.run w₀ running
    resume := he.resume w₀ running
    dispatch := by
      intro n event _ _ key args u hu
      have hmindful : u.world.Mindful o k :=
        ⟨hu.lasts, hu.unasked, fun hx => absurd (hu.executing.symm.trans hx) (by decide)⟩
      refine TickM.leaves_onWorld ((he.dispatch hmindful key args).mono fun _ w' hdone => ?_)
      exact hu.unmoved hdone.mindful.lasts (hdone.lent hu.executing) }

/-- Calls that nest one level deeper. The node itself is called in the one place where it marks that it has started. -/
theorem runDeeper (w₀ : World σ) (running : Tree) (id : NodeId) :
    TickM.Minds o k w₀ running _ (e.deeper.run id) (e.deeper.run id) := by
  refine (he.relates w₀ running).bindNode id fun n hn => ?_
  by_cases hself : n.id = k ∧ running.IsOnce k
  · obtain ⟨rfl, honce⟩ := hself
    obtain ⟨i, hi⟩ := hn
    intro u hu
    rw [runNode_eq]
    split
    · exact (he.relates w₀ running).minds_once (honce i n hi rfl) hu
    · exact (he.relates w₀ running).minds_once (honce i n hi rfl) (hu.edit (u.pushed n.id).env rfl)
  · refine (he.relates w₀ running).runNode hn fun resumed u hu => ?_
    by_cases hid : n.id = k
    · exact hu.idly (fun honce => hself ⟨hid, honce⟩) _
    · exact hu.observe fun _ heq => hid (Activity.called.inj heq).1

omit he in
theorem activate {m : TickM σ α} (h : w.Minded o k w₀ true) (hm : TickM.Minds o k w₀ (w.instanceOf o).tree _ m m) :
    w.Then (Engine.activate o m) fun _ w' => w'.Minded o k w₀ true := by
  have hentered := h.observe (a := .entered) fun _ => nofun
  have hlent : Tick.Minded o k w₀ (w.instanceOf o).tree ⟨(w.instanceOf o).env, w.observe o .entered⟩ :=
    ⟨hentered.lasts, hentered.later, hentered.given, hentered.executing, hentered.unasked, rfl, hentered.vouches⟩
  refine then_activate m ((hm hlent).mono fun u hu => ?_)
  have hself := instanceOf_modifyInstance_self u.world o fun i => { i with env := u.env }
  have hback : (u.world.modifyInstance o fun i => { i with env := u.env }).Minded o k w₀ true := by
    refine ⟨hu.lasts.modify hu.given _, hu.later, hu.given, ?_, ?_, ?_, ?_⟩
    · rw [hself]
      exact hu.executing
    · rw [hself]
      exact hu.tree.trans h.tree
    · rw [hself]
      exact hu.unasked
    · intro honce
      rw [hself] at honce ⊢
      exact hu.vouches (hu.tree ▸ honce)
  exact hback.observe fun _ => nofun

/-- Whatever is done with the instance keeps it vouching for its node. -/
theorem conducts (w₀ : World σ) : e.Conducts o fun x _ w => w.Minded o k w₀ x where
  dispatch key args h := (he.dispatch h.mindful key args).mono fun _ _ hp => h.elapses rfl hp
  run id h := activate h (he.run w₀ _ id)
  resume h := activate h (he.resume w₀ _ 0)
  runJob {_ w} job h := by
    have hrelates := he.relates w₀ (w.instanceOf o).tree
    exact activate h (hrelates.bind (fun _ hu => hu.observe fun _ => nofun) fun _ => hrelates.runAside job.heeds_all)
  runPending h := he.runPending h
  announced _ _ h := h.observe fun _ => nofun
  executing h := h.executing
  report r h := h.unmoved (h.lasts.record fun _ => .inr rfl) (.unseen rfl)
  flag h hf := by
    refine h.unmoved (h.lasts.modify h.given _) (.modify_self (fun i => (hf i).executing) (fun i => (hf i).tree)
      (fun i => ?_) fun i => (hf i).clearRequested)
    rw [(hf i).env]
  execute y h := h.execute y
  unwound h := by
    have hseen := h.observe (a := .unwound) fun _ => nofun
    exact hseen.unmoved (hseen.lasts.modify hseen.given _)
      (.modify_self (fun _ => rfl) (fun _ => rfl) (fun _ => rfl) fun _ => id)
  release := by
    intro x b w f h hf
    have hreleased := (h.unmoved (h.lasts.releaseTag o) (.releaseTag o)).observe (a := .unwound) fun _ => nofun
    refine hreleased.unmoved (hreleased.lasts.modify hreleased.given _) (.modify_self (fun i => (hf i).executing)
      (fun i => (hf i).tree) (fun i => ?_) fun i hc => (hf i).clearRequested.trans hc)
    rw [(hf i).env]
    rfl
  forget h hclear := absurd (h.unasked.symm.trans hclear) (by decide)

/-! ### What may be done with an instance -/

theorem schedule (h : w.Mindful o k) (hp : p.index < w.nextTag) (job : Job) :
    w.Then (e.schedule p job) fun _ => w.Elapses o k := by
  by_cases hpo : p = o
  · subst hpo
    have hseen : w.Unmoved p k (w.observe p (.queued job)) := .observe fun _ => nofun
    have hqueued : w.Unmoved p k ((w.observe p (.queued job)).modifyInstance p fun i =>
        { i with pending := i.pending ++ [job] }) :=
      hseen.trans (.modify_self (fun _ => rfl) (fun _ => rfl) (fun _ => rfl) fun _ => id)
    have hlasts := (h.lasts.observe hp (.queued job)).modify hp fun i => { i with pending := i.pending ++ [job] }
    simp only [Engine.schedule, then_bind, then_get]
    split
    · exact (then_pure _).mpr (.refl h)
    · simp only [then_bind, then_modify]
      split
      · exact (then_pure _).mpr ((Elapses.refl h).unmoved hlasts hqueued)
      · rename_i hx
        have hidle : (w.instanceOf p).executing = false := Bool.eq_false_iff.mpr hx
        have hminded := (h.minded hp hidle).unmoved hlasts hqueued
        exact ((he.conducts w).drain hminded).mono fun _ _ hv => hv.elapsed hidle
  · exact WorldM.InStep.keeps ((he.others (Ne.symm hpo) w hp).schedule job.heeds_all) (.refl h)

theorem runTree (h : w.Mindful o k) (hp : p.index < w.nextTag) : w.Then (e.runTree p) fun _ => w.Elapses o k := by
  by_cases hpo : p = o
  · subst hpo
    simp only [Engine.runTree, then_bind, then_get]
    split
    · exact (then_pure _).mpr (.refl h)
    · rename_i hx
      have hidle : (w.instanceOf p).executing = false := Bool.eq_false_iff.mpr hx
      exact ((he.conducts w).startRun (h.minded hp hidle)).mono fun _ _ hv => hv.elapsed hidle
  · exact WorldM.InStep.keeps (he.others (Ne.symm hpo) w hp).runTree (.refl h)

/-- A request is noted while an instance executes, and served at once while it is idle. -/
theorem interruptTree (h : w.Mindful o k) (hp : p.index < w.nextTag) :
    w.Then (e.interruptTree p) fun _ => w.Elapses o k := by
  by_cases hpo : p = o
  · subst hpo
    have hseen : w.Unmoved p k (w.observe p (.requested false)) := .observe fun _ => nofun
    have hlasts := h.lasts.observe hp (.requested false)
    simp only [Engine.interruptTree, then_bind, then_modify, then_get]
    split
    · exact (then_modify _ _).mpr ((Elapses.refl h).unmoved (hlasts.modify hp _)
        (hseen.trans (.modify_self (fun _ => rfl) (fun _ => rfl) (fun _ => rfl) fun _ => id)))
    · rename_i hx
      have hidle : (w.instanceOf p).executing = false := Bool.eq_false_iff.mpr hx
      have hminded := (h.minded hp hidle).unmoved hlasts hseen
      exact ((he.conducts w).interruptNow (b := true) hminded).mono fun _ _ hv => hv.elapsed hidle
  · exact WorldM.InStep.keeps (he.others (Ne.symm hpo) w hp).interruptTree (.refl h)

theorem update (h : w.Mindful o k) (dt : Float) : w.Then (e.update dt) fun _ => w.Elapses o k := by
  simp only [Engine.update, then_bind, then_get, then_modify]
  have hlater : w.Elapses o k
      { w with time := w.time + dt, delays := (w.delays.takeDue (w.time + dt)).2 } := by
    refine (Elapses.refl h).unmoved (h.lasts.expire _ (h.lasts.delays.takeEach _) ?_) (.of_eq (Nat.le_refl _) rfl rfl)
    exact fun id a ha => Delays.pending_of_takeEach ha
  refine then_forM hlater fun a ha v hv => ?_
  obtain ⟨id, entry, hentry, rfl⟩ := Delays.mem_takeEach ha
  refine (he.alarm hv.mindful (h.lasts.rings hentry) fun p hp => ?_).mono fun _ _ hv' => hv.trans hv'
  exact Nat.lt_of_lt_of_le (h.lasts.alarms hentry hp).2 hv.later

omit he in
theorem withInstance {absent : α} {m : WorldM σ α} (h : w.Mindful o k)
    (hm : p.index < w.nextTag → w.Then m fun _ => w.Elapses o k) :
    w.Then (Engine.withInstance p absent m) fun _ => w.Elapses o k := by
  simp only [Engine.withInstance, then_bind, then_get]
  split
  · rename_i hp
    exact hm (h.lasts.given hp)
  · exact (then_pure _).mpr (.refl h)

omit he in
theorem load (h : w.Mindful o k) (spec : TreeSpec) (strict : Bool) : w.Elapses o k (w.load spec strict).2 := by
  have hreports : ∀ (rs : List Report) {v : World σ}, w.Elapses o k v → w.Elapses o k (rs.foldl World.report v) := by
    intro rs
    induction rs with
    | nil => exact fun hv => hv
    | cons r rs ih => exact fun hv => ih (hv.record fun _ => rfl)
  exact hreports _ (.refl h)

omit he in
/-- Nothing was seen of a new instance, and it remembers nothing. -/
theorem create (h : w.Mindful o k) (tree : Tree) (vars : Variables) : w.Elapses o k (w.create tree vars).2 := by
  have hnext : ({ w with nextTag := w.nextTag + 1 } : World σ).Lasts :=
    h.lasts.of_eq rfl rfl rfl (fun _ => rfl) (Nat.le_succ _)
  have hlasts : (w.create tree vars).2.Lasts :=
    hnext.modify (o := ⟨w.nextTag⟩) (Nat.lt_succ_self _) fun _ => { tree, env := { vars } }
  by_cases ho : o = ⟨w.nextTag⟩
  · subst ho
    have hbefore : w.instanceOf ⟨w.nextTag⟩ = {} := h.lasts.instanceOf_of_le (Nat.le_refl _)
    have hself : (w.create tree vars).2.instanceOf ⟨w.nextTag⟩ = { tree, env := { vars } } :=
      instanceOf_modifyInstance_self w.newTag.2 ⟨w.nextTag⟩ fun _ => { tree, env := { vars } }
    have hacts : (w.create tree vars).2.acts ⟨w.nextTag⟩ = [] := h.lasts.acts (Nat.le_refl _)
    refine ⟨⟨hlasts, ?_, fun _ _ => ?_⟩, Nat.le_succ _, ?_, fun ho => absurd ho (Nat.lt_irrefl _), fun hx => ?_⟩
    · rw [hself]
    · rw [hacts]
      exact .nil _ _
    · rw [hself, hbefore]
    · rw [hbefore] at hx
      cases hx
  · exact (Elapses.refl h).unmoved hlasts
      (.of_eq (Nat.le_succ _) (instanceOf_modifyInstance_of_ne ho fun _ => { tree, env := { vars } }) rfl)

theorem perform (q : Program σ) (hq : q.Lasting) (h : w.Mindful o k) : w.Then (e.perform q) fun _ => w.Elapses o k := by
  -- an operation, and then the rest of the program
  have hstep : ∀ {β : Type} {m : WorldM σ β} {next : β → Program σ} {w : World σ}, w.Then m (fun _ => w.Elapses o k) →
      (∀ r {v : World σ}, v.Mindful o k → v.Then (e.perform (next r)) fun _ => v.Elapses o k) →
      w.Then (m >>= fun r => e.perform (next r)) fun _ => w.Elapses o k := by
    intro β m next w hm hnext
    refine (then_bind _ _).mpr (hm.mono fun r v hv => ?_)
    exact (hnext r hv.mindful).mono fun _ _ hv' => hv.trans hv'
  -- nothing of the instance is touched
  have hstill : ∀ {w w' : World σ}, w.Mindful o k → w'.Lasts → w.nextTag ≤ w'.nextTag →
      w'.instanceOf o = w.instanceOf o → w'.acts o = w.acts o → w.Elapses o k w' :=
    fun h hs hn hi ha => (Elapses.refl h).unmoved hs (.of_eq hn hi ha)
  induction q generalizing w with
  | done => exact (then_pure _).mpr (.refl h)
  | look next ih => exact hstep ((then_get _).mpr (.refl h)) fun v => ih v.overview (hq _)
  | store host next ih =>
    refine hstep ((then_modify _ _).mpr ?_) fun _ => ih hq
    exact hstill h (h.lasts.of_eq rfl rfl rfl (fun _ => rfl) (Nat.le_refl _)) (Nat.le_refl _) rfl rfl
  | note v next ih => exact hstep ((then_modify _ _).mpr ((Elapses.refl h).record fun _ => rfl)) fun _ => ih hq
  | load spec strict next ih => exact hstep ((then_apply _).mpr (load h spec strict)) fun r => ih r (hq r)
  | install code f next ih =>
    refine hstep ((then_modify _ _).mpr ?_) fun _ => ih hq
    exact hstill h (h.lasts.of_eq rfl rfl rfl (fun _ => rfl) (Nat.le_refl _)) (Nat.le_refl _) rfl rfl
  | newTag next ih =>
    refine hstep ((then_apply _).mpr ?_) fun r => ih r (hq r)
    exact hstill h (h.lasts.of_eq rfl rfl rfl (fun _ => rfl) (Nat.le_succ _)) (Nat.le_succ _) rfl rfl
  | create tree vars next ih => exact hstep ((then_apply _).mpr (create h tree vars)) fun r => ih r (hq r)
  | run owner next ih => exact hstep (withInstance h fun ho => he.runTree h ho) fun r => ih r (hq r)
  | interrupt owner next ih => exact hstep (withInstance h fun ho => he.interruptTree h ho) fun _ => ih hq
  | clear owner next ih => exact hq.elim
  | setTree owner tree next ih => exact hq.elim
  | setVar owner name value next ih =>
    refine hstep (withInstance h fun ho => (then_modify _ _).mpr ?_) fun _ => ih hq
    have hseen : w.Unmoved o k (w.observe owner (.assigned name value)) := .observe fun _ => nofun
    refine (Elapses.refl h).unmoved ((h.lasts.observe ho _).modify ho _) (hseen.trans ?_)
    by_cases hown : owner = o
    · exact hown ▸ .modify_self (fun _ => rfl) (fun _ => rfl) (fun _ => rfl) fun _ => id
    · exact .modify_other (Ne.symm hown) _
  | drop owner next ih =>
    refine hstep (withInstance h fun ho => (then_modify _ _).mpr ?_) fun _ => ih hq
    refine (Elapses.refl h).unmoved ((h.lasts.modify ho _).releaseTag owner) (.trans ?_ (.releaseTag owner))
    by_cases hown : owner = o
    · exact hown ▸ .modify_self (fun _ => rfl) (fun _ => rfl) (fun _ => rfl) fun _ => id
    · exact .modify_other (Ne.symm hown) _
  | update dt next ih => exact hstep (he.update h dt) fun _ => ih hq
  | dispatch key args next ih => exact hstep (he.dispatch h key args) fun r => ih r (hq r)
  | subscribe key tag callback next _ ih =>
    refine hstep ((then_apply _).mpr ?_) fun r => ih r (hq.2 r)
    exact hstill h (h.lasts.subscribe key tag (by simp [Listener.owner?]) hq.1) (Nat.le_refl _) rfl rfl
  | unsubscribe id next ih =>
    refine hstep ((then_apply _).mpr ?_) fun r => ih r (hq r)
    refine hstill h (h.lasts.unsubscribe (h.lasts.subscriptions.remove id) ?_) (Nat.le_refl _) rfl rfl
    exact fun x entry hx => Subscriptions.entries_of_remove hx
  | unsubscribeEvent event tag next ih =>
    refine hstep ((then_apply _).mpr ?_) fun r => ih r (hq r)
    refine hstill h (h.lasts.unsubscribe (h.lasts.subscriptions.removeEvent event tag) ?_) (Nat.le_refl _) rfl rfl
    exact fun x entry hx => Subscriptions.entries_of_removeEach hx
  | release tag next ih =>
    refine hstep ((then_modify _ _).mpr ?_) fun _ => ih hq
    exact (Elapses.refl h).unmoved (h.lasts.releaseTag tag) (.releaseTag tag)
  | delay time tag callback next _ ih =>
    refine hstep ((then_apply _).mpr ?_) fun r => ih r (hq.2 r)
    exact hstill h (h.lasts.delay time tag (by simp [Alarm.owner?]) hq.1) (Nat.le_refl _) rfl rfl
  | cancel id next ih =>
    refine hstep ((then_apply _).mpr ?_) fun r => ih r (hq r)
    refine hstill h (h.lasts.expire w.time (h.lasts.delays.cancel id) ?_) (Nat.le_refl _) rfl rfl
    exact fun x entry hx => Delays.pending_of_take hx

/-! ### Calls that nest -/

theorem hearEvent {l : Listener σ} (event : Event) (h : w.Mindful o k) (hl : l.Lasting)
    (howner : ∀ p, l.owner? = some p → p.index < w.nextTag) : w.Then (e.hearEvent l event) fun _ => w.Elapses o k := by
  cases l with
  | node owner listener child => exact he.schedule h (howner owner rfl) _
  | host react => exact he.perform (react event) (hl event) h

theorem setOff {a : Alarm σ} (h : w.Mindful o k) (ha : a.Lasting)
    (howner : ∀ p, a.owner? = some p → p.index < w.nextTag) : w.Then (e.setOff a) fun _ => w.Elapses o k := by
  cases a with
  | job owner job => exact he.schedule h (howner owner rfl) job
  | host act => exact he.perform act ha h

theorem deeper : e.deeper.Recalling o k where
  run := he.runDeeper
  resume w₀ running := (he.relates w₀ running).resumeAbove
  hear event := he.hearEvent event
  alarm := he.setOff
  runPending h := (he.conducts _).runNext (b := true) h
  others hp w₀ hgiven := (he.others hp w₀ hgiven).deeper
    (fun _ args => WorldM.inStep_elapses fun h => dispatch_elapses he.hearEvent h _ args)
    fun _ _ key args => WorldM.inStep_elapses fun h => dispatch_elapses he.hearEvent h key args

end Engine.Recalling

/-- However deep calls nest, hosts that let an instance remember keep it vouching for its node. -/
theorem Engine.recalling_ofDepth (o : Tag) (k : NodeId) (n : Nat) : (ofDepth n : Engine σ).Recalling o k := by
  induction n with
  | zero =>
    exact
      { run := fun _ _ _ _ _ => trivial
        resume := fun _ _ _ _ _ => trivial
        hear := fun _ _ _ _ _ _ => nofun
        alarm := fun _ _ _ _ _ => nofun
        runPending := fun _ _ _ => nofun
        others := fun hp w₀ hgiven =>
          { mirrors := mirrors_elapses hp hgiven
            heeds := fun {n} _ => n.heeds_all
            run := fun _ _ _ _ _ _ => .halted _
            resume := fun _ _ _ _ _ _ => .halted _
            runPending := .throw _
            tell := fun _ _ => WorldM.inStep_elapses fun h =>
              dispatch_elapses (e := exhausted) (fun _ _ _ _ _ _ => nofun) h _ _
            dispatch := fun _ _ _ _ => WorldM.inStep_elapses fun h =>
              dispatch_elapses (e := exhausted) (fun _ _ _ _ _ _ => nofun) h _ _ } }
  | succ n ih => exact ih.deeper

namespace World

/-- Before a host does anything, nothing was seen of an instance, and it remembers nothing. -/
theorem mindful_start (registry : Registry) (host : σ) (o : Tag) (k : NodeId) :
    ({ registry, host } : World σ).Mindful o k := by
  have hdated := (coherent_start registry host).toDated
  refine ⟨⟨hdated, fun he => ?_, fun he => ?_⟩, ?_, fun _ _ => ?_⟩
  · cases Std.ExtTreeMap.getElem?_empty.symm.trans he
  · cases Std.ExtTreeMap.getElem?_empty.symm.trans he
  · rw [hdated.instanceOf_of_le (Nat.zero_le _)]
  · exact .nil _ _

theorem perform_create (depth : Nat) (tree : Tree) (vars : Variables) (next : Tag → Program σ) (w : World σ) :
    World.perform depth (.create tree vars next) w =
      World.perform depth (next (w.create tree vars).1) (w.create tree vars).2 := rfl

/-- A node that runs its child once. Whatever hosts do that neither clear instances nor give them other trees: in a tree
that was loaded it hands over to other nodes at most once. Whenever it is resumed it is the next to return, and so it is
whenever it starts afresh and has done so before, and then it fails. Once it has started, its instance remembers. -/
theorem starts_once {registry : Registry} {host : σ} {depth : Nat} {q : Program σ} (hq : q.Lasting)
    (hw : World.perform depth q { registry, host } = .ok w) {r : Registry} (hloads : r.Loads (w.instanceOf o).tree)
    {n : Node} (hn : (w.instanceOf o).tree.get? k = some n) (hb : n.behavior = .once) :
    Activity.Frugal k (w.acts o) ∧ (.called k false ∈ w.acts o → (w.instanceOf o).env.Spent k) := by
  have hidle := (Reached.continues ⟨registry, host, depth, q, hw⟩).2 o
  have helapses := (Engine.recalling_ofDepth o k depth).perform q hq (mindful_start registry host o k) () w
    (run_of_perform hw)
  have honce : (w.instanceOf o).tree.IsOnce k := by
    intro i m hm hid
    obtain rfl : i = k := (hloads.sound.1.id_eq hm).symm.trans hid
    obtain rfl : n = m := Option.some.inj (hn.symm.trans hm)
    exact hb
  have hvouches := helapses.mindful.idle hidle honce
  exact ⟨hvouches.frugal, hvouches.spent⟩

end World

def Activity.isStart (k : NodeId) : Activity → Bool
  | .called id false => id = k
  | _ => false

theorem Activity.eq_called_of_isStart {a : Activity} (h : a.isStart k = true) : a = .called k false := by
  unfold Activity.isStart at h
  split at h
  · rw [of_decide_eq_true h]
  · cases h

open Workbench

namespace Rite

def root : Node where
  id := ⟨0⟩
  name := "Once"
  args := []
  input := []
  output := []
  children := [⟨1⟩]
  kind := BuiltIn.once.kind
  debug := false
  behavior := .once

def vigil : Node where
  id := ⟨1⟩
  name := "Step"
  args := [("label", .string "vigil"), ("ticks", .int 2)]
  input := []
  output := []
  children := []
  kind := step.kind
  debug := false
  behavior := .leaf (stepLeaf (.string "vigil") 2 .success)

/-- A tree that keeps a vigil once. -/
def tree : Tree where
  name := "rite"
  nodes := [vigil, root].foldl (fun filed n => filed.insert n.id n) ∅

def spec : TreeSpec where
  name := "rite"
  root :=
    { id := ⟨0⟩, name := "Once"
      children := [{ id := ⟨1⟩, name := "Step", args := [("label", .string "vigil"), ("ticks", .int 2)] }] }

theorem loads : (withNodeTypes Registry.builtIn).Loads tree := ⟨Expression.compile, true, spec, _, rfl⟩

/-- The vigil is interrupted in its second tick, and the rite is then held again. -/
def held (owner : Tag) : Program Unit :=
  .run owner fun _ => .run owner fun _ => .interrupt owner <| .run owner fun _ => .done

end Rite

/-- The rite starts twice, and the second time it fails. -/
theorem starts_once_rite : ∃ w : World Unit,
    World.perform 4 (.create Rite.tree ∅ Rite.held) { registry := withNodeTypes Registry.builtIn, host := () } = .ok w ∧
      (w.acts ⟨0⟩).countP (Activity.isStart ⟨0⟩) = 2 ∧ Activity.Frugal ⟨0⟩ (w.acts ⟨0⟩) ∧
      (w.instanceOf ⟨0⟩).env.Spent ⟨0⟩ := by
  have hruns : (World.perform 4 (.create Rite.tree ∅ Rite.held)
      { registry := withNodeTypes Registry.builtIn, host := () }).toOption.any (fun w =>
        (w.acts ⟨0⟩).countP (Activity.isStart ⟨0⟩) == 2) = true := by decide +kernel
  obtain ⟨w, hw, htwice⟩ := exists_ok_of_any hruns
  have hlasting : (Program.create Rite.tree ∅ Rite.held).Lasting := fun _ _ _ _ => trivial
  -- the host leaves the tree alone from the creation on
  have hcreated := Engine.Recalling.create (k := ⟨0⟩)
    (World.mindful_start (withNodeTypes Registry.builtIn) () ⟨0⟩ ⟨0⟩) Rite.tree ∅
  have hafter := (World.perform_create 4 Rite.tree ∅ Rite.held _).symm.trans hw
  have hheld := (Engine.recalling_ofDepth ⟨0⟩ ⟨0⟩ 4).perform (Rite.held ⟨0⟩) (fun _ _ _ => trivial) hcreated.mindful
    () w (World.run_of_perform hafter)
  have htree : (w.instanceOf ⟨0⟩).tree = Rite.tree := (hheld.tree Nat.zero_lt_one).trans (congrArg Instance.tree
    (World.instanceOf_modifyInstance_self _ ⟨0⟩ fun _ => { tree := Rite.tree, env := {} }))
  have hgets : (w.instanceOf ⟨0⟩).tree.get? ⟨0⟩ = some Rite.root := htree ▸ rfl
  obtain ⟨hfrugal, hspent⟩ := World.starts_once hlasting hw (htree ▸ Rite.loads) hgets rfl
  refine ⟨w, hw, beq_iff_eq.mp htwice, hfrugal, hspent ?_⟩
  obtain ⟨a, ha, hstart⟩ := List.countP_pos_iff.mp (beq_iff_eq.mp htwice ▸ Nat.zero_lt_two)
  exact Activity.eq_called_of_isStart hstart ▸ ha

end BehaviorTree
