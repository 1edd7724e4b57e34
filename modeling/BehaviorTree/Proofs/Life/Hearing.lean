import BehaviorTree.Proofs.Life.Conduct
import BehaviorTree.Proofs.Life.Custody
import BehaviorTree.Proofs.Life.Firing
import BehaviorTree.Proofs.Life.Restraint
import BehaviorTree.Proofs.World.Lockstep

/-!
A listening node holds exactly one live subscription. Whatever is done with a world whose host keeps its hands off what an
instance subscribes to, the two sides on which that is filed agree whenever nothing of the instance is under way. While an
instance is being interrupted they do not, since its nodes may subscribe anew; it is released in the end.
-/

namespace BehaviorTree
set_option autoImplicit false

open Std

variable {σ α : Type} {o p : Tag} {w₀ w w' w'' : World σ} {b x y : Bool}

namespace World

/-- An instance is spared, and what its state and the world have of who is listening agrees; `x` tells whether it
executes, and `b` whether the subscriptions agree as well. The world has come from another one. -/
structure Tended (o : Tag) (w w₀ : World σ) (x b : Bool) : Prop where
  spared : w.Spared o
  later : w₀.nextTag ≤ w.nextTag
  given : o.index < w.nextTag
  executing : (w.instanceOf o).executing = x
  custody : w.Custody o b (w.instanceOf o).tree (w.instanceOf o).env.listening

/-- An instance is spared, and if it is idle all agrees. -/
structure Rests (o : Tag) (w : World σ) : Prop where
  spared : w.Spared o
  custody : (w.instanceOf o).executing = false →
    w.Custody o true (w.instanceOf o).tree (w.instanceOf o).env.listening

/-- Something is done to a world that comes to an end before the instance goes on. If that executes, it is left alone. -/
structure Passes (o : Tag) (w w' : World σ) : Prop where
  rests : w'.Rests o
  later : w.nextTag ≤ w'.nextTag
  executing : (w'.instanceOf o).executing = (w.instanceOf o).executing
  lent : (w.instanceOf o).executing = true → w.Untouched o w'

namespace Passes

theorem refl (h : w.Rests o) : w.Passes o w := ⟨h, Nat.le_refl _, rfl, fun _ => .refl o w⟩

theorem trans (h : w.Passes o w') (h' : w'.Passes o w'') : w.Passes o w'' :=
  ⟨h'.rests, Nat.le_trans h.later h'.later, h'.executing.trans h.executing,
    fun hx => (h.lent hx).trans (h'.lent (h.executing.trans hx))⟩

theorem untouched (h : w₀.Passes o w) (hs : w'.Spared o) (hu : w.Untouched o w') :
    w₀.Passes o w' := by
  refine h.trans ⟨⟨hs, fun hx => ?_⟩, hu.later, hu.executing, fun _ => hu⟩
  rw [hu.tree, hu.listening]
  exact (h.rests.custody (hu.executing.symm.trans hx)).untouched hu

theorem record (h : w₀.Passes o w) {e : Entry} (he : e.of? o = none) : w₀.Passes o (w.record e) :=
  h.untouched (h.rests.spared.record (.inr he)) (.record fun _ => by rw [he]; exact nofun)

theorem report (h : w₀.Passes o w) (r : Report) : w₀.Passes o (w.report r) := h.record rfl

end Passes

theorem Rests.tended (h : w.Rests o) (ho : o.index < w.nextTag) (hx : (w.instanceOf o).executing = false) :
    w.Tended o w false true := ⟨h.spared, Nat.le_refl _, ho, hx, h.custody hx⟩

/-- What is done with the idle instance itself comes to an end. -/
theorem Tended.passed (h : w'.Tended o w false true) (hx : (w.instanceOf o).executing = false) :
    w.Passes o w' :=
  ⟨⟨h.spared, fun _ => h.custody⟩, h.later, h.executing.trans hx.symm, fun hx' => absurd (hx.symm.trans hx') (by decide)⟩

namespace Tended

variable (h : w.Tended o w₀ x b)
include h

theorem untouched (hs : w'.Spared o) (hu : w.Untouched o w') : w'.Tended o w₀ x b := by
  refine ⟨hs, Nat.le_trans h.later hu.later, Nat.lt_of_lt_of_le h.given hu.later, hu.executing.trans h.executing, ?_⟩
  rw [hu.tree, hu.listening]
  exact h.custody.untouched hu

theorem record {e : Entry} (he : ∀ l, e.of? o ≠ some (.returned l (some .success))) :
    (w.record e).Tended o w₀ x b := h.untouched (h.spared.record (.inl h.given)) (.record he)

theorem observe {a : Activity} (ha : ∀ l, a ≠ .returned l (some .success)) : (w.observe o a).Tended o w₀ x b :=
  h.untouched (h.spared.record (.inl h.given)) (.observe ha)

theorem report (r : Report) : (w.report r).Tended o w₀ x b := h.record fun _ => nofun

/-- Something happens to the instance that changes neither its tree nor who is listening. -/
theorem modify {f : Instance → Instance} (hx : (f (w.instanceOf o)).executing = y)
    (ht : ∀ i, (f i).tree = i.tree) (hl : ∀ i, (f i).env.listening = i.env.listening)
    (hd : ∀ i, (f i).dropped = i.dropped) : (w.modifyInstance o f).Tended o w₀ y b := by
  refine ⟨h.spared.modify_self h.given ((hd _).trans h.spared.kept), h.later,
    h.given, ?_, ?_⟩
  · rw [instanceOf_modifyInstance_self]
    exact hx
  · rw [instanceOf_modifyInstance_self, ht, hl]
    exact h.custody.modify o f

/-- An instance that executes is left alone by what others do. -/
theorem passes (hx : x = true) (hp : w.Passes o w') : w'.Tended o w₀ x b :=
  h.untouched hp.rests.spared (hp.lent (h.executing.trans hx))

theorem rests (hxb : x = false → b = true) : w.Rests o := by
  refine ⟨h.spared, fun hx => ?_⟩
  obtain rfl := hxb (h.executing.symm.trans hx)
  exact h.custody

/-- Everything that the instance owns is dropped, and nobody is listening any more. -/
theorem release {f : Instance → Instance} (hx : (f (w.instanceOf o)).executing = y)
    (hl : ∀ i, (f i).env.listening = ∅) (hd : ∀ i, (f i).dropped = i.dropped) :
    (((w.releaseTag o).observe o .unwound).modifyInstance o f).Tended o w₀ y true := by
  have hspared : ((w.releaseTag o).observe o .unwound).Spared o :=
    (h.spared.releaseTag o).record (.inl (nextTag_releaseTag w o ▸ h.given))
  have hsame : ((w.releaseTag o).observe o .unwound).instanceOf o = w.instanceOf o := instanceOf_releaseTag w o o
  have hgiven : o.index < ((w.releaseTag o).observe o .unwound).nextTag := nextTag_releaseTag w o ▸ h.given
  have hlater : w₀.nextTag ≤ ((w.releaseTag o).observe o .unwound).nextTag := nextTag_releaseTag w o ▸ h.later
  have hself := instanceOf_modifyInstance_self ((w.releaseTag o).observe o .unwound) o f
  refine ⟨hspared.modify_self hgiven ?_, hlater, hgiven, ?_, ?_⟩
  · rw [hd, hsame]
    exact h.spared.kept
  · rw [hself, hsame]
    exact hx
  · rw [hself, hl]
    obtain ⟨r, hr⟩ := h.spared.listed
    refine custody_bare (fun id e he => ?_) fun l => ?_
    · change (w.releaseTag o).subscriptions.entries[id]? = some e at he
      rw [subscriptions_releaseTag] at he
      exact (Subscriptions.entries_removeOwner hr.toFiled he).2
    · rw [acts_modifyInstance, acts_observe, if_pos rfl]
      exact Activity.not_succeeded_unwound

/-- What is suspended is dropped, and nobody is listening any more, though subscriptions may be left. -/
theorem unwound : (w.unwound o).Tended o w₀ x false := by
  have hseen := h.spared.record (e := .activity o .unwound) (.inl h.given)
  have hself := instanceOf_modifyInstance_self (w.observe o .unwound) o fun i =>
    { i with interrupted := false, pending := [], env := i.env.unwind }
  refine ⟨hseen.modify_self h.given h.spared.kept, h.later, h.given, ?_, nofun, ?_⟩
  · rw [World.unwound, hself]
    exact h.executing
  · intro l hl
    rw [World.unwound, acts_modifyInstance, acts_observe, if_pos rfl] at hl
    exact absurd hl Activity.not_succeeded_unwound

end Tended

theorem mirrors_passes (hp : o ≠ p) (w₀ : World σ) : World.Mirrors p (fun _ => True) (fun _ => True) (fun _ => True)
    (fun w v => v = w ∧ w₀.Passes o w) := by
  refine mirrors_self (fun {w} f h => ?_) (fun he h => h.record (he o hp)) (fun {w} key listener child h => ?_)
    (fun span job h => ?_) fun h => ?_
  · exact h.untouched (h.rests.spared.modify_other hp f) (.modify_other hp f)
  · have howner : p = o ↔ (Listener.node (σ := σ) p listener child).owner? = some o := Option.some_inj.symm
    exact h.untouched (h.rests.spared.subscribe key howner fun he => absurd (Option.some.inj he).symm hp)
      (h.rests.spared.untouched_subscribe key _ hp.symm)
  · refine h.untouched (h.rests.spared.delay span p fun he => absurd (Option.some.inj he).symm hp) ?_
    exact .of_eq (Nat.le_refl _) rfl rfl rfl
  · exact h.untouched (h.rests.spared.releaseTag p) (h.rests.spared.untouched_releaseTag hp.symm)

end World

open World

/-! ### The life of the instance -/

/-- Whoever is called passes, or keeps the two sides of the instance in agreement if it is called for that. -/
structure Engine.Minding (o : Tag) (e : Engine σ) : Prop where
  run (w₀ : World σ) (b : Bool) (running : Tree) (id : NodeId) :
    TickM.Keeps o w₀ b running _ (e.run id) (e.run id)
  resume (w₀ : World σ) (b : Bool) (running : Tree) (level : Nat) :
    TickM.Keeps o w₀ b running _ (e.resume level) (e.resume level)
  hear {w : World σ} {l : Listener σ} (event : Event) : w.Rests o → (l.owner? = some o → o.index < w.nextTag) →
    w.Then (e.hear l event) fun _ => w.Passes o
  alarm {w : World σ} {a : Alarm σ} : w.Rests o → (a.owner? = some o → o.index < w.nextTag) →
    w.Then (e.alarm a) fun _ => w.Passes o
  runPending {w₀ w : World σ} {b : Bool} : w.Tended o w₀ true b →
    w.Then (e.runPending o) fun _ w' => w'.Tended o w₀ true b
  others {p : Tag} (hp : o ≠ p) (w₀ : World σ) :
    Engine.InStep p (fun _ => True) (fun _ => True) (fun _ => True) (fun w v => v = w ∧ w₀.Passes o w) e e

theorem Engine.dispatch_passes {e : Engine σ}
    (hhear : ∀ {w : World σ} {l : Listener σ} (event : Event), w.Rests o → (l.owner? = some o → o.index < w.nextTag) →
      w.Then (e.hear l event) fun _ => w.Passes o)
    (h : w.Rests o) (key : EventKey) (args : List Value) : w.Then (e.dispatch key args) fun _ => w.Passes o := by
  simp only [Engine.dispatch, then_bind, then_get, then_pure]
  refine then_forM (.refl h) fun l hl v hv => ?_
  obtain ⟨id, entry, hentry, rfl⟩ := Subscriptions.mem_callbacks hl
  have hgiven := fun howner => Nat.lt_of_lt_of_le (h.spared.subscribed hentry howner) hv.later
  exact (hhear _ hv.rests hgiven).mono fun _ _ hv' => hv.trans hv'

theorem WorldM.inStep_passes {m : WorldM σ α} (hm : ∀ {w : World σ}, w.Rests o → w.Then m fun _ => w.Passes o) :
    WorldM.InStep (fun w v => v = w ∧ w₀.Passes o w) m m :=
  inStep_of_keeps fun h => (hm h.rests).mono fun _ _ hv => h.trans hv

namespace Engine.Minding

variable {e : Engine σ} (he : e.Minding o)
include he

theorem dispatch (h : w.Rests o) (key : EventKey) (args : List Value) :
    w.Then (e.dispatch key args) fun _ => w.Passes o := dispatch_passes he.hear h key args

theorem corresponds (w₀ : World σ) (b : Bool) (running : Tree) :
    Engine.Corresponds o (fun _ => True) (fun n => ∃ i, running.get? i = some n) (TickM.Keeps o w₀ b running) e e :=
  { TickM.correspondence_keeps with
    called := fun _ _ _ hu => hu.observe fun _ => nofun
    heeds := fun {n} _ => n.heeds_all
    run := he.run w₀ b running
    resume := he.resume w₀ b running
    dispatch := by
      intro n event _ _ key args u hu
      have hrests : u.world.Rests o := ⟨hu.spared, fun hx => absurd (hu.executing.symm.trans hx) (by decide)⟩
      refine TickM.leaves_onWorld ((he.dispatch hrests key args).mono fun _ w' hdone => ?_)
      exact hu.untouched hdone.rests.spared (hdone.lent hu.executing) }

omit he in
theorem activate {m : TickM σ α} (h : w.Tended o w₀ true b)
    (hm : TickM.Keeps o w₀ b (w.instanceOf o).tree _ m m) :
    w.Then (Engine.activate o m) fun _ w' => w'.Tended o w₀ true b := by
  have hentered := h.observe (a := .entered) fun _ => nofun
  have hlent : Tick.Lent o w₀ b (w.instanceOf o).tree ⟨(w.instanceOf o).env, w.observe o .entered⟩ :=
    ⟨hentered.spared, hentered.later, hentered.given, hentered.executing, rfl, hentered.custody⟩
  refine then_activate m ((hm hlent).mono fun u hu => ?_)
  have hself := instanceOf_modifyInstance_self u.world o fun i => { i with env := u.env }
  have hback : (u.world.modifyInstance o fun i => { i with env := u.env }).Tended o w₀ true b := by
    refine ⟨hu.spared.modify_self hu.given hu.spared.kept, hu.later, hu.given,
      ?_, ?_⟩
    · rw [hself]
      exact hu.executing
    · rw [hself]
      change World.Custody o b _ (u.world.instanceOf o).tree u.env.listening
      rw [hu.tree]
      exact hu.custody.modify o _
  exact hback.observe fun _ => nofun

omit he in
/-- Whatever the two sides were, they agree when the instance has been released. -/
theorem settles {forget : Env → Env} (hforget : ∀ env, env.listening = ∅ → (forget env).listening = ∅) :
    Engine.Settles o (fun x b w => World.Tended o w w₀ x b) forget := by
  intro _ _ _ _ h hf
  refine h.release ((hf _).executing.trans h.executing) (fun i => ?_) fun i => (hf i).dropped
  rw [(hf i).env]
  exact hforget _ rfl

/-- Whatever is done with the instance keeps the two sides in agreement. -/
theorem conducts (w₀ : World σ) : e.Conducts o fun x b w => w.Tended o w₀ x b where
  dispatch key args h := (he.dispatch (h.rests nofun) key args).mono fun _ _ hp => h.passes rfl hp
  run id h := activate h (he.run w₀ _ _ id)
  resume h := activate h (he.resume w₀ _ _ 0)
  runJob {b w} job h := by
    have hcorresponds := he.corresponds w₀ b (w.instanceOf o).tree
    exact activate h (hcorresponds.bind (fun _ hu => hu.observe fun _ => nofun) fun _ =>
      hcorresponds.runAside job.heeds_all)
  runPending h := he.runPending h
  announced _ _ h := h.observe fun _ => nofun
  executing h := h.executing
  report r h := h.report r
  flag h hf := by
    refine h.modify ((hf _).executing.trans h.executing) (fun i => (hf i).tree) (fun i => ?_) fun i => (hf i).dropped
    rw [(hf i).env]
  execute _ h := h.modify rfl (fun _ => rfl) (fun _ => rfl) fun _ => rfl
  unwound h := h.unwound
  release := settles fun _ => id
  forget _ _ := settles fun _ _ => rfl

/-! ### What may be done with an instance -/

theorem schedule (h : w.Rests o) (hp : p = o → o.index < w.nextTag) (job : Job) :
    w.Then (e.schedule p job) fun _ => w.Passes o := by
  by_cases hpo : p = o
  · subst hpo
    have hseen : w.Untouched p (w.observe p (.queued job)) := .observe fun _ => nofun
    have hqueued : w.Untouched p ((w.observe p (.queued job)).modifyInstance p fun i =>
        { i with pending := i.pending ++ [job] }) :=
      hseen.trans (.modify_self (fun _ => rfl) (fun _ => rfl) fun _ => rfl)
    have hspared := (h.spared.record (e := .activity p (.queued job)) (.inl (hp rfl))).modify_self (hp rfl)
      (f := fun i => { i with pending := i.pending ++ [job] }) h.spared.kept
    have hpasses := (Passes.refl h).untouched hspared hqueued
    simp only [Engine.schedule, then_bind, then_get]
    split
    · exact (then_pure _).mpr (.refl h)
    · simp only [then_bind, then_modify]
      split
      · exact (then_pure _).mpr hpasses
      · rename_i hx
        have hidle : (w.instanceOf p).executing = false := Bool.eq_false_iff.mpr hx
        have htended := (h.tended (hp rfl) hidle).untouched hspared hqueued
        exact ((he.conducts w).drain htended).mono fun _ _ hv => hv.passed hidle
  · exact WorldM.InStep.keeps ((he.others (Ne.symm hpo) w).schedule job.heeds_all) (.refl h)

theorem runTree (h : w.Rests o) (hp : p = o → o.index < w.nextTag) :
    w.Then (e.runTree p) fun _ => w.Passes o := by
  by_cases hpo : p = o
  · subst hpo
    simp only [Engine.runTree, then_bind, then_get]
    split
    · exact (then_pure _).mpr (.refl h)
    · rename_i hx
      have hidle : (w.instanceOf p).executing = false := Bool.eq_false_iff.mpr hx
      have hrun := (he.conducts w).startRun (h.tended (hp rfl) hidle)
      exact hrun.mono fun _ _ hv => hv.passed hidle
  · exact WorldM.InStep.keeps (he.others (Ne.symm hpo) w).runTree (.refl h)

/-- A request is noted while an instance executes, and served at once while it is idle. -/
theorem interruptTree (h : w.Rests o) (hp : p = o → o.index < w.nextTag) :
    w.Then (e.interruptTree p) fun _ => w.Passes o := by
  by_cases hpo : p = o
  · subst hpo
    have hseen := (Passes.refl h).untouched (h.spared.record (e := .activity p (.requested false)) (.inl (hp rfl)))
      (.observe fun _ => nofun)
    simp only [Engine.interruptTree, then_bind, then_modify, then_get]
    split
    · refine (then_modify _ _).mpr (hseen.untouched (hseen.rests.spared.modify_self (hp rfl) h.spared.kept) ?_)
      exact .modify_self (fun _ => rfl) (fun _ => rfl) fun _ => rfl
    · rename_i hx
      have hidle : (w.instanceOf p).executing = false := Bool.eq_false_iff.mpr hx
      have htended := (h.tended (hp rfl) hidle).observe (a := .requested false) fun _ => nofun
      exact ((he.conducts w).interruptNow htended).mono fun _ _ hv => hv.passed hidle
  · exact WorldM.InStep.keeps (he.others (Ne.symm hpo) w).interruptTree (.refl h)

theorem clearTree (h : w.Rests o) (hp : p = o → o.index < w.nextTag) :
    w.Then (e.clearTree p) fun _ => w.Passes o := by
  by_cases hpo : p = o
  · subst hpo
    have hseen := (Passes.refl h).untouched (h.spared.record (e := .activity p (.requested true)) (.inl (hp rfl)))
      (.observe fun _ => nofun)
    simp only [Engine.clearTree, then_bind, then_modify, then_get]
    split
    · refine (then_modify _ _).mpr (hseen.untouched (hseen.rests.spared.modify_self (hp rfl) h.spared.kept) ?_)
      exact .modify_self (fun _ => rfl) (fun _ => rfl) fun _ => rfl
    · rename_i hx
      have hidle : (w.instanceOf p).executing = false := Bool.eq_false_iff.mpr hx
      have htended := (h.tended (hp rfl) hidle).observe (a := .requested true) fun _ => nofun
      exact ((he.conducts w).clearNow htended (settles fun _ _ => rfl)).mono fun _ _ hv => hv.passed hidle
  · exact WorldM.InStep.keeps (he.others (Ne.symm hpo) w).clearTree (.refl h)

theorem setTree (h : w.Rests o) (hp : p = o → o.index < w.nextTag) (tree : Tree) :
    w.Then (Engine.setTree p tree) fun _ => w.Passes o := by
  by_cases hpo : p = o
  · subst hpo
    simp only [Engine.setTree, Engine.release, then_bind, then_get]
    split
    · exact (then_pure _).mpr (.refl h)
    · rename_i hx
      have hidle : (w.instanceOf p).executing = false := Bool.eq_false_iff.mpr hx
      simp only [then_bind, then_modify, then_pure, modifyInstance_modifyInstance]
      refine Tended.passed ?_ hidle
      exact (h.tended (hp rfl) hidle).release hidle (fun _ => rfl) fun _ => rfl
  · exact WorldM.InStep.keeps (Engine.InStep.setTree (he.others (Ne.symm hpo) w).mirrors fun _ _ _ => trivial) (.refl h)

theorem update (h : w.Rests o) (dt : Float) : w.Then (e.update dt) fun _ => w.Passes o := by
  simp only [Engine.update, then_bind, then_get, then_modify]
  have hlater : w.Passes o
      { w with time := w.time + dt, delays := (w.delays.takeDue (w.time + dt)).2 } := by
    refine (Passes.refl h).untouched (h.spared.expire _ ?_) (.of_eq (Nat.le_refl _) rfl rfl rfl)
    exact fun id a ha => Delays.pending_of_takeEach ha
  refine then_forM hlater fun a ha v hv => ?_
  obtain ⟨id, entry, hentry, rfl⟩ := Delays.mem_takeEach ha
  have hgiven := fun howner => Nat.lt_of_lt_of_le (h.spared.delayed hentry howner) hv.later
  exact (he.alarm hv.rests hgiven).mono fun _ _ hv' => hv.trans hv'

omit he in
theorem withInstance {absent : α} {m : WorldM σ α} (h : w.Rests o)
    (hm : (p = o → o.index < w.nextTag) → w.Then m fun _ => w.Passes o) :
    w.Then (Engine.withInstance p absent m) fun _ => w.Passes o := by
  simp only [Engine.withInstance, then_bind, then_get]
  split
  · rename_i hp
    exact hm fun hpo => h.spared.given (hpo ▸ hp)
  · exact (then_pure _).mpr (.refl h)

omit he in
theorem load (h : w.Rests o) (spec : TreeSpec) (strict : Bool) : w.Passes o (w.load spec strict).2 := by
  have hreports : ∀ (rs : List Report) {v : World σ}, w.Passes o v → w.Passes o (rs.foldl World.report v) := by
    intro rs
    induction rs with
    | nil => exact fun hv => hv
    | cons r rs ih => exact fun hv => ih (hv.report r)
  exact hreports _ (.refl h)

omit he in
/-- A new instance subscribes to nothing, and nobody subscribes under its tag. -/
theorem create (h : w.Rests o) (tree : Tree) (vars : Variables) : w.Passes o (w.create tree vars).2 := by
  have hspared := h.spared.create tree vars
  by_cases ho : o = ⟨w.nextTag⟩
  · subst ho
    obtain ⟨hnone, hacts⟩ := h.spared.unborn (Nat.le_refl _)
    have hidle : (w.instanceOf ⟨w.nextTag⟩).executing = false := by
      rw [instanceOf, ExtTreeMap.getD_eq_getD_getElem?, hnone]
      rfl
    have hself : (w.create tree vars).2.instanceOf ⟨w.nextTag⟩ = { tree, env := { vars } } :=
      instanceOf_modifyInstance_self w.newTag.2 ⟨w.nextTag⟩ fun _ => { tree, env := { vars } }
    refine ⟨⟨hspared, fun _ => ?_⟩, Nat.le_succ _, ?_, fun hx => absurd (hidle.symm.trans hx) (by decide)⟩
    · rw [hself]
      refine custody_bare (fun id e he ht => ?_) fun l hl => ?_
      · exact Nat.lt_irrefl _ (h.spared.subscribed he ((h.spared.owned he).mp ht))
      · change Activity.Succeeded l (w.acts ⟨w.nextTag⟩) at hl
        rw [hacts] at hl
        exact Activity.not_succeeded_nil hl
    · rw [hself, hidle]
  · exact (Passes.refl h).untouched hspared (.create ho tree vars)

omit he in
theorem unsubscribe (h : w.Rests o) {id : SubscriptionId} (hid : w.subscriptions.owner? id ≠ some o) :
    w.Passes o { w with subscriptions := (w.subscriptions.remove id).2 } := by
  obtain ⟨r, hr⟩ := h.spared.listed
  refine (Passes.refl h).untouched (h.spared.unsubscribe hr (hr.remove id)) ?_
  refine untouched_unsubscribe hr (hr.remove id) fun id' e he ht => ?_
  refine decide_eq_true fun heq => hid ?_
  rw [← heq, Subscriptions.owner?, he, Option.map_some, ht]

omit he in
theorem unsubscribeEvent (h : w.Rests o) (event : String) {tag : Tag} (ht : tag ≠ o) :
    w.Passes o { w with subscriptions := (w.subscriptions.removeEvent event tag).2 } := by
  obtain ⟨r, hr⟩ := h.spared.listed
  have hstruck := (hr.removeEvent event tag).2
  refine (Passes.refl h).untouched (h.spared.unsubscribe hr hstruck) ?_
  refine untouched_unsubscribe hr hstruck fun id e _ he => ?_
  simp [he, Ne.symm ht]

omit he in
theorem barring {barred : Bool} {m : WorldM σ α} (hm : barred = false → w.Then m fun _ => w.Passes o) :
    w.Then (Engine.barring barred m) fun _ => w.Passes o := by
  cases barred with
  | true => exact fun _ _ => nofun
  | false => exact hm rfl

theorem perform (p : Program σ) (h : w.Rests o) : w.Then (e.performSparing o p) fun _ => w.Passes o := by
  -- an operation, and then the rest of the program
  have hstep : ∀ {β : Type} {m : WorldM σ β} {next : β → Program σ} {w : World σ}, w.Then m (fun _ => w.Passes o) →
      (∀ r {v : World σ}, v.Rests o → v.Then (e.performSparing o (next r)) fun _ => v.Passes o) →
      w.Then (m >>= fun r => e.performSparing o (next r)) fun _ => w.Passes o := by
    intro β m next w hm hnext
    refine (then_bind _ _).mpr (hm.mono fun r v hv => ?_)
    exact (hnext r hv.rests).mono fun _ _ hv' => hv.trans hv'
  induction p generalizing w with
  | done => exact (then_pure _).mpr (.refl h)
  | look next ih => exact hstep ((then_get _).mpr (.refl h)) fun v => ih v.overview
  | store host next ih =>
    refine hstep ((then_modify _ _).mpr ?_) fun _ => ih
    exact (Passes.refl h).untouched (h.spared.store host) (.of_eq (Nat.le_refl _) rfl rfl rfl)
  | note v next ih => exact hstep ((then_modify _ _).mpr ((Passes.refl h).record rfl)) fun _ => ih
  | load spec strict next ih => exact hstep ((then_apply _).mpr (load h spec strict)) ih
  | install code f next ih =>
    refine hstep ((then_modify _ _).mpr ?_) fun _ => ih
    exact (Passes.refl h).untouched (h.spared.install code f) (.of_eq (Nat.le_refl _) rfl rfl rfl)
  | newTag next ih =>
    refine hstep ((then_apply _).mpr ?_) ih
    exact (Passes.refl h).untouched h.spared.newTag (.of_eq (Nat.le_succ _) rfl rfl rfl)
  | create tree vars next ih => exact hstep ((then_apply _).mpr (create h tree vars)) ih
  | run owner next ih => exact hstep (withInstance h fun ho => he.runTree h ho) ih
  | interrupt owner next ih => exact hstep (withInstance h fun ho => he.interruptTree h ho) fun _ => ih
  | clear owner next ih => exact hstep (withInstance h fun ho => he.clearTree h ho) fun _ => ih
  | setTree owner tree next ih => exact hstep (withInstance h fun ho => he.setTree h ho tree) ih
  | setVar owner name value next ih =>
    refine hstep (withInstance h fun ho => (then_modify _ _).mpr ?_) fun _ => ih
    have hspared : (w.observe owner (.assigned name value)).Spared o := by
      refine h.spared.record ?_
      by_cases hown : owner = o
      · exact .inl (ho hown)
      · exact .inr (if_neg hown)
    have hseen := (Passes.refl h).untouched hspared (.observe fun _ => nofun)
    by_cases hown : owner = o
    · subst hown
      exact hseen.untouched (hspared.modify_self (ho rfl) hspared.kept)
        (.modify_self (fun _ => rfl) (fun _ => rfl) fun _ => rfl)
    · exact hseen.untouched (hspared.modify_other (Ne.symm hown) _) (.modify_other (Ne.symm hown) _)
  | drop owner next ih =>
    refine hstep (barring fun hother => withInstance h fun _ => (then_modify _ _).mpr ?_) fun _ => ih
    have hown : owner ≠ o := of_decide_eq_false hother
    have hgiven := (Passes.refl h).untouched (h.spared.modify_other hown.symm fun i => { i with dropped := true })
      (.modify_other hown.symm _)
    exact hgiven.untouched (hgiven.rests.spared.releaseTag owner) (hgiven.rests.spared.untouched_releaseTag hown)
  | update dt next ih => exact hstep (he.update h dt) fun _ => ih
  | dispatch key args next ih => exact hstep (he.dispatch h key args) ih
  | subscribe key tag callback next _ ih =>
    refine hstep (barring fun hother => (then_apply _).mpr ?_) ih
    have ht : tag ≠ o := of_decide_eq_false hother
    have hl : tag = o ↔ (Listener.host callback).owner? = some o := iff_of_false ht nofun
    exact (Passes.refl h).untouched (h.spared.subscribe key hl nofun) (h.spared.untouched_subscribe key _ ht)
  | unsubscribe id next ih =>
    refine (then_bind _ _).mpr ((then_get _).mpr ?_)
    exact hstep (barring fun hother => (then_apply _).mpr (unsubscribe h (of_decide_eq_false hother))) ih
  | unsubscribeEvent event tag next ih =>
    exact hstep (barring fun hother => (then_apply _).mpr (unsubscribeEvent h event (of_decide_eq_false hother))) ih
  | release tag next ih =>
    refine hstep (barring fun hother => (then_modify _ _).mpr ?_) fun _ => ih
    have ht : tag ≠ o := of_decide_eq_false hother
    exact (Passes.refl h).untouched (h.spared.releaseTag tag) (h.spared.untouched_releaseTag ht)
  | delay time tag callback next _ ih =>
    refine hstep ((then_apply _).mpr ?_) ih
    exact (Passes.refl h).untouched (h.spared.delay time tag nofun) (.of_eq (Nat.le_refl _) rfl rfl rfl)
  | cancel id next ih =>
    refine hstep ((then_apply _).mpr ?_) ih
    refine (Passes.refl h).untouched (h.spared.expire w.time ?_) (.of_eq (Nat.le_refl _) rfl rfl rfl)
    exact fun x a ha => Delays.pending_of_take ha

/-! ### Calls that nest -/

theorem hearSparing {l : Listener σ} (event : Event) (h : w.Rests o) (hl : l.owner? = some o → o.index < w.nextTag) :
    w.Then ((e.sparing o).hear l event) fun _ => w.Passes o := by
  cases l with
  | node owner listener child => exact he.schedule h (fun ho => hl (congrArg some ho)) _
  | host react => exact he.perform (react event) h

theorem alarmSparing {a : Alarm σ} (h : w.Rests o) (ha : a.owner? = some o → o.index < w.nextTag) :
    w.Then ((e.sparing o).alarm a) fun _ => w.Passes o := by
  cases a with
  | job owner job => exact he.schedule h (fun ho => ha (congrArg some ho)) job
  | host act => exact he.perform act h

/-- One level of calls more, with a host that is restrained. -/
theorem sparing : (e.sparing o).Minding o where
  run w₀ b running := (he.corresponds w₀ b running).runDeeper
  resume w₀ b running := (he.corresponds w₀ b running).resumeAbove
  hear event := he.hearSparing event
  alarm := he.alarmSparing
  runPending := (he.conducts _).runNext
  others hp w₀ :=
    { mirrors := mirrors_passes hp w₀
      heeds := fun {n} _ => n.heeds_all
      run := (he.others hp w₀).corresponds.runDeeper
      resume := (he.others hp w₀).corresponds.resumeAbove
      runPending := (he.others hp w₀).runNext
      tell := fun _ args => WorldM.inStep_passes fun h => dispatch_passes he.hearSparing h _ args
      dispatch := fun _ _ key args => WorldM.inStep_passes fun h => dispatch_passes he.hearSparing h key args }

end Engine.Minding

/-- However deep calls nest, a host that is restrained leaves alone what an instance subscribes to. -/
theorem Engine.minding_ofDepth (o : Tag) (n : Nat) : (ofDepthSparing o n : Engine σ).Minding o := by
  induction n with
  | zero =>
    exact
      { run := fun _ _ _ _ _ _ => trivial
        resume := fun _ _ _ _ _ _ => trivial
        hear := fun _ _ _ _ _ => nofun
        alarm := fun _ _ _ _ => nofun
        runPending := fun _ _ _ => nofun
        others := fun hp w₀ =>
          { mirrors := mirrors_passes hp w₀
            heeds := fun {n} _ => n.heeds_all
            run := fun _ _ _ _ _ _ => .halted _
            resume := fun _ _ _ _ _ _ => .halted _
            runPending := .throw _
            tell := fun _ _ => WorldM.inStep_passes fun h =>
              dispatch_passes (e := exhausted) (fun _ _ _ _ _ => nofun) h _ _
            dispatch := fun _ _ _ _ => WorldM.inStep_passes fun h =>
              dispatch_passes (e := exhausted) (fun _ _ _ _ _ => nofun) h _ _ } }
  | succ n ih => exact ih.sparing

end BehaviorTree
