import BehaviorTree.Proofs.Life.Exclusion
import Mathlib.Logic.Relation

/-!
A world moves in small steps: something is recorded or filed, an instance is made or changes, an instance is seen to do
something. Whatever the host does with a world, and whatever the trees are, it is made of such steps; so what each of
them keeps holds at every moment of every run.
-/

namespace BehaviorTree
set_option autoImplicit false

variable {σ α : Type}

/-- An instance keeps its state and its tree, and is not taken back when it was given up. -/
structure Instance.Stays (i i' : Instance) : Prop where
  env : i'.env = i.env
  tree : i'.tree = i.tree
  dropped : i.dropped = true → i'.dropped = true

/-- Neither does a job start or a tick or job end, nor is a variable set. -/
def Activity.Plain : Activity → Prop
  | started _ | left | assigned .. => False
  | _ => True

theorem Activity.Plain.not_started {a : Activity} (h : a.Plain) (job : Job) : a ≠ .started job := by
  rintro rfl
  exact h

/-- What an instance may be seen to do in one small step. -/
inductive Activity.Burst : List Activity → Prop
  | none : Burst []
  | one {a : Activity} (ha : ∀ job, a ≠ .started job) : Burst [a]
  | begun (job : Job) : Burst [.entered, .started job]

namespace World

/-- One small step of a world. -/
inductive Step (w : World σ) : World σ → Prop
  /-- What is recorded is no activity. -/
  | record {e : Entry} (he : ∀ o, e.of? o = none) : Step w (w.record e)
  | store (host : σ) : Step w { w with host }
  | install (code : String) (f : Lookup → Except ExprError Value) : Step w (w.install code f)
  | newTag : Step w w.newTag.2
  | create (tree : Tree) (vars : Variables) : Step w (w.create tree vars).2
  | subscribe (key : EventKey) (tag : Tag) (l : Listener σ) : Step w (w.subscribe key tag l).2
  | unsubscribe (id : SubscriptionId) : Step w { w with subscriptions := (w.subscriptions.remove id).2 }
  | unsubscribeEvent (event : String) (tag : Tag) :
      Step w { w with subscriptions := (w.subscriptions.removeEvent event tag).2 }
  | releaseTag (tag : Tag) : Step w (w.releaseTag tag)
  | delay (span : Float) (tag : Tag) (a : Alarm σ) : Step w (w.delay span tag a).2
  | cancel (id : DelayId) : Step w { w with delays := (w.delays.cancel id).2 }
  | advance (now : Float) : Step w { w with time := now, delays := (w.delays.takeDue now).2 }
  /-- An instance changes, but not its state. -/
  | modify (o : Tag) {f : Instance → Instance} (hf : ∀ i : Instance, i.Stays (f i)) : Step w (w.modifyInstance o f)
  /-- The host sets a variable. -/
  | assign (o : Tag) (name : String) (value : Option Value) : Step w (w.assign o name value)
  /-- An instance is seen to do something; that a job starts is seen with the job's beginning. -/
  | observe (o : Tag) {a : Activity} (ha : a.Plain) : Step w (w.observe o a)
  | start (o : Tag) (job : Job) : Step w ((w.observe o .entered).observe o (.started job))
  /-- A tick or job gives the state of an instance back. -/
  | leave (o : Tag) (env : Env) : Step w ((w.modifyInstance o fun i => { i with env }).observe o .left)
  /-- What is suspended in an instance is dropped. -/
  | unwind (o : Tag) {f : Instance → Instance} (hf : ∀ i, i.dropped = true → (f i).dropped = true) :
      Step w ((w.observe o .unwound).modifyInstance o f)

def begun (w : World σ) (o : Tag) (job : Job) (rest : List Job) : World σ :=
  ((w.modifyInstance o fun i => { i with pending := rest }).observe o .entered).observe o (.started job)

/-- Small steps, one after the other. -/
abbrev Moves : World σ → World σ → Prop := Relation.ReflTransGen Step

section

variable {w w' : World σ}

theorem Step.acts (h : w.Step w') (o : Tag) : ∃ acts, w'.acts o = w.acts o ++ acts ∧ Activity.Burst acts := by
  cases h with
  | record he => exact ⟨[], by rw [acts_record, he, Option.toList_none], .none⟩
  | releaseTag tag => exact ⟨[], by rw [acts_releaseTag, List.append_nil], .none⟩
  | assign p name value =>
    rw [World.assign, acts_modifyInstance, acts_observe]
    split
    · exact ⟨_, rfl, .one (by simp)⟩
    · exact ⟨_, rfl, .none⟩
  | observe p ha =>
    rw [acts_observe]
    split
    · exact ⟨_, rfl, .one ha.not_started⟩
    · exact ⟨_, rfl, .none⟩
  | start p job =>
    rw [acts_observe, acts_observe]
    split
    · exact ⟨_, List.append_assoc _ _ _, .begun job⟩
    · exact ⟨_, List.append_assoc _ _ _, .none⟩
  | leave p env =>
    rw [acts_observe, acts_modifyInstance]
    split
    · exact ⟨_, rfl, .one (by simp)⟩
    · exact ⟨_, rfl, .none⟩
  | unwind p hf =>
    rw [acts_modifyInstance, acts_observe]
    split
    · exact ⟨_, rfl, .one (by simp)⟩
    · exact ⟨_, rfl, .none⟩
  | _ => exact ⟨[], (List.append_nil _).symm, .none⟩

theorem Moves.acts (h : w.Moves w') (o : Tag) : ∃ acts, w'.acts o = w.acts o ++ acts := by
  induction h with
  | refl => exact ⟨[], (List.append_nil _).symm⟩
  | tail _ hs ih =>
    obtain ⟨acts, hacts⟩ := ih
    obtain ⟨more, hmore, _⟩ := hs.acts o
    exact ⟨acts ++ more, by rw [hmore, hacts, List.append_assoc]⟩

theorem Step.later (h : w.Step w') : w.nextTag ≤ w'.nextTag := by
  cases h with
  | newTag | create => exact Nat.le_succ _
  | releaseTag tag => exact Nat.le_of_eq (nextTag_releaseTag w tag).symm
  | _ => exact Nat.le_refl _

theorem Moves.later (h : w.Moves w') : w.nextTag ≤ w'.nextTag := by
  induction h with
  | refl => exact Nat.le_refl _
  | tail _ hs ih => exact Nat.le_trans ih hs.later

end

end World

open World

/-- In its ticks an instance moves the world. -/
def TickM.Moves (o : Tag) (m : TickM σ α) : Prop := ∀ c t, c.owner = o → (m c t).Leaves fun u => t.world.Moves u.world

namespace TickM.Moves

variable {β : Type} {o : Tag} {m : TickM σ α}

theorem of_step {f : World σ → World σ} (hf : ∀ w, Step w (f w)) :
    (TickM.modifyWorld f : TickM σ Unit).Moves o := fun _ t _ => .single (hf t.world)

theorem bind {f : α → TickM σ β} (hm : m.Moves o) (hf : ∀ a, (f a).Moves o) : (m >>= f).Moves o := by
  intro c t hc
  have hfirst := hm c t hc
  rw [bind_apply]
  cases hr : m c t with
  | halted h => exact trivial
  | failed e u =>
    rw [hr] at hfirst
    exact hfirst
  | ok a u =>
    rw [hr] at hfirst
    exact (hf a c u hc).mono fun _ h => hfirst.trans h

theorem attempt (hm : m.Moves o) : (TickM.attempt m).Moves o := by
  intro c t hc
  have h := hm c t hc
  rw [attempt_apply]
  cases hr : m c t with
  | halted h => exact trivial
  | ok a u | failed e u =>
    rw [hr] at h
    exact h

theorem observe {a : Activity} (ha : a.Plain) : (TickM.observe a : TickM σ Unit).Moves o :=
  fun c t _ => .single (.observe (w := t.world) c.owner ha)

theorem interrupt : (TickM.interrupt : TickM σ Unit).Moves o := by
  intro c t _
  have hasked : t.world.Moves (t.world.observe c.owner (.requested false)) := .single (.observe c.owner trivial)
  have hflagged : t.world.Moves ((t.world.observe c.owner (.requested false)).modifyInstance c.owner
      fun i => { i with interrupted := true }) := hasked.tail (.modify c.owner fun _ => ⟨rfl, rfl, id⟩)
  exact hflagged

theorem onWorld {m : WorldM σ α} (hm : ∀ w : World σ, w.Then m fun _ => w.Moves) : (TickM.onWorld m).Moves o := by
  intro c t _
  rw [TickM.onWorld]
  cases hr : m.run t.world with
  | error h => exact trivial
  | ok r => exact hm t.world r.1 r.2 hr

end TickM.Moves

theorem TickM.moves_congruence (o : Tag) : TickM.Congruence (σ := σ) o fun _ m _ => m.Moves o where
  pure _ _ _ _ := .refl
  bind hm hf := .bind hm hf
  fail _ _ _ _ := .refl
  halt _ _ _ _ := trivial
  attempt hm := .attempt hm
  bindOwner hf c t hc := by
    rw [bind_apply, TickM.owner, hc]
    exact hf c t hc
  tree _ _ _ := .refl
  env _ _ _ := .refl
  world _ _ _ := .refl
  modifyEnv _ _ _ _ := .refl
  record he := .of_step fun w => .record (he w)
  called _ _ := .observe trivial
  returned _ _ := .observe trivial
  interrupt := .interrupt
  subscribe key _ _ := .of_step fun _ => .subscribe key o _
  delay span _ := .of_step fun _ => .delay span o _

/-- Whoever is called moves the world. -/
structure Engine.Moving (e : Engine σ) : Prop where
  run (o : Tag) (id : NodeId) : (e.run id).Moves o
  resume (o : Tag) (level : Nat) : (e.resume level).Moves o
  hear {w₀ w : World σ} (l : Listener σ) (event : Event) : w₀.Moves w → w.Then (e.hear l event) fun _ => w₀.Moves
  alarm {w₀ w : World σ} (a : Alarm σ) : w₀.Moves w → w.Then (e.alarm a) fun _ => w₀.Moves
  runPending {w₀ w : World σ} (o : Tag) : w₀.Moves w → w.Then (e.runPending o) fun _ => w₀.Moves

namespace Engine.Moving

variable {e : Engine σ} (he : e.Moving) {w₀ w : World σ} {o : Tag}

theorem modify (h : w₀.Moves w) {f : Instance → Instance} (hf : ∀ i : Instance, i.Stays (f i)) :
    w₀.Moves (w.modifyInstance o f) := h.tail (.modify o hf)

theorem observe (h : w₀.Moves w) {a : Activity} (ha : a.Plain) : w₀.Moves (w.observe o a) :=
  h.tail (.observe o ha)

theorem report (h : w₀.Moves w) (r : Report) : w₀.Moves (w.report r) := h.tail (.record fun _ => rfl)

include he

theorem dispatch (h : w₀.Moves w) (key : EventKey) (args : List Value) :
    w.Then (e.dispatch key args) fun _ => w₀.Moves := by
  simp only [Engine.dispatch, then_bind, then_get, then_pure]
  exact then_forM h fun l _ w' hw' => he.hear l _ hw'

/-- Whoever is called moves the world, in the ticks of every instance. -/
theorem alike (o : Tag) : Alike o (fun _ m _ => m.Moves o) e e :=
  { TickM.moves_congruence o with
    run := he.run o
    resume := he.resume o
    dispatch := fun key args => .onWorld fun _ => he.dispatch .refl key args }

theorem runAside (o : Tag) (job : Job) : (aside (e.runFor job)).Moves o :=
  @TickM.Congruence.aside _ _ _ (TickM.moves_congruence o) _ (e.runFor job) ((he.alike o).runFor job)

theorem announce (h : w₀.Moves w) (event : Lifecycle) (args : List Value) :
    w.Then (e.announce o event args) fun _ => w₀.Moves := by
  simp only [Engine.announce, then_bind, then_modify, then_pure]
  exact he.dispatch (observe (a := .announced event.name args) h trivial) _ _

omit he in
theorem activate {m : TickM σ α} (hm : (m ⟨o, (w.instanceOf o).tree⟩
    ⟨(w.instanceOf o).env, w.observe o .entered⟩).Leaves fun t => w₀.Moves t.world) :
    w.Then (Engine.activate o m) fun _ => w₀.Moves :=
  then_activate m (hm.mono fun t ht => ht.tail (.leave o t.env))

theorem tick (h : w₀.Moves w) : w.Then (e.tick o) fun _ => w₀.Moves := by
  have hentered : w₀.Moves (w.observe o .entered) := observe h trivial
  simp only [Engine.tick, then_bind, then_get]
  split
  · exact (then_pure _).mpr h
  · split
    · exact activate ((he.run o _ ⟨o, _⟩ _ rfl).mono fun _ hu => hentered.trans hu)
    · exact activate ((he.resume o 0 ⟨o, _⟩ _ rfl).mono fun _ hu => hentered.trans hu)

/-- A round of the queue begins with the job that waits longest, and goes on from there. -/
theorem runNext_cons {job : Job} {rest : List Job} (hj : (w.instanceOf o).pending = job :: rest) :
    w.Then (e.runNext o) fun _ => (w.begun o job rest).Moves := by
  simp only [Engine.runNext, then_bind, then_get, hj, then_modify]
  have hrest : ∀ w₁, (w.begun o job rest).Moves w₁ → w₁.Then (do
      if ((← get).instanceOf o).interrupted then return
      else e.runPending o) fun _ => (w.begun o job rest).Moves := by
    intro w₁ hw₁
    simp only [then_bind, then_get]
    split
    · exact (then_pure _).mpr hw₁
    · exact he.runPending o hw₁
  have hjob : (w.modifyInstance o fun i => { i with pending := rest }).Then (Engine.activate o (e.runJob job))
      fun _ => (w.begun o job rest).Moves := activate (he.runAside o job ⟨o, _⟩ ⟨_, _⟩ rfl)
  refine hjob.mono fun result w₁ hw₁ => ?_
  cases result with
  | ok => exact hrest w₁ hw₁
  | error err => exact hrest _ (report hw₁ _)

theorem runNext (h : w₀.Moves w) : w.Then (e.runNext o) fun _ => w₀.Moves := by
  cases hj : (w.instanceOf o).pending with
  | nil =>
    simp only [Engine.runNext, then_bind, then_get, hj]
    exact (then_pure _).mpr h
  | cons job rest =>
    have hpopped : w₀.Moves (w.modifyInstance o fun i => { i with pending := rest }) :=
      modify h fun _ => ⟨rfl, rfl, id⟩
    exact (he.runNext_cons hj).mono fun _ _ hw₁ => (hpopped.tail (.start o job)).trans hw₁

omit he in
/-- What an instance left in the world is dropped, and then what is suspended in it. -/
theorem release (h : w₀.Moves w) {f : Instance → Instance} (hf : ∀ i, i.dropped = true → (f i).dropped = true) :
    w₀.Moves (((w.releaseTag o).observe o .unwound).modifyInstance o f) :=
  (h.tail (.releaseTag o)).tail (.unwind o hf)

theorem windUp (h : w₀.Moves w) (event : Lifecycle) (forget : Env → Env) :
    w.Then (e.windUp o event forget) fun _ => w₀.Moves := by
  simp only [Engine.windUp, whileExecuting, Engine.release, then_bind, then_get, then_modify,
    modifyInstance_modifyInstance]
  have hlocked : w₀.Moves (w.lock o) := modify h fun _ => ⟨rfl, rfl, id⟩
  refine (he.announce hlocked event []).mono fun _ w₁ hw₁ => ?_
  exact (he.runPending o hw₁).mono fun _ w₂ hw₂ => release hw₂ fun _ => id

theorem interruptNow (h : w₀.Moves w) : w.Then (e.interruptNow o) fun _ => w₀.Moves := by
  simp only [Engine.interruptNow, then_bind, then_modify]
  have hunwound : w₀.Moves (w.unwound o) := h.tail (.unwind o fun _ => id)
  exact (he.windUp hunwound .interrupted id).mono fun _ _ hw₁ => report hw₁ _

theorem clearNow (h : w₀.Moves w) : w.Then (e.clearNow o) fun _ => w₀.Moves := by
  simp only [Engine.clearNow, then_bind, then_modify]
  have hserved : w₀.Moves (w.modifyInstance o fun i => { i with clearRequested := false }) :=
    modify h fun _ => ⟨rfl, rfl, id⟩
  exact (he.windUp hserved .cleaned _).mono fun _ _ hw₁ => report hw₁ _

theorem drain (h : w₀.Moves w) : w.Then (e.drain o) fun _ => w₀.Moves := by
  simp only [Engine.drain, whileExecuting, then_bind, then_get, then_modify]
  have hlocked : w₀.Moves (w.lock o) := modify h fun _ => ⟨rfl, rfl, id⟩
  refine (he.runPending o hlocked).mono fun _ w₁ hw₁ => ?_
  have hserved : w₁.Then (if (w₁.instanceOf o).interrupted then e.interruptNow o else pure ()) fun _ => w₀.Moves := by
    split
    · exact he.interruptNow hw₁
    · exact (then_pure _).mpr hw₁
  exact hserved.mono fun _ w₂ hw₂ => modify hw₂ fun _ => ⟨rfl, rfl, id⟩

theorem schedule (h : w₀.Moves w) (job : Job) : w.Then (e.schedule o job) fun _ => w₀.Moves := by
  simp only [Engine.schedule, then_bind, then_get]
  split
  · exact (then_pure _).mpr h
  · have hqueued : w₀.Moves ((w.observe o (.queued job)).modifyInstance o fun i =>
        { i with pending := i.pending ++ [job] }) := modify (observe (a := .queued job) h trivial) fun _ => ⟨rfl, rfl, id⟩
    simp only [then_bind, then_modify]
    split
    · exact (then_pure _).mpr hqueued
    · exact he.drain hqueued

theorem settleTick (h : w₀.Moves w) (status : Status) : w.Then (e.settleTick o status) fun _ => w₀.Moves := by
  simp only [Engine.settleTick, then_bind, then_get]
  split
  · exact (then_bind _ _).mpr ((he.interruptNow h).mono fun _ _ hw₁ => (then_pure _).mpr hw₁)
  · refine (then_bind _ _).mpr ((he.announce h .afterRun _).mono fun _ w₁ hw₁ => ?_)
    have hsettled : w₁.Then (e.announceSettled o status) fun _ => w₀.Moves := by
      cases status with
      | success => exact he.announce hw₁ .afterRunSuccess []
      | failure => exact he.announce hw₁ .afterRunFailure []
      | running => exact (then_pure _).mpr hw₁
    refine (then_bind _ _).mpr (hsettled.mono fun _ w₂ hw₂ => ?_)
    exact (then_bind _ _).mpr ((he.drain hw₂).mono fun _ _ hw₃ => (then_pure _).mpr hw₃)

theorem afterTick (h : w₀.Moves w) (result : Except RunError Status) :
    w.Then (e.afterTick o result) fun _ => w₀.Moves := by
  cases result with
  | error err =>
    simp only [Engine.afterTick, Engine.release, then_bind, then_get, then_modify, then_pure,
      modifyInstance_modifyInstance]
    exact release (report h _) fun _ => id
  | ok status =>
    simp only [Engine.afterTick, then_bind, then_get]
    refine (he.settleTick h status).mono fun _ w₁ hw₁ => ?_
    split
    · exact (then_bind _ _).mpr ((he.clearNow hw₁).mono fun _ _ hw₂ => (then_pure _).mpr hw₂)
    · exact (then_pure _).mpr hw₁

theorem openRun (h : w₀.Moves w) : w.Then (e.openRun o) fun _ => w₀.Moves := by
  simp only [Engine.openRun, then_bind, then_modify]
  have hlocked : w₀.Moves (w.lock o) := modify h fun _ => ⟨rfl, rfl, id⟩
  exact (he.announce hlocked .beforeRun []).mono fun _ w₁ hw₁ => he.tick hw₁

theorem runTree (h : w₀.Moves w) : w.Then (e.runTree o) fun _ => w₀.Moves := by
  simp only [Engine.runTree, then_bind, then_get]
  split
  · exact (then_pure _).mpr h
  · simp only [Engine.closeRun, then_bind, then_modify, then_pure]
    refine (he.openRun h).mono fun result w₁ hw₁ => ?_
    exact (he.afterTick hw₁ result).mono fun _ w₂ hw₂ => modify hw₂ fun _ => ⟨rfl, rfl, id⟩

theorem interruptTree (h : w₀.Moves w) : w.Then (e.interruptTree o) fun _ => w₀.Moves := by
  have hasked : w₀.Moves (w.observe o (.requested false)) := observe h trivial
  simp only [Engine.interruptTree, then_bind, then_modify, then_get]
  split
  · exact (then_modify _ _).mpr (modify hasked fun _ => ⟨rfl, rfl, id⟩)
  · exact he.interruptNow hasked

theorem clearTree (h : w₀.Moves w) : w.Then (e.clearTree o) fun _ => w₀.Moves := by
  have hasked : w₀.Moves (w.observe o (.requested true)) := observe h trivial
  simp only [Engine.clearTree, then_bind, then_modify, then_get]
  split
  · exact (then_modify _ _).mpr (modify hasked fun _ => ⟨rfl, rfl, id⟩)
  · exact he.clearNow hasked

omit he in
theorem setTree (h : w₀.Moves w) (tree : Tree) : w.Then (setTree o tree) fun _ => w₀.Moves := by
  simp only [Engine.setTree, Engine.release, then_bind, then_get]
  split
  · exact (then_pure _).mpr h
  · simp only [then_bind, then_modify, then_pure, modifyInstance_modifyInstance]
    exact release h fun _ => id

theorem update (h : w₀.Moves w) (dt : Float) : w.Then (e.update dt) fun _ => w₀.Moves := by
  simp only [Engine.update, then_bind, then_get, then_modify]
  exact then_forM (h.tail (.advance _)) fun a _ w' hw' => he.alarm a hw'

omit he in
theorem withInstance {absent : α} {m : WorldM σ α} (h : w₀.Moves w) (hm : w.Then m fun _ => w₀.Moves) :
    w.Then (Engine.withInstance o absent m) fun _ => w₀.Moves := by
  simp only [Engine.withInstance, then_bind, then_get]
  split
  · exact hm
  · exact (then_pure _).mpr h

omit he in
theorem load (h : w₀.Moves w) (spec : TreeSpec) (strict : Bool) : w₀.Moves (w.load spec strict).2 := by
  change w₀.Moves ((Tree.load w.registry w.compile strict spec).2.foldl World.report w)
  induction (Tree.load w.registry w.compile strict spec).2 generalizing w with
  | nil => exact h
  | cons r rs ih => exact ih (report h r)

theorem perform (p : Program σ) (h : w₀.Moves w) : w.Then (e.perform p) fun _ => w₀.Moves := by
  -- an operation, and then the rest of the program
  have hstep : ∀ {β : Type} {m : WorldM σ β} {next : β → Program σ} {w : World σ},
      w.Then m (fun _ => w₀.Moves) → (∀ r {w : World σ}, w₀.Moves w → w.Then (e.perform (next r)) fun _ => w₀.Moves) →
      w.Then (m >>= fun r => e.perform (next r)) fun _ => w₀.Moves :=
    fun hm hnext => (then_bind _ _).mpr (hm.mono fun r _ hw₁ => hnext r hw₁)
  induction p generalizing w with
  | done => exact (then_pure _).mpr h
  | look next ih => exact hstep ((then_get _).mpr h) fun w' _ hw => ih w'.overview hw
  | store host next ih => exact hstep ((then_modify _ _).mpr (h.tail (.store host))) fun _ _ hw => ih hw
  | note v next ih => exact hstep ((then_modify _ _).mpr (h.tail (.record fun _ => rfl))) fun _ _ hw => ih hw
  | load spec strict next ih => exact hstep ((then_apply _).mpr (load h spec strict)) fun r _ hw => ih r hw
  | install code f next ih => exact hstep ((then_modify _ _).mpr (h.tail (.install code f))) fun _ _ hw => ih hw
  | newTag next ih => exact hstep ((then_apply _).mpr (h.tail .newTag)) fun r _ hw => ih r hw
  | create tree vars next ih => exact hstep ((then_apply _).mpr (h.tail (.create tree vars))) fun r _ hw => ih r hw
  | run owner next ih => exact hstep (withInstance h (he.runTree h)) fun r _ hw => ih r hw
  | interrupt owner next ih => exact hstep (withInstance h (he.interruptTree h)) fun _ _ hw => ih hw
  | clear owner next ih => exact hstep (withInstance h (he.clearTree h)) fun _ _ hw => ih hw
  | setTree owner tree next ih => exact hstep (withInstance h (setTree h tree)) fun r _ hw => ih r hw
  | setVar owner name value next ih =>
    refine hstep (withInstance h ((then_modify _ _).mpr ?_)) fun _ _ hw => ih hw
    exact h.tail (.assign owner name value)
  | drop owner next ih =>
    refine hstep (withInstance h ((then_modify _ _).mpr ?_)) fun _ _ hw => ih hw
    have hdropped : w₀.Moves (w.modifyInstance owner fun i => { i with dropped := true }) :=
      modify h fun _ => ⟨rfl, rfl, fun _ => rfl⟩
    exact hdropped.tail (.releaseTag owner)
  | update dt next ih => exact hstep (he.update h dt) fun _ _ hw => ih hw
  | dispatch key args next ih => exact hstep (he.dispatch h key args) fun r _ hw => ih r hw
  | subscribe key tag callback next _ ih =>
    exact hstep ((then_apply _).mpr (h.tail (.subscribe key tag _))) fun r _ hw => ih r hw
  | unsubscribe id next ih => exact hstep ((then_apply _).mpr (h.tail (.unsubscribe id))) fun r _ hw => ih r hw
  | unsubscribeEvent event tag next ih =>
    exact hstep ((then_apply _).mpr (h.tail (.unsubscribeEvent event tag))) fun r _ hw => ih r hw
  | release tag next ih => exact hstep ((then_modify _ _).mpr (h.tail (.releaseTag tag))) fun _ _ hw => ih hw
  | delay time tag callback next _ ih =>
    exact hstep ((then_apply _).mpr (h.tail (.delay time tag _))) fun r _ hw => ih r hw
  | cancel id next ih => exact hstep ((then_apply _).mpr (h.tail (.cancel id))) fun r _ hw => ih r hw

end Engine.Moving

theorem Engine.moving_ofDepth (n : Nat) : (Engine.ofDepth n : Engine σ).Moving := by
  induction n with
  | zero =>
    exact ⟨fun _ _ _ _ _ => trivial, fun _ _ _ _ _ => trivial, fun _ _ _ => (then_throw _).mpr trivial,
      fun _ _ => (then_throw _).mpr trivial, fun _ _ => (then_throw _).mpr trivial⟩
  | succ n ih =>
    refine ⟨fun o id => .bind ((ih.alike o).node id) fun node => (ih.alike o).runNode node,
      fun o level => (ih.alike o).resumeAbove level, ?_, ?_, fun _ h => ih.runNext h⟩
    · intro w₀ w l event h
      cases l with
      | node owner listener only => exact ih.schedule h _
      | host react => exact ih.perform _ h
    · intro w₀ w a h
      cases a with
      | job owner job => exact ih.schedule h job
      | host act => exact ih.perform act h

/-- A world that a host has made has moved there from where it began. -/
theorem World.Reached.moves {w : World σ} (h : w.Reached) :
    ∃ (registry : Registry) (host : σ), ({ registry, host } : World σ).Moves w := by
  obtain ⟨registry, host, depth, p, hp⟩ := h
  exact ⟨registry, host, (Engine.moving_ofDepth depth).perform p .refl () w (run_of_perform hp)⟩

end BehaviorTree
