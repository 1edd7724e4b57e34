import BehaviorTree.Proofs.Engine.Congruence
import BehaviorTree.Proofs.Engine.Outcome

/-!
Looking on while an instance runs. An engine under a lookout looks at the state of the instance whenever a node is
called, whenever one has returned, whenever its waiting jobs are about to run, and before and after every job, and
halts if it does not find what it looks for. It does nothing else: where it does not halt for that reason, it does
what the engine does by itself.
-/

namespace BehaviorTree
set_option autoImplicit false

variable {σ α β : Type}

/-- What is looked for in the state of a running instance: when a node is called, when it has returned, when the waiting
jobs are about to run, and around a job, whether it fails or not. -/
structure Lookout where
  called : Tree → Env → NodeId → Prop := fun _ _ _ => True
  returned : Tree → Env → NodeId → Status → Prop := fun _ _ _ _ => True
  waiting : Tree → Env → Prop := fun _ _ => True
  job : Job → Env → Env → Prop := fun _ _ _ => True

/-- No node of an instance has failed so far, and no interruption of it is asked for. -/
def World.Undisturbed (w : World σ) (owner : Tag) : Prop :=
  w.Faultless owner ∧ (w.instanceOf owner).interrupted = false

namespace TickM

open Classical in
noncomputable def insist (P : Activation → Tick σ → Prop) : TickM σ Unit := fun c t =>
  if P c t then .ok () t else .halted .outOfRange

/-- Looks at the state of the running instance while nothing disturbs it, and halts if it is not as it should be. -/
noncomputable def look (P : Tree → Env → Prop) : TickM σ Unit :=
  insist fun c t => t.world.Undisturbed c.owner → P c.tree t.env

noncomputable def lookAround (P : Env → Env → Prop) (m : TickM σ α) : TickM σ α := do
  let before ← env
  let result ← attempt m
  insist fun _ t => P before t.env
  ofExcept result

end TickM

namespace Engine

open Classical in
noncomputable def lookInto (owner : Tag) (P : Tree → Env → Prop) : WorldM σ Unit := fun w =>
  if w.Undisturbed owner → P (w.instanceOf owner).tree (w.instanceOf owner).env then .ok ((), w)
  else .error .outOfRange

noncomputable def under (L : Lookout) (e : Engine σ) : Engine σ where
  run id := do
    TickM.look fun tree env => L.called tree env id
    let status ← e.deeper.run id
    TickM.look fun tree env => L.returned tree env id status
    return status
  resume := e.deeper.resume
  hear := e.deeper.hear
  alarm := e.deeper.alarm
  runPending owner := do
    lookInto owner L.waiting
    e.runNextWith (fun job => TickM.lookAround (L.job job) (e.runJob job)) owner

/-- Calls that nest up to a depth, all of them under a lookout. -/
noncomputable def ofDepthUnder (L : Lookout) : Nat → Engine σ
  | 0 => exhausted
  | n + 1 => (ofDepthUnder L n).under L

end Engine

/-- Performs a program under a lookout, with calls nested up to a depth. -/
noncomputable def World.performUnder (L : Lookout) (depth : Nat) (p : Program σ) (w : World σ) :
    Except Halt (World σ) :=
  ((Engine.ofDepthUnder L depth).perform p w).map (·.2)

/-- A computation does what another one does, unless it halts early. -/
def TickM.Cuts (o : Tag) : TickM.Relation σ := fun _ m' m =>
  ∀ c t, c.owner = o → m' c t = m c t ∨ m' c t = .halted .outOfRange

def WorldM.Cuts (m' m : WorldM σ α) : Prop := ∀ w, m'.run w = m.run w ∨ m'.run w = .error .outOfRange

/-- The calls of an engine do what those of another do, unless they halt early. -/
structure Engine.Cuts (e' e : Engine σ) : Prop where
  run (o : Tag) (id : NodeId) : TickM.Cuts o _ (e'.run id) (e.run id)
  resume (o : Tag) (level : Nat) : TickM.Cuts o _ (e'.resume level) (e.resume level)
  hear (l : Listener σ) (event : Event) : WorldM.Cuts (e'.hear l event) (e.hear l event)
  alarm (a : Alarm σ) : WorldM.Cuts (e'.alarm a) (e.alarm a)
  runPending (owner : Tag) : WorldM.Cuts (e'.runPending owner) (e.runPending owner)

namespace TickM

variable {o : Tag}

theorem Cuts.refl (m : TickM σ α) : (Cuts o).Self m := fun _ _ _ => .inl rfl

theorem Cuts.bind {m' m : TickM σ α} {f' f : α → TickM σ β} (hm : Cuts o _ m' m) (hf : ∀ a, Cuts o _ (f' a) (f a)) :
    Cuts o _ (m' >>= f') (m >>= f) := by
  intro c t hc
  rw [bind_apply, bind_apply]
  rcases hm c t hc with heq | hcut
  · rw [heq]
    cases m c t with
    | ok a u => exact hf a c u hc
    | failed err u => exact .inl rfl
    | halted h => exact .inl rfl
  · rw [hcut]
    exact .inr rfl

theorem Cuts.attempt {m' m : TickM σ α} (hm : Cuts o _ m' m) : Cuts o _ (attempt m') (attempt m) := by
  intro c t hc
  rw [attempt_apply, attempt_apply]
  rcases hm c t hc with heq | hcut
  · rw [heq]
    exact .inl rfl
  · rw [hcut]
    exact .inr rfl

theorem congruence_cuts (o : Tag) : Congruence o (Cuts (σ := σ) o) where
  pure a := .refl _
  bind := .bind
  fail err := .refl _
  halt h := .refl _
  attempt := .attempt
  bindOwner h := by
    intro c t hc
    subst hc
    exact h c t rfl
  tree := .refl _
  env := .refl _
  world := .refl _
  modifyEnv f := .refl _
  record _ := .refl _
  called _ _ := .refl _
  returned _ _ := .refl _
  interrupt := .refl _
  subscribe _ _ _ := .refl _
  delay _ _ := .refl _

theorem Cuts.insist {P : Activation → Tick σ → Prop} {m' m : TickM σ α} (h : Cuts o _ m' m) :
    Cuts o _ (insist P >>= fun _ => m') m := by
  intro c t hc
  by_cases hp : P c t
  · have hok : TickM.insist P c t = .ok () t := if_pos hp
    rw [bind_apply, hok]
    exact h c t hc
  · have hcut : TickM.insist P c t = .halted .outOfRange := if_neg hp
    rw [bind_apply, hcut]
    exact .inr rfl

theorem Cuts.lookAround {P : Env → Env → Prop} {m' m : TickM σ α} (h : Cuts o _ m' m) :
    Cuts o _ (lookAround P m') m := by
  have hplain : (TickM.attempt m >>= ofExcept) = m := by
    funext c t
    rw [bind_apply, attempt_apply]
    cases m c t <;> rfl
  rw [← hplain]
  intro c t hc
  have hrest : Cuts o _ (TickM.attempt m' >>= fun r => TickM.insist (fun _ u => P t.env u.env) >>= fun _ => ofExcept r)
      (TickM.attempt m >>= ofExcept) := .bind h.attempt fun r => .insist (.refl _)
  exact hrest c t hc

end TickM

namespace WorldM.Cuts

theorem refl (m : WorldM σ α) : Cuts m m := fun _ => .inl rfl

theorem bind {m' m : WorldM σ α} {f' f : α → WorldM σ β} (hm : Cuts m' m) (hf : ∀ a, Cuts (f' a) (f a)) :
    Cuts (m' >>= f') (m >>= f) := by
  intro w
  rw [StateT.run_bind, StateT.run_bind]
  rcases hm w with heq | hcut
  · rw [heq]
    cases m.run w with
    | ok r => exact hf r.1 r.2
    | error h => exact .inl rfl
  · rw [hcut]
    exact .inr rfl

theorem next (m : WorldM σ α) {f' f : α → WorldM σ β} (hf : ∀ a, Cuts (f' a) (f a)) : Cuts (m >>= f') (m >>= f) :=
  .bind (.refl m) hf

theorem andThen {m' m : WorldM σ α} (hm : Cuts m' m) (f : α → WorldM σ β) : Cuts (m' >>= f) (m >>= f) :=
  .bind hm fun _ => .refl _

theorem ite {P : Prop} [Decidable P] {m' m n' n : WorldM σ α} (hm : Cuts m' m) (hn : Cuts n' n) :
    Cuts (if P then m' else n') (if P then m else n) := by
  split
  · exact hm
  · exact hn

theorem forM {f' f : β → WorldM σ PUnit} (xs : List β) (hf : ∀ x, Cuts (f' x) (f x)) :
    Cuts (xs.forM f') (xs.forM f) := by
  induction xs with
  | nil => exact .refl _
  | cons x xs ih => exact .bind (hf x) fun _ => ih

theorem onWorld {m' m : WorldM σ α} (h : Cuts m' m) (o : Tag) :
    TickM.Cuts o _ (TickM.onWorld m') (TickM.onWorld m) := by
  intro c t _
  rw [TickM.onWorld, TickM.onWorld]
  rcases h t.world with heq | hcut
  · rw [heq]
    exact .inl rfl
  · rw [hcut]
    exact .inr rfl

theorem activate {owner : Tag} {m' m : TickM σ α} (h : TickM.Cuts owner _ m' m) :
    Cuts (Engine.activate owner m') (Engine.activate owner m) := by
  refine .next _ fun _ => .next _ fun v => .next _ fun w => ?_
  rcases h ⟨owner, (v.instanceOf owner).tree⟩ ⟨(v.instanceOf owner).env, w⟩ rfl with heq | hcut
  · simp only [heq]
    exact .refl _
  · simp only [hcut]
    exact fun _ => .inr rfl

theorem withInstance {owner : Tag} {absent : α} {m' m : WorldM σ α} (h : Cuts m' m) :
    Cuts (Engine.withInstance owner absent m') (Engine.withInstance owner absent m) :=
  .next _ fun _ => .ite h (.refl _)

theorem whileExecuting {owner : Tag} {m' m : WorldM σ Unit} (h : Cuts m' m) :
    Cuts (Engine.whileExecuting owner m') (Engine.whileExecuting owner m) :=
  .next _ fun _ => .next _ fun _ => .andThen h _

theorem lookInto {owner : Tag} {P : Tree → Env → Prop} {m' m : WorldM σ α} (h : Cuts m' m) :
    Cuts (Engine.lookInto owner P >>= fun _ => m') m := by
  intro w
  by_cases hp : w.Undisturbed owner → P (w.instanceOf owner).tree (w.instanceOf owner).env
  · have hok : (Engine.lookInto owner P).run w = .ok ((), w) := if_pos hp
    rw [StateT.run_bind, hok]
    exact h w
  · have hcut : (Engine.lookInto owner P).run w = .error .outOfRange := if_neg hp
    rw [StateT.run_bind, hcut]
    exact .inr rfl

end WorldM.Cuts

namespace Engine.Cuts

variable {e' e : Engine σ} {o : Tag}

section

variable (h : e'.Cuts e)
include h

theorem dispatch (key : EventKey) (args : List Value) : WorldM.Cuts (e'.dispatch key args) (e.dispatch key args) :=
  .next _ fun _ => .andThen (.forM _ fun l => h.hear l _) _

theorem alike (o : Tag) : Engine.Alike o (TickM.Cuts o) e' e :=
  { TickM.congruence_cuts o with
    run := h.run o
    resume := h.resume o
    dispatch := fun key args => (h.dispatch key args).onWorld o }

theorem announce (event : Lifecycle) (args : List Value) :
    WorldM.Cuts (e'.announce o event args) (e.announce o event args) :=
  .next _ fun _ => .andThen (h.dispatch _ _) _

theorem update (dt : Float) : WorldM.Cuts (e'.update dt) (e.update dt) :=
  .next _ fun _ => .next _ fun _ => .next _ fun _ => .forM _ h.alarm

theorem runNextWith {exec' exec : Job → TickM σ Unit} (hexec : ∀ job, TickM.Cuts o _ (exec' job) (exec job)) :
    WorldM.Cuts (e'.runNextWith exec' o) (e.runNextWith exec o) := by
  refine .next _ fun w => ?_
  cases (w.instanceOf o).pending with
  | nil => exact .refl _
  | cons job rest =>
    refine .next _ fun _ => .bind (.activate (hexec job)) fun r => ?_
    cases r with
    | ok => exact .next _ fun _ => .ite (.refl _) (h.runPending o)
    | error err => exact .next _ fun _ => .next _ fun _ => .ite (.refl _) (h.runPending o)

theorem runJob (job : Job) : TickM.Cuts o _ (e'.runJob job) (e.runJob job) :=
  .bind (.refl _) fun _ => (h.alike o).aside ((h.alike o).runFor job)

theorem windUp (event : Lifecycle) (forget : Env → Env) :
    WorldM.Cuts (e'.windUp o event forget) (e.windUp o event forget) :=
  .whileExecuting (.bind (h.announce event []) fun _ => .andThen (h.runPending o) _)

theorem interruptNow : WorldM.Cuts (e'.interruptNow o) (e.interruptNow o) :=
  .next _ fun _ => .next _ fun _ => .andThen (h.windUp _ _) _

theorem clearNow : WorldM.Cuts (e'.clearNow o) (e.clearNow o) := .next _ fun _ => .andThen (h.windUp _ _) _

theorem drain : WorldM.Cuts (e'.drain o) (e.drain o) :=
  .whileExecuting (.bind (h.runPending o) fun _ => .next _ fun _ => .ite h.interruptNow (.refl _))

theorem schedule (job : Job) : WorldM.Cuts (e'.schedule o job) (e.schedule o job) :=
  .next _ fun _ => .ite (.refl _) (.next _ fun _ => .next _ fun _ => .ite (.refl _) h.drain)

theorem tick : WorldM.Cuts (e'.tick o) (e.tick o) :=
  .next _ fun _ => .ite (.refl _) (.ite (.activate (h.run o _)) (.activate (h.resume o 0)))

theorem announceSettled (status : Status) : WorldM.Cuts (e'.announceSettled o status) (e.announceSettled o status) := by
  rw [Engine.announceSettled, Engine.announceSettled]
  cases settledEvent? status with
  | none => exact .refl _
  | some event => exact h.announce event []

theorem settleTick (status : Status) : WorldM.Cuts (e'.settleTick o status) (e.settleTick o status) :=
  .next _ fun _ => .ite (.andThen h.interruptNow _)
    (.bind (h.announce _ _) fun _ => .bind (h.announceSettled status) fun _ => .andThen h.drain _)

theorem openRun : WorldM.Cuts (e'.openRun o) (e.openRun o) := .next _ fun _ => .bind (h.announce _ _) fun _ => h.tick

theorem afterTick (result : Except RunError Status) : WorldM.Cuts (e'.afterTick o result) (e.afterTick o result) := by
  cases result with
  | error err => exact .refl _
  | ok status =>
    exact .bind (h.settleTick status) fun _ => .next _ fun _ => .ite (.andThen h.clearNow _) (.refl _)

theorem closeRun (result : Except RunError Status) : WorldM.Cuts (e'.closeRun o result) (e.closeRun o result) :=
  .andThen (h.afterTick result) _

theorem runTree : WorldM.Cuts (e'.runTree o) (e.runTree o) :=
  .next _ fun _ => .ite (.refl _) (.bind h.openRun h.closeRun)

theorem interruptTree : WorldM.Cuts (e'.interruptTree o) (e.interruptTree o) :=
  .next _ fun _ => .next _ fun _ => .ite (.refl _) h.interruptNow

theorem clearTree : WorldM.Cuts (e'.clearTree o) (e.clearTree o) :=
  .next _ fun _ => .next _ fun _ => .ite (.refl _) h.clearNow

theorem perform (p : Program σ) : WorldM.Cuts (e'.perform p) (e.perform p) := by
  induction p with
  | done => exact .refl _
  | run owner next ih => exact .bind (.withInstance h.runTree) ih
  | interrupt owner next ih => exact .bind (.withInstance h.interruptTree) fun _ => ih
  | clear owner next ih => exact .bind (.withInstance h.clearTree) fun _ => ih
  | update dt next ih => exact .bind (h.update dt) fun _ => ih
  | dispatch key args next ih => exact .bind (h.dispatch key args) ih
  | look next ih | load _ _ next ih | newTag next ih | create _ _ next ih | setTree _ _ next ih | unsubscribe _ next ih
  | unsubscribeEvent _ _ next ih | cancel _ next ih | subscribe _ _ _ next _ ih | delay _ _ _ next _ ih =>
    exact .next _ fun _ => ih _
  | store _ next ih | note _ next ih | install _ _ next ih | setVar _ _ _ next ih | drop _ next ih
  | release _ next ih =>
    exact .next _ fun _ => ih

/-- One level of calls more, under a lookout or without one. -/
theorem under (L : Lookout) : (e'.under L).Cuts e.deeper where
  run o id := by
    have hlast : ∀ status, TickM.Cuts o _ (TickM.look (fun tree env => L.returned tree env id status) >>= fun _ =>
        Pure.pure status) (Pure.pure status : TickM σ Status) := fun status => .insist (.refl _)
    have hnode : TickM.Cuts o _ (e'.deeper.run id) (e.deeper.run id) :=
      .bind (.refl _) fun node => (h.alike o).runNode node
    have hrun := hnode.bind hlast
    rw [bind_pure] at hrun
    exact .insist hrun
  resume o level := (h.alike o).resumeAbove level
  hear l event := by
    cases l with
    | node owner listener only => exact h.schedule _
    | host react => exact h.perform _
  alarm a := by
    cases a with
    | job owner job => exact h.schedule job
    | host act => exact h.perform act
  runPending _ := .lookInto (h.runNextWith fun job => .lookAround (h.runJob job))

end

end Engine.Cuts

theorem Engine.cuts_ofDepth (L : Lookout) (n : Nat) : (ofDepthUnder L n : Engine σ).Cuts (ofDepth n) := by
  induction n with
  | zero => exact ⟨fun _ _ => .refl _, fun _ _ => .refl _, fun _ _ => .refl _, fun _ => .refl _, fun _ => .refl _⟩
  | succ n ih => exact ih.under L

/-- A program does under a lookout what it does without, unless that halts it. -/
theorem World.performUnder_eq (L : Lookout) (depth : Nat) (p : Program σ) (w : World σ) :
    w.performUnder L depth p = w.perform depth p ∨ w.performUnder L depth p = .error .outOfRange := by
  rcases (Engine.cuts_ofDepth L depth).perform p w with heq | hcut
  · exact .inl (congrArg (Except.map Prod.snd) heq)
  · exact .inr (congrArg (Except.map Prod.snd) hcut)

end BehaviorTree
