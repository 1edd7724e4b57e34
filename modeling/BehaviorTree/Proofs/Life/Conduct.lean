import BehaviorTree.Proofs.Life.Lifetime
import BehaviorTree.Proofs.World.Lockstep

/-!
What is kept by whatever is done with an instance. In a tick or job it is enough that each change of the state and of
the world keeps it. However an instance is run, interrupted or cleared, it comes down to a few things: a tick or job has
its state, an event of its life is told, it is unwound or released, and meanwhile it counts as executing. And what is
done with another instance goes on in one world as in two that are kept in step.
-/

namespace BehaviorTree
set_option autoImplicit false

variable {σ α : Type} {o : Tag} {w : World σ}

/-! ### Ticks -/

def TickM.Sustains (o : Tag) (running : Tree) (P : Tick σ → Prop) : TickM.Relation σ := fun _ m _ =>
  ∀ ⦃t : Tick σ⦄, P t → (m ⟨o, running⟩ t).Leaves P

/-- What is sustained by each change that nodes make is sustained by all that nodes are put together from. -/
theorem TickM.respects_sustains {running : Tree} {P : Tick σ → Prop}
    (hedit : ∀ {t : Tick σ} {env : Env}, env.listening = t.env.listening → env.privates = t.env.privates → P t →
      P { t with env })
    (hremember : ∀ {t : Tick σ} {i : NodeId} {n : Node} (name : String) {value : Option Value},
      running.get? i = some n → (n.behavior = .once → value.isSome = true) → P t →
        P { t with env := t.env.setPrivate n.id name value })
    (hrecord : ∀ {t : Tick σ} {e : Entry}, (∀ p, e.of? p = none) → P t → P { t with world := t.world.record e })
    (hinterrupt : ∀ {t : Tick σ}, P t → P { t with
      world := (t.world.observe o (.requested false)).modifyInstance o fun i => { i with interrupted := true } })
    (hdelay : ∀ {t : Tick σ} (span : Float) (job : Job), P t →
      P { t with world := (t.world.delay span o (.job o job)).2 }) :
    TickM.Respects o (fun _ => True) (fun n => ∃ i, running.get? i = some n) (TickM.Sustains o running P) where
  pure _ := fun _ ht => ht
  bind {α β m m' f f'} hm hf := by
    intro t ht
    have hfirst := hm ht
    rw [bind_apply]
    cases hr : m ⟨o, running⟩ t with
    | halted h => exact trivial
    | failed e u =>
      rw [hr] at hfirst
      exact hfirst
    | ok a u =>
      rw [hr] at hfirst
      exact hf a hfirst
  fail _ := fun _ ht => ht
  halt _ := fun _ _ => trivial
  attempt {α m m'} hm := by
    intro t ht
    have h := hm ht
    rw [attempt_apply]
    cases hr : m ⟨o, running⟩ t with
    | halted h => exact trivial
    | ok a u | failed e u =>
      rw [hr] at h
      exact h
  bindOwner hf := fun _ ht => hf ht
  bindTree hf := fun _ ht => hf running (fun i _ hn => ⟨i, hn⟩) ht
  bindEnv hf := fun t ht => hf t.env t.env (.refl _ _) ht
  time := fun _ ht => ht
  interrupted := fun _ ht => ht
  edit hf := fun _ ht => hedit (hf.listening _) (hf.privates _) ht
  remember name _ hn hvalue := fun _ ht => hn.elim fun _ hget => hremember name hget hvalue ht
  record he := fun _ ht => hrecord he ht
  interrupt := fun _ ht => hinterrupt ht
  delay span job _ := fun _ ht => hdelay span job ht

theorem TickM.leaves_onWorld {m : WorldM σ α} {c : Activation} {t : Tick σ} {Q : Tick σ → Prop}
    (h : t.world.Then m fun _ w' => Q { t with world := w' }) : (TickM.onWorld m c t).Leaves Q := by
  rw [TickM.onWorld]
  cases hr : m.run t.world with
  | error halt => exact trivial
  | ok r => exact h r.1 r.2 hr

/-! ### One world twice -/

section Twice

variable {P : World σ → Prop}

/-- What is in step with itself as long as something holds keeps that. -/
theorem WorldM.InStep.keeps {m : WorldM σ α} (hm : WorldM.InStep (fun w v => v = w ∧ P w) m m) (h : P w) :
    w.Then m fun _ => P := by
  intro a w' hr
  have hends := hm ⟨rfl, h⟩
  rw [hr] at hends
  cases hends with
  | ok _ hu => exact hu.2

theorem WorldM.inStep_of_keeps {m : WorldM σ α} (hm : ∀ {w : World σ}, P w → w.Then m fun _ => P) :
    WorldM.InStep (fun w v => v = w ∧ P w) m m := by
  rintro _ w ⟨rfl, h⟩
  cases hr : m.run w with
  | error halt => exact .error halt
  | ok r => exact .ok r.1 ⟨rfl, hm h r.1 r.2 hr⟩

/-- A world mirrors itself as long as something holds that is kept by all that is done with an instance. -/
theorem World.mirrors_self (hmodify : ∀ {w : World σ} (f : Instance → Instance), P w → P (w.modifyInstance o f))
    (hrecord : ∀ {w : World σ} {e : Entry}, (∀ p, p ≠ o → e.of? p = none) → P w → P (w.record e))
    (hsubscribe : ∀ {w : World σ} (key : EventKey) (listener child : NodeId), P w →
      P (w.subscribe key o (.node o listener child)).2)
    (hdelay : ∀ {w : World σ} (span : Float) (job : Job), P w → P (w.delay span o (.job o job)).2)
    (hrelease : ∀ {w : World σ}, P w → P (w.releaseTag o)) :
    World.Mirrors o (fun _ => True) (fun _ => True) (fun _ => True) fun w v => v = w ∧ P w := by
  have hlike : ∀ i : Instance, i.Like (fun _ => True) (fun _ => True) i := fun _ =>
    ⟨.refl _ _, rfl, fun _ _ _ => trivial, fun job _ => job.heeds_all⟩
  refine ⟨fun h => h.1 ▸ rfl, fun h => h.1 ▸ rfl, ?_, fun _ h => ⟨h.1 ▸ rfl, fun _ _ => trivial⟩, ?_, ?_, ?_, ?_, ?_⟩
  · rintro w _ ⟨rfl, -⟩
    exact hlike _
  · rintro _ w f f' hf ⟨rfl, h⟩
    have hdone := hf _ _ (hlike (w.instanceOf o))
    have hsame : f' (w.instanceOf o) = f (w.instanceOf o) := by rw [hdone.rest, hdone.env.eq]
    refine ⟨?_, hmodify f h⟩
    unfold World.modifyInstance
    rw [hsame]
  · rintro _ w e he ⟨rfl, h⟩
    exact ⟨rfl, hrecord he h⟩
  · rintro _ w key listener child - ⟨rfl, h⟩
    exact ⟨rfl, hsubscribe key listener child h⟩
  · rintro _ w span job - ⟨rfl, h⟩
    exact ⟨rfl, hdelay span job h⟩
  · rintro _ w ⟨rfl, h⟩
    exact ⟨rfl, hrelease h⟩

end Twice

/-! ### The life of an instance -/

variable {T : Bool → Bool → World σ → Prop} {x b c : Bool}

/-- Of an instance at most flags change and the queue, but not whether it executes. -/
structure Instance.Flags (i i' : Instance) : Prop where
  executing : i'.executing = i.executing
  env : i'.env = i.env
  tree : i'.tree = i.tree
  dropped : i'.dropped = i.dropped
  clearRequested : i.clearRequested = false → i'.clearRequested = false

/-- Nothing of an instance is suspended any more; `forget` is what becomes of its state. -/
structure Instance.Leaves (forget : Env → Env) (i i' : Instance) : Prop where
  executing : i'.executing = i.executing
  env : i'.env = forget i.env.unwind
  tree : i'.tree = i.tree
  dropped : i'.dropped = i.dropped
  clearRequested : i'.clearRequested = i.clearRequested

namespace Engine

/-- What holds at a stage of the life of an instance is settled by its release; `forget` is what becomes of its state. -/
def Settles (o : Tag) (T : Bool → Bool → World σ → Prop) (forget : Env → Env) : Prop :=
  ∀ ⦃x b : Bool⦄ ⦃w : World σ⦄ ⦃f : Instance → Instance⦄, T x b w → (∀ i, Instance.Leaves forget i (f i)) →
    T x true (((w.releaseTag o).observe o .unwound).modifyInstance o f)

/-- What holds at the stages of the life of an instance is kept by all that its life consists of. It may depend on
whether the instance executes; and it may be unsettled, until the instance is released. -/
structure Conducts (o : Tag) (T : Bool → Bool → World σ → Prop) (e : Engine σ) : Prop where
  dispatch {b : Bool} {w : World σ} (key : EventKey) (args : List Value) : T true b w →
    w.Then (e.dispatch key args) fun _ => T true b
  run {b : Bool} {w : World σ} (id : NodeId) : T true b w → w.Then (activate o (e.run id)) fun _ => T true b
  resume {b : Bool} {w : World σ} : T true b w → w.Then (activate o (e.resume 0)) fun _ => T true b
  runJob {b : Bool} {w : World σ} (job : Job) : T true b w → w.Then (activate o (e.runJob job)) fun _ => T true b
  runPending {b : Bool} {w : World σ} : T true b w → w.Then (e.runPending o) fun _ => T true b
  announced {x b : Bool} {w : World σ} (event : String) (args : List Value) : T x b w →
    T x b (w.observe o (.announced event args))
  executing {x b : Bool} {w : World σ} : T x b w → (w.instanceOf o).executing = x
  report {x b : Bool} {w : World σ} (r : Report) : T x b w → T x b (w.report r)
  flag {x b : Bool} {w : World σ} {f : Instance → Instance} : T x b w → (∀ i, Instance.Flags i (f i)) →
    T x b (w.modifyInstance o f)
  execute {x b : Bool} {w : World σ} (y : Bool) : T x b w → T y b (w.modifyInstance o fun i => { i with executing := y })
  unwound {x b : Bool} {w : World σ} : T x b w → T x false (w.unwound o)
  release : Settles o T id
  /-- If a clearing is asked for, all may be forgotten. -/
  forget {x b : Bool} {w : World σ} : T x b w → (w.instanceOf o).clearRequested = true → Settles o T fun _ => {}

namespace Conducts

variable {e : Engine σ} (he : e.Conducts o T)
include he

theorem announce (h : T true b w) (event : Lifecycle) (args : List Value) :
    w.Then (e.announce o event args) fun _ => T true b := by
  simp only [Engine.announce, then_bind, then_modify, then_pure]
  exact he.dispatch _ _ (he.announced _ _ h)

theorem tick (h : T true b w) : w.Then (e.tick o) fun _ => T true b := by
  simp only [Engine.tick, then_bind, then_get]
  split
  · exact (then_pure _).mpr h
  · split
    · exact he.run _ h
    · exact he.resume h

theorem runNext (h : T true b w) : w.Then (e.runNext o) fun _ => T true b := by
  have hrest : ∀ v : World σ, T true b v → v.Then (do
      if ((← get).instanceOf o).interrupted then return
      else e.runPending o) fun _ => T true b := by
    intro v hv
    simp only [then_bind, then_get]
    split
    · exact (then_pure _).mpr hv
    · exact he.runPending hv
  simp only [Engine.runNext, then_bind, then_get]
  split
  · exact (then_pure _).mpr h
  · rename_i job rest _
    have hpopped : T true b (w.modifyInstance o fun i => { i with pending := rest }) :=
      he.flag h fun _ => ⟨rfl, rfl, rfl, rfl, id⟩
    simp only [then_bind, then_modify]
    refine (he.runJob job hpopped).mono fun result v hv => ?_
    cases result with
    | ok => exact hrest v hv
    | error err => exact hrest _ (he.report _ hv)

theorem whileExecuting {m : WorldM σ Unit} (h : T x b w)
    (hm : ∀ v : World σ, T true b v → v.Then m fun _ => T true c) :
    w.Then (Engine.whileExecuting o m) fun _ => T x c := by
  simp only [Engine.whileExecuting, then_bind, then_get, then_modify]
  rw [he.executing h]
  exact (hm _ (he.execute true h)).mono fun _ v hv => he.execute x hv

/-- However unsettled things were, they are settled when the instance has been wound up. -/
theorem windUp (h : T x b w) (event : Lifecycle) {forget : Env → Env} (hforget : Settles o T forget) :
    w.Then (e.windUp o event forget) fun _ => T x true := by
  refine he.whileExecuting h fun v hv => ?_
  simp only [Engine.release, then_bind, then_modify, World.modifyInstance_modifyInstance]
  refine (he.announce hv event []).mono fun _ v₁ hv₁ => (he.runPending hv₁).mono fun _ v₂ hv₂ => ?_
  exact hforget hv₂ fun _ => ⟨rfl, rfl, rfl, rfl, rfl⟩

theorem interruptNow (h : T x b w) : w.Then (e.interruptNow o) fun _ => T x true := by
  simp only [Engine.interruptNow, then_bind, then_modify]
  exact (he.windUp (he.unwound h) .interrupted he.release).mono fun _ _ hv => he.report _ hv

theorem clearNow (h : T x b w) (hforget : Settles o T fun _ => {}) : w.Then (e.clearNow o) fun _ => T x true := by
  have hserved : T x b (w.modifyInstance o fun i => { i with clearRequested := false }) :=
    he.flag h fun _ => ⟨rfl, rfl, rfl, rfl, fun _ => rfl⟩
  simp only [Engine.clearNow, then_bind, then_modify]
  exact (he.windUp hserved .cleaned hforget).mono fun _ _ hv => he.report _ hv

theorem drain (h : T x true w) : w.Then (e.drain o) fun _ => T x true := by
  refine he.whileExecuting h fun v hv => ?_
  simp only [then_bind, then_get]
  refine (he.runPending hv).mono fun _ v₁ hv₁ => ?_
  split
  · exact he.interruptNow hv₁
  · exact (then_pure _).mpr hv₁

theorem announceSettled (h : T true b w) (status : Status) : w.Then (e.announceSettled o status) fun _ => T true b := by
  cases status with
  | success => exact he.announce h .afterRunSuccess []
  | failure => exact he.announce h .afterRunFailure []
  | running => exact (then_pure _).mpr h

theorem settleTick (h : T true true w) (status : Status) : w.Then (e.settleTick o status) fun _ => T true true := by
  simp only [Engine.settleTick, then_bind, then_get]
  split
  · simp only [then_bind, then_pure]
    exact he.interruptNow h
  · simp only [then_bind, then_pure]
    refine (he.announce h .afterRun _).mono fun _ v hv => (he.announceSettled hv status).mono fun _ v₁ hv₁ => ?_
    exact he.drain hv₁

theorem afterTick (h : T true true w) (result : Except RunError Status) :
    w.Then (e.afterTick o result) fun _ => T true true := by
  cases result with
  | error err =>
    simp only [Engine.afterTick, Engine.release, then_bind, then_get, then_modify, then_pure]
    exact he.flag (he.release (he.report _ h) fun _ => ⟨rfl, rfl, rfl, rfl, rfl⟩) fun _ => ⟨rfl, rfl, rfl, rfl, id⟩
  | ok status =>
    simp only [Engine.afterTick, then_bind, then_get]
    refine (he.settleTick h status).mono fun _ v hv => ?_
    split
    · rename_i hclear
      simp only [then_bind, then_pure]
      exact he.clearNow hv (he.forget hv hclear)
    · exact (then_pure _).mpr hv

theorem startRun (h : T false true w) : w.Then (e.openRun o >>= e.closeRun o) fun _ => T false true := by
  simp only [Engine.openRun, Engine.closeRun, then_bind, then_modify, then_pure]
  refine (he.announce (he.execute true h) .beforeRun []).mono fun _ v hv => (he.tick hv).mono fun result v₁ hv₁ => ?_
  exact (he.afterTick hv₁ result).mono fun _ _ hv₂ => he.execute false hv₂

end Conducts

end Engine

end BehaviorTree
