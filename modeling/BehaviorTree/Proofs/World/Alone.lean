import BehaviorTree.Proofs.Steps.Total
import BehaviorTree.Proofs.World.Watch

/-!
Instances that are left alone. As long as nobody listens for what becomes of an instance, a run of it is a tick: what
comes before and after is only told in the journal.
-/

namespace BehaviorTree
set_option autoImplicit false

variable {σ : Type} {e : Engine σ} {w w' : World σ} {o : Tag} {tree : Tree} {env : Env}

def Activity.Outer : Activity → Prop
  | entered | left | announced .. => True
  | _ => False

namespace World

/-- Nobody listens for what becomes of an instance. -/
def Unheard (w : World σ) (owner : Tag) : Prop :=
  ∀ event : Lifecycle, w.subscriptions.callbacks ⟨event.name, some owner.text⟩ = []

structure Solo (o : Tag) (tree : Tree) (env : Env) (w : World σ) : Prop where
  instanceOf : w.instanceOf o = { tree, env }
  unheard : w.Unheard o

/-- One world follows another, and nothing happens that others would notice. -/
structure Around (o : Tag) (w w' : World σ) : Prop where
  subscriptions : w'.subscriptions = w.subscriptions
  delays : w'.delays = w.delays
  time : w'.time = w.time
  acts : ∃ acts, w'.acts o = w.acts o ++ acts ∧ ∀ a ∈ acts, a.Outer

namespace Around

theorem refl (w : World σ) : w.Around o w := ⟨rfl, rfl, rfl, [], (List.append_nil _).symm, by simp⟩

theorem trans {w'' : World σ} (h : Around o w w') (h' : Around o w' w'') : Around o w w'' := by
  obtain ⟨acts, ha, hq⟩ := h.acts
  obtain ⟨acts', ha', hq'⟩ := h'.acts
  refine ⟨h'.subscriptions.trans h.subscriptions, h'.delays.trans h.delays, h'.time.trans h.time, acts ++ acts', ?_,
    fun a hm => (List.mem_append.mp hm).elim (hq a) (hq' a)⟩
  rw [ha', ha, List.append_assoc]

theorem modify (h : Around o w w') (f : Instance → Instance) : Around o w (w'.modifyInstance o f) :=
  h.trans ⟨rfl, rfl, rfl, [], (List.append_nil _).symm, by simp⟩

theorem observe (h : Around o w w') {a : Activity} (ha : a.Outer) : Around o w (w'.observe o a) := by
  refine h.trans ⟨rfl, rfl, rfl, [a], ?_, by simpa using ha⟩
  rw [acts_observe, if_pos rfl]

theorem unheard (h : Around o w w') (hw : w.Unheard o) : w'.Unheard o := fun event => by
  rw [h.subscriptions]
  exact hw event

theorem filterMap_acts {α : Type} (h : Around o w w') {f : Activity → Option α}
    (hf : ∀ a : Activity, a.Outer → f a = none) : (w'.acts o).filterMap f = (w.acts o).filterMap f := by
  obtain ⟨acts, ha, hq⟩ := h.acts
  rw [ha, List.filterMap_append, List.filterMap_eq_nil_iff.mpr fun a hm => hf a (hq a hm), List.append_nil]

end Around

def opened (w : World σ) (o : Tag) : World σ :=
  (w.modifyInstance o fun i => { i with executing := true }).observe o (.announced Lifecycle.beforeRun.name [])

/-- The tick of a run begins. -/
def entered (w : World σ) (o : Tag) : World σ := (w.opened o).observe o .entered

theorem around_entered (w : World σ) : Around o w (w.entered o) := by
  have hopened : Around o w (w.opened o) := ((Around.refl w).modify _).observe trivial
  exact hopened.observe trivial

theorem Solo.instanceOf_opened (h : w.Solo o tree env) :
    (w.opened o).instanceOf o = { tree, env, executing := true } := by
  change (w.modifyInstance o fun i => { i with executing := true }).instanceOf o = _
  rw [instanceOf_modifyInstance_self, h.instanceOf]

theorem Solo.instanceOf_entered (h : w.Solo o tree env) :
    (w.entered o).instanceOf o = { tree, env, executing := true } := h.instanceOf_opened

/-- One world follows another, and a run that nobody listens for goes on. -/
structure Executes (o : Tag) (tree : Tree) (env : Env) (w w' : World σ) : Prop where
  around : Around o w w'
  instanceOf : w'.instanceOf o = { tree, env, executing := true }
  unheard : w'.Unheard o

end World

namespace Engine

theorem announce_run (h : w.Unheard o) (event : Lifecycle) (args : List Value) :
    (e.announce o event args).run w = .ok ((), w.observe o (.announced event.name args)) := by
  have hgives : w.Gives (e.announce o event args) fun _ w' => w' = w.observe o (.announced event.name args) := by
    have hnone : (w.observe o (.announced event.name args)).subscriptions.callbacks ⟨event.name, some o.text⟩ = [] :=
      h event
    rw [announce, World.gives_bind, World.gives_modify, World.gives_bind, dispatch, World.gives_bind, World.gives_get]
    simp only [hnone, World.gives_bind, World.gives_pure]
    rfl
  obtain ⟨_, w', hrun, rfl⟩ := hgives.exists
  exact hrun

theorem runTree_run (h : w.Solo o tree env) :
    (e.runTree o).run w =
      (activate o (if env.stack.isEmpty then e.run tree.root else e.resume 0) >>= e.closeRun o).run (w.opened o) := by
  have htold : (e.announce o .beforeRun []).run (w.modifyInstance o fun i => { i with executing := true }) =
      .ok ((), w.opened o) :=
    announce_run (show (w.modifyInstance o fun i => { i with executing := true }).Unheard o from h.unheard) _ _
  have hopen : (e.openRun o).run w = (e.tick o).run (w.opened o) := by
    change ((do e.announce o .beforeRun []; e.tick o : WorldM σ _).run _) = _
    rw [StateT.run_bind, htold]
    rfl
  have htick : (e.tick o).run (w.opened o) =
      (activate o (if env.stack.isEmpty then e.run tree.root else e.resume 0)).run (w.opened o) := by
    rw [tick, StateT.run_bind, StateT.run_get, pure_bind]
    simp only [h.instanceOf_opened, Bool.false_eq_true, if_false]
    split <;> rfl
  rw [runTree, StateT.run_bind, StateT.run_get, pure_bind]
  simp only [h.instanceOf, Bool.false_eq_true, if_false]
  rw [StateT.run_bind, hopen, htick, StateT.run_bind]

section Ticks

variable {m : TickM σ Status} {t : Tick σ}

/-- The tick of a run gives back the state that it ends with, even if it fails. -/
theorem activate_run {r : Except RunError Status} (h : w.Solo o tree env)
    (hm : TickM.attempt m ⟨o, tree⟩ ⟨env, w.entered o⟩ = .ok r t) :
    (activate o m).run (w.opened o) = .ok (r, giveBack o t) := by
  have hi : ((w.opened o).observe o .entered).instanceOf o = { tree, env, executing := true } := h.instanceOf_entered
  rw [activate, StateT.run_bind, StateT.run_modify, pure_bind, StateT.run_bind, StateT.run_get, pure_bind]
  simp only [hi]
  rw [StateT.run_bind, StateT.run_get, pure_bind]
  rw [TickM.attempt_apply, World.entered] at hm
  cases hout : m ⟨o, tree⟩ ⟨env, (w.opened o).observe o .entered⟩ with
  | ok status u =>
    rw [hout] at hm
    obtain ⟨rfl, rfl⟩ := Outcome.ok.inj hm
    rfl
  | failed error u =>
    rw [hout] at hm
    obtain ⟨rfl, rfl⟩ := Outcome.ok.inj hm
    rfl
  | halted halt =>
    rw [hout] at hm
    cases hm

theorem activate_run_halted {halt : Halt} (h : w.Solo o tree env)
    (hm : m ⟨o, tree⟩ ⟨env, w.entered o⟩ = .halted halt) : (activate o m).run (w.opened o) = .error halt := by
  have hi : ((w.opened o).observe o .entered).instanceOf o = { tree, env, executing := true } := h.instanceOf_entered
  rw [World.entered] at hm
  rw [activate, StateT.run_bind, StateT.run_modify, pure_bind, StateT.run_bind, StateT.run_get, pure_bind]
  simp only [hi]
  rw [StateT.run_bind, StateT.run_get, pure_bind, hm]
  rfl

/-- Without waiting jobs, nothing is left to be done for an instance. -/
theorem gives_runPending (d : Nat) (h : (w.instanceOf o).pending = []) :
    w.Gives ((ofDepth (d + 1) : Engine σ).runPending o) fun _ w' => w' = w := by
  change w.Gives ((ofDepth d : Engine σ).runNext o) _
  rw [runNext, World.gives_bind, World.gives_get, h]
  rfl

section Close

theorem gives_announce {event : Lifecycle} {args : List Value} {Q : Unit → World σ → Prop}
    (h : w.Executes o tree env w') (hq : ∀ w'', w.Executes o tree env w'' → Q () w'') :
    w'.Gives (e.announce o event args) Q := by
  rw [World.Gives, announce_run h.unheard]
  exact hq _ ⟨h.around.observe trivial, h.instanceOf, h.unheard⟩

variable (hp : ∀ w : World σ, (w.instanceOf o).pending = [] → w.Gives (e.runPending o) fun _ w' => w' = w)
include hp

theorem gives_drain (h : w.Executes o tree env w') : w'.Gives (e.drain o) fun _ w'' => w.Executes o tree env w'' := by
  have hbusy : (w'.modifyInstance o fun i => { i with executing := true }).instanceOf o =
      { tree, env, executing := true } := by
    rw [World.instanceOf_modifyInstance_self, h.instanceOf]
  rw [drain, whileExecuting, World.gives_bind, World.gives_get, h.instanceOf, World.gives_bind, World.gives_modify,
    World.gives_bind, World.gives_bind]
  refine (hp _ (by rw [hbusy])).mono ?_
  rintro _ w'' rfl
  rw [World.gives_bind, World.gives_get, hbusy]
  refine ⟨(h.around.modify _).modify _, ?_, h.unheard⟩
  rw [World.instanceOf_modifyInstance_self, hbusy]

theorem gives_settleTick (status : Status) (h : w.Executes o tree env w') :
    w'.Gives (e.settleTick o status) fun s w'' => s = status ∧ w.Executes o tree env w'' := by
  have hend : ∀ {w' : World σ}, w.Executes o tree env w' →
      w'.Gives (do e.drain o; return status) fun s w'' => s = status ∧ w.Executes o tree env w'' := fun h => by
    rw [World.gives_bind]
    exact (gives_drain hp h).mono fun _ w'' h' => ⟨rfl, h'⟩
  rw [settleTick, World.gives_bind, World.gives_get, h.instanceOf]
  simp only [Bool.false_eq_true, if_false]
  rw [World.gives_bind]
  refine gives_announce h fun w₁ h₁ => ?_
  rw [World.gives_bind]
  cases status with
  | running => exact hend h₁
  | success => exact gives_announce h₁ fun w₂ h₂ => hend h₂
  | failure => exact gives_announce h₁ fun w₂ h₂ => hend h₂

theorem closeRun_run (status : Status) (h : w.Executes o tree env w') :
    ∃ w'', (e.closeRun o (.ok status)).run w' = .ok (.ok status, w'') ∧ World.Around o w w'' ∧
      w''.Solo o tree env := by
  have hgives : w'.Gives (e.closeRun o (.ok status)) fun r w'' =>
      r = .ok status ∧ World.Around o w w'' ∧ w''.Solo o tree env := by
    rw [closeRun, World.gives_bind, afterTick, World.gives_bind]
    refine (gives_settleTick hp status h).mono ?_
    rintro _ w₁ ⟨rfl, h₁⟩
    rw [World.gives_bind, World.gives_get, h₁.instanceOf]
    refine ⟨rfl, h₁.around.modify _, ?_, h₁.unheard⟩
    rw [World.instanceOf_modifyInstance_self, h₁.instanceOf]
  obtain ⟨r, w'', hrun, rfl, hdone⟩ := hgives.exists
  exact ⟨w'', hrun, hdone⟩

end Close

theorem closeRun_run_error (error : RunError) :
    ∃ w', (e.closeRun o (.error error)).run w = .ok (.error error, w') := ⟨_, rfl⟩

variable (h : w.Solo o tree env)
include h

/-- A tick that ends with a status, and leaves the world alone, ends the run with that status. -/
theorem runTree_of_ok {status : Status}
    (hp : ∀ w : World σ, (w.instanceOf o).pending = [] → w.Gives (e.runPending o) fun _ w' => w' = w)
    (hm : (if env.stack.isEmpty then e.run tree.root else e.resume 0) ⟨o, tree⟩ ⟨env, w.entered o⟩ = .ok status t)
    (ht : ∃ journal, t.world = { w.entered o with journal }) :
    ∃ w', (e.runTree o).run w = .ok (.ok status, w') ∧ World.Around o t.world w' ∧ w'.Solo o tree t.env := by
  have hattempt : TickM.attempt (if env.stack.isEmpty then e.run tree.root else e.resume 0) ⟨o, tree⟩
      ⟨env, w.entered o⟩ = .ok (.ok status) t := by rw [TickM.attempt_apply, hm]
  have hactivate := activate_run h hattempt
  have hworld : t.world.instanceOf o = { tree, env, executing := true } := by
    obtain ⟨journal, ht⟩ := ht
    rw [ht]
    exact h.instanceOf_entered
  have hback : World.Around o t.world (giveBack o t) := ((World.Around.refl _).modify _).observe trivial
  have hexecutes : t.world.Executes o tree t.env (giveBack o t) := by
    refine ⟨hback, ?_, hback.unheard ?_⟩
    · change (t.world.modifyInstance o fun i => { i with env := t.env }).instanceOf o = _
      rw [World.instanceOf_modifyInstance_self, hworld]
    · obtain ⟨journal, ht⟩ := ht
      rw [ht]
      exact h.unheard
  obtain ⟨w', hclose, haround, hsolo⟩ := closeRun_run hp status hexecutes
  refine ⟨w', ?_, haround, hsolo⟩
  rw [runTree_run h, StateT.run_bind, hactivate]
  exact hclose

/-- A tick that fails ends the run with its error. -/
theorem runTree_of_failed {error : RunError}
    (hm : (if env.stack.isEmpty then e.run tree.root else e.resume 0) ⟨o, tree⟩ ⟨env, w.entered o⟩ = .failed error t) :
    ∃ w', (e.runTree o).run w = .ok (.error error, w') := by
  have hattempt : TickM.attempt (if env.stack.isEmpty then e.run tree.root else e.resume 0) ⟨o, tree⟩
      ⟨env, w.entered o⟩ = .ok (.error error) t := by rw [TickM.attempt_apply, hm]
  have hactivate := activate_run h hattempt
  obtain ⟨w', hclose⟩ := closeRun_run_error (e := e) (o := o) (w := giveBack o t) error
  refine ⟨w', ?_⟩
  rw [runTree_run h, StateT.run_bind, hactivate]
  exact hclose

theorem runTree_of_halted {halt : Halt}
    (hm : (if env.stack.isEmpty then e.run tree.root else e.resume 0) ⟨o, tree⟩ ⟨env, w.entered o⟩ = .halted halt) :
    (e.runTree o).run w = .error halt := by
  rw [runTree_run h, StateT.run_bind, activate_run_halted h hm]
  rfl

end Ticks

end Engine

end BehaviorTree
