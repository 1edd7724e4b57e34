import BehaviorTree.Proofs.Engine.Outcome
import BehaviorTree.Proofs.World.Rules

/-!
What the calls that leave a tick guarantee: whoever hears an event or an alarm leaves a good world, in which all
instances that were executing are guests. Within the tick of an instance, its own flags and jobs are those that the
journal tells.
-/

namespace BehaviorTree
set_option autoImplicit false

variable {σ : Type}

structure Tick.Runs (R : Rules σ) (c : Activation) (t : Tick σ) : Prop where
  good : t.world.Good R
  here : ∃ i, t.world.instances[c.owner]? = some i ∧ i.executing = true ∧ i.tree = c.tree

/-- An interruption of the running instance is asked for. -/
def Tick.Flagged (c : Activation) (t : Tick σ) : Prop := (t.world.instanceOf c.owner).interrupted = true

/-- Nothing happens to the stacks and payloads of the running instance. -/
structure Tick.Calm (R : Rules σ) (c : Activation) (t t' : Tick σ) : Prop where
  runs : t'.Runs R c
  advances : t.world.Advances (!R.swap) Part.none t'.world
  stack : t'.env.stack = t.env.stack
  temps : t'.env.temps = t.env.temps
  detached : t'.env.detached = t.env.detached
  lastStatus : t'.env.lastStatus = t.env.lastStatus

structure Engine.Honors (e : Engine σ) (R : Rules σ) : Prop where
  hear {w : World σ} {l : Listener σ} {tag : Tag} (event : Event) : w.Good R → l.Valid R w tag →
    w.After (e.hear l event) fun _ w' => w'.Good R ∧ w.Advances (!R.swap) Part.none w'
  alarm {w : World σ} {a : Alarm σ} {tag : Tag} : w.Good R → a.Valid R w tag →
    w.After (e.alarm a) fun _ w' => w'.Good R ∧ w.Advances (!R.swap) Part.none w'

variable {R : Rules σ} {c : Activation} {t t' t'' : Tick σ} {e : Engine σ} {w w' : World σ}

namespace World

theorem Good.orderly {i : Instance} {o : Tag} (h : w.Good R) (hi : w.instances[o]? = some i) : i.tree.Orderly :=
  (h.holds hi).loaded.orderly R.plain

namespace Advances

variable {keep : Bool} {part : Tag → Part} {o : Tag} {i : Instance}

/-- An interruption that is asked for is not forgotten while its instance executes. -/
theorem interrupted (h : w.Advances keep part w') (hi : w.instances[o]? = some i) (he : i.executing = true)
    (hp : part o ≠ .acted) (hf : i.interrupted = true) : (w'.instanceOf o).interrupted = true := by
  obtain ⟨i', _, hi', _, _, _, hallow⟩ := h.exists_allowed hi he
  rw [instanceOf_eq hi', (hallow.works hp).interrupted, hf, Bool.true_or]

end Advances

end World

namespace Tick

theorem Runs.orderly (h : t.Runs R c) : c.tree.Orderly := by
  obtain ⟨i, hi, _, ht⟩ := h.here
  exact ht ▸ h.good.orderly hi

theorem Runs.advance {part : Tag → Part} (h : t.Runs R c) (hg : w'.Good R)
    (hw : t.world.Advances (!R.swap) part w') (env : Env) : ({ env, world := w' } : Tick σ).Runs R c := by
  obtain ⟨i, hi, he, ht⟩ := h.here
  obtain ⟨i', hi', he', ht'⟩ := hw.exists_instance hi
  exact ⟨hg, i', hi', he'.trans he, (ht' (.inr he)).trans ht⟩

theorem Flagged.advance {part : Tag → Part} (hf : t.Flagged c) (h : t.Runs R c)
    (hw : t.world.Advances (!R.swap) part t'.world) (hp : part c.owner ≠ .acted) : t'.Flagged c := by
  obtain ⟨i, hi, he, _⟩ := h.here
  rw [Flagged, World.instanceOf_eq hi] at hf
  exact hw.interrupted hi he hp hf

namespace Calm

theorem refl (h : t.Runs R c) : t.Calm R c t := ⟨h, .refl _, rfl, rfl, rfl, rfl⟩

/-- Variables, private variables, listening nodes and slots are no part of the stacks. -/
theorem env (h : t.Calm R c t') {env : Env} (hs : env.stack = t'.env.stack) (ht : env.temps = t'.env.temps)
    (hd : env.detached = t'.env.detached) (hl : env.lastStatus = t'.env.lastStatus) :
    t.Calm R c { t' with env } :=
  ⟨⟨h.runs.good, h.runs.here⟩, h.advances, hs.trans h.stack, ht.trans h.temps, hd.trans h.detached,
    hl.trans h.lastStatus⟩

theorem world (h : t.Calm R c t') (hg : w'.Good R) (hw : t'.world.Advances (!R.swap) Part.none w') :
    t.Calm R c { t' with world := w' } :=
  ⟨h.runs.advance hg hw _, h.advances.trans hw, h.stack, h.temps, h.detached, h.lastStatus⟩

theorem report (h : t.Calm R c t') (r : Report) : t.Calm R c { t' with world := t'.world.report r } :=
  h.world (h.runs.good.report r) (.of_eq (fun _ => World.acts_report _ _ _) rfl)

theorem set (h : t.Calm R c t') (name : String) (value : Option Value) :
    t.Calm R c { t' with env := t'.env.set name value } := h.env rfl rfl rfl rfl

theorem pushOutput (h : t.Calm R c t') (value : Option Value) :
    t.Calm R c { t' with env := t'.env.pushOutput value } := h.env rfl rfl rfl rfl

theorem writes (h : t.Calm R c t') (values : List (String × Option Value)) :
    t.Calm R c { t' with env := values.foldl (fun env (name, value) => env.set name value) t'.env } := by
  induction values generalizing t' with
  | nil => exact h
  | cons _ _ ih => exact ih (h.set _ _)

theorem pushOutputs (h : t.Calm R c t') (values : List (Option Value)) :
    t.Calm R c { t' with env := values.foldl Env.pushOutput t'.env } := by
  induction values generalizing t' with
  | nil => exact h
  | cons _ _ ih => exact ih (h.pushOutput _)

theorem interrupt (h : t.Calm R c t') :
    t.Calm R c { t' with
      world := (t'.world.observe c.owner (.requested false)).modifyInstance c.owner fun i =>
        { i with interrupted := true } } := by
  obtain ⟨i, hi, he, _⟩ := h.runs.here
  have hch := ((World.Changes.refl hi).observe (.requested false)).modify fun i => { i with interrupted := true }
  refine h.world ?_ ?_
  · exact h.runs.good.of_changes hi hch rfl (h.runs.good.holds hi).pending (by simp [he])
  · refine World.Advances.of_changes hch hi rfl (fun _ => rfl) fun _ => ?_
    exact ⟨⟨i.env.vars, rfl⟩, by simp [Activity.job?], by simp [Activity.isRequest], by simp [Activity.isClear],
      by simp [Activity.Quiet]⟩

end Calm

end Tick

namespace Engine

theorem Honors.dispatch (he : e.Honors R) (hw : w.Good R) (key : EventKey) (args : List Value) :
    w.After (e.dispatch key args) fun _ w' => w'.Good R ∧ w.Advances (!R.swap) Part.none w' := by
  rw [Engine.dispatch, after_bind, after_get, after_bind]
  refine (after_forM (P := fun w' => w'.Good R ∧ w.Advances (!R.swap) Part.none w') ⟨hw, .refl w⟩ ?_).mono
    fun _ _ h => h
  rintro l hl w' ⟨hw', hadv⟩
  obtain ⟨id, s, hs, rfl⟩ := Subscriptions.mem_callbacks hl
  refine (he.hear _ hw' ((hw.listeners hs).advance hadv)).mono ?_
  rintro _ w'' ⟨hw'', hadv'⟩
  exact ⟨hw'', hadv.trans hadv'⟩

end Engine

end BehaviorTree
