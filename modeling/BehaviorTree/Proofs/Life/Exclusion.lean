import BehaviorTree.Proofs.Engine.Outcome
import BehaviorTree.Proofs.Life.Operations

/-!
Mutual exclusion. No tick or job of an instance begins while another is under way, however the callbacks of the host
and the nodes of all instances call each other; whoever tries to run an instance that executes, or to give it another
tree, is refused; and between the operations of the host nothing of any instance is left under way or waiting.
-/

namespace BehaviorTree
set_option autoImplicit false

variable {σ : Type} {w w' : World σ} {o : Tag} {c d : Course} {e : Engine σ}

namespace Activity

/-- Whether a tick or job has the state of an instance that is seen to do something. -/
def hold (busy : Bool) : Activity → Bool
  | entered => true
  | left => false
  | _ => busy

/-- Whether a tick or job has the state of an instance that was seen to do these things. -/
def underWay (acts : List Activity) : Bool := acts.foldl hold false

/-- What is done between the ticks and jobs of an instance only: one of them begins, an event of its life is told, or
everything suspended is dropped. -/
def Between : Activity → Prop
  | entered | announced .. | unwound => True
  | _ => False

/-- What is done in a tick or job only: the job starts, nodes are called and return, or it ends. -/
def Inside : Activity → Prop
  | started _ | called .. | returned .. | left => True
  | _ => False

end Activity

namespace Course

variable {a : Activity} {acts : List Activity}

theorem Next.active (h : Next c a d) :
    d.active = a.hold c.active ∧ (a.Between → c.active = false) ∧ (a.Inside → c.active = true) := by
  cases h with
  | queued | requested | assigned => exact ⟨rfl, False.elim, False.elim⟩
  | cleaned _ ha | announced _ ha | entered ha | unwound ha => exact ⟨rfl, fun _ => ha, False.elim⟩
  | started ha | called _ _ ha | returned _ _ ha | left ha => exact ⟨rfl, False.elim, fun _ => ha⟩

theorem Path.active (h : Path c acts d) : d.active = acts.foldl Activity.hold c.active := by
  induction h with
  | nil => rfl
  | cons hn _ ih => rw [ih, hn.active.1, List.foldl_cons]

end Course

namespace World

/-- A world that a host has made by performing a program, between its operations. -/
def Reached (w : World σ) : Prop :=
  ∃ (registry : Registry) (host : σ) (depth : Nat) (p : Program σ), World.perform depth p { registry, host } = .ok w

theorem coherent_start (registry : Registry) (host : σ) : ({ registry, host } : World σ).Coherent := by
  refine ⟨⟨Subscriptions.filed_empty, Delays.filed_empty, fun _ => rfl, fun _ => rfl, ?_, ?_⟩,
    fun o => ⟨{}, .nil _, ?_⟩⟩
  · intro id entry o hid
    cases Std.ExtTreeMap.getElem?_empty.symm.trans hid
  · intro id entry o hid
    cases Std.ExtTreeMap.getElem?_empty.symm.trans hid
  · exact ⟨rfl, rfl, rfl, by simp, fun _ => ⟨rfl, rfl, rfl⟩⟩

theorem run_of_map {m : WorldM σ Unit} (h : (m.run w).map (·.2) = .ok w') : m.run w = .ok ((), w') := by
  cases hr : m.run w with
  | error err =>
    rw [hr] at h
    cases h
  | ok result =>
    rw [hr] at h
    obtain rfl : result.2 = w' := Except.ok.inj h
    rfl

theorem run_of_perform {depth : Nat} {p : Program σ} (h : World.perform depth p w = .ok w') :
    ((Engine.ofDepth depth).perform p).run w = .ok ((), w') := run_of_map h

theorem Reached.continues (h : w.Reached) :
    w.Coherent ∧ ∀ o, (w.instanceOf o).executing = false := by
  obtain ⟨registry, host, depth, p, hp⟩ := h
  have hw : ({ registry, host } : World σ).Continues w :=
    (Engine.civil_ofDepth depth).perform p (coherent_start registry host) () w (run_of_perform hp)
  exact ⟨hw.coherent, fun o => (hw.guest o).executing⟩

/-- While a tick or job of it is under way an instance executes. -/
theorem Coherent.executing (h : w.Coherent) (hu : Activity.underWay (w.acts o) = true) :
    (w.instanceOf o).executing = true := by
  obtain ⟨c, hpath, hat⟩ := h.stands o
  cases hb : (w.instanceOf o).executing with
  | true => rfl
  | false => exact absurd (hu.symm.trans (hpath.active.symm.trans (hat.idle hb).1)) (by decide)

/-- The history of an instance: its ticks and jobs take turns. -/
theorem Coherent.takeTurns (h : w.Coherent) {pre post : List Activity} {a : Activity}
    (ha : w.acts o = pre ++ a :: post) :
    (a.Between → Activity.underWay pre = false) ∧ (a.Inside → Activity.underWay pre = true) := by
  obtain ⟨c, hpath, _⟩ := h.stands o
  rw [ha] at hpath
  obtain ⟨d, hpre, hrest⟩ := hpath.split
  cases hrest with
  | cons hnext _ =>
    have hactive : d.active = Activity.underWay pre := hpre.active
    rw [← hactive]
    exact hnext.active.2

end World

namespace Engine

theorem withInstance_executing {α : Type} {absent : α} {m : WorldM σ α} (hb : (w.instanceOf o).executing = true) :
    (withInstance o absent m).run w = m.run w := by
  have hin : w.instances.contains o = true := by
    rw [Std.ExtTreeMap.contains_eq_isSome_getElem?]
    cases hi : w.instances[o]? with
    | some i => rfl
    | none =>
      rw [World.instanceOf, Std.ExtTreeMap.getD_eq_getD_getElem?, hi] at hb
      cases hb
  change (if w.instances.contains o = true then m else pure absent).run w = m.run w
  rw [if_pos hin]

theorem perform_run_executing (hb : (w.instanceOf o).executing = true) (next : Except RunError Status → Program σ) :
    (e.perform (.run o next)).run w =
      (e.perform (next (.error (.alreadyRunning (w.instanceOf o).tree.name)))).run w := by
  have hrefused : (e.runTree o).run w = .ok (.error (busy (w.instanceOf o)), w) := by
    change (if (w.instanceOf o).executing = true then pure (.error (busy (w.instanceOf o))) else _ :
      WorldM σ (Except RunError Status)).run w = _
    rw [if_pos hb]
    rfl
  rw [Engine.perform, StateT.run_bind, withInstance_executing hb, hrefused]
  rfl

/-- Who gives another tree to an instance that executes is refused, and nothing happens. -/
theorem perform_setTree_executing (hb : (w.instanceOf o).executing = true) (tree : Tree)
    (next : Except RunError Unit → Program σ) :
    (e.perform (.setTree o tree next)).run w =
      (e.perform (next (.error (.alreadyRunning (w.instanceOf o).tree.name)))).run w := by
  have hrefused : (setTree o tree).run w = .ok (.error (busy (w.instanceOf o)), w) := by
    change (if (w.instanceOf o).executing = true then pure (.error (busy (w.instanceOf o))) else _ :
      WorldM σ (Except RunError Unit)).run w = _
    rw [if_pos hb]
    rfl
  rw [Engine.perform, StateT.run_bind, withInstance_executing hb, hrefused]
  rfl

end Engine

/-- Ticks and jobs of an instance exclude each other. Its history has them one after the other; while one is under way,
and whenever the instance executes, runs of it and other trees for it are refused and change nothing; and between the
operations of the host it neither executes nor has an interruption or a job outstanding. -/
theorem World.Reached.exclusive (h : w.Reached) (o : Tag) :
    (∀ pre a post, w.acts o = pre ++ a :: post →
      (a.Between → Activity.underWay pre = false) ∧ (a.Inside → Activity.underWay pre = true)) ∧
    (∀ (e : Engine σ) (w₁ : World σ), w₁.Coherent →
      Activity.underWay (w₁.acts o) = true ∨ (w₁.instanceOf o).executing = true →
      (∀ next, (e.perform (.run o next)).run w₁ =
        (e.perform (next (.error (.alreadyRunning (w₁.instanceOf o).tree.name)))).run w₁) ∧
      ∀ tree next, (e.perform (.setTree o tree next)).run w₁ =
        (e.perform (next (.error (.alreadyRunning (w₁.instanceOf o).tree.name)))).run w₁) ∧
    (w.instanceOf o).executing = false ∧ (w.instanceOf o).interrupted = false ∧ (w.instanceOf o).pending = [] := by
  obtain ⟨hcoherent, hidle⟩ := h.continues
  obtain ⟨c, _, hat⟩ := hcoherent.stands o
  obtain ⟨hpending, hinterrupted⟩ := hat.quiet (hat.still (hidle o))
  refine ⟨fun pre a post ha => hcoherent.takeTurns ha, fun e w₁ hw₁ hbusy => ?_, hidle o, hinterrupted, hpending⟩
  have hb : (w₁.instanceOf o).executing = true := hbusy.elim hw₁.executing id
  exact ⟨Engine.perform_run_executing hb, Engine.perform_setTree_executing hb⟩

/-- A host that runs an instance once more whenever a run of it begins, and keeps in mind whether it was refused. -/
def insistent : Program Bool :=
  .create {} ∅ fun owner =>
    .subscribe ⟨Lifecycle.beforeRun.name, some owner.text⟩ owner
      (fun _ => .run owner fun result => .store (result matches .error (.alreadyRunning _)) .done)
      fun _ => .run owner fun _ => .done

theorem exclusive_insistent : ∃ w : World Bool, w.Reached ∧ w.host = true ∧ (w.instanceOf ⟨0⟩).executing = false :=
  ⟨_, ⟨∅, false, 3, insistent, rfl⟩, rfl, (World.Reached.exclusive ⟨∅, false, 3, insistent, rfl⟩ ⟨0⟩).2.2.1⟩

end BehaviorTree
