import BehaviorTree.Proofs.Life.Firing
import BehaviorTree.Proofs.World.Lookout

/-!
Jobs are not seen by the suspended tree. The child of a listening or delaying node runs on top of the frames of the
tree, in a region of its own: whether it ends, is still running or returns an error, the tree goes on with the same
frames and the same payloads as if no job had run. That is looked for around every job of whatever a host does, and
found, as long as callbacks give no instance another tree.
-/

namespace BehaviorTree
set_option autoImplicit false

variable {σ : Type} {R : Rules σ}

/-- What a job leaves to the suspended tree. -/
def Lookout.invisibility : Lookout where
  job := Job.Unseen

theorem Lookout.Finds.invisibility (hs : R.swap = false) : Lookout.invisibility.Finds R where
  fresh _ _ := trivial
  poised _ := trivial
  ran _ _ _ _ := trivial
  waiting _ _ _ := trivial
  did h := h.unseen hs

/-- Jobs are not seen by the suspended tree. Whatever a host does that follows the rules, and as deep as calls nest, the
lookout finds around every job what it looks for: the calls under it do what they do without. -/
theorem Program.Obeys.jobs_unseen {p : Program σ} {may : Bool} {host : σ} (hp : p.Obeys R may) (hs : R.swap = false)
    (hh : R.host host) (depth : Nat) :
    World.performUnder .invisibility depth p { registry := R.registry, host } =
        World.perform depth p { registry := R.registry, host } ∧
      World.perform depth p { registry := R.registry, host } ≠ .error .outOfRange :=
  hp.performUnder_eq hs (.invisibility hs) hh depth

namespace Vigil

/-- A long step, while a listening node has a child that fails with a step of its own still running. -/
def spec : TreeSpec where
  name := "vigil"
  root :=
    { id := ⟨0⟩, name := "Sequence"
      children :=
        [{ id := ⟨1⟩, name := "Listen", args := [("event", .string "go")]
           children :=
            [{ id := ⟨2⟩, name := "Parallel"
               children :=
                [{ id := ⟨3⟩, name := "Step", args := [("label", .string "aside"), ("ticks", .int 5)] },
                  { id := ⟨4⟩, name := "Case"
                    children :=
                      [{ id := ⟨5⟩, name := "Step", args := [("label", .string "guard")] },
                        { id := ⟨6⟩, name := "Step", args := [("label", .string "branch")] }] }] }] },
          { id := ⟨7⟩, name := "Step", args := [("label", .string "main"), ("ticks", .int 5)] }] }

/-- A host that loads the tree, runs it once and dispatches the event. -/
def program : Program Unit :=
  .load spec true fun
    | .ok tree => .create tree ∅ fun owner => .run owner fun _ => .dispatch ⟨"go", none⟩ [] fun _ => .done
    | .error _ => .done

theorem obeys : program.Obeys Workbench.rules false := by
  intro result hload
  cases result with
  | ok tree => exact ⟨hload tree rfl, fun _ _ _ => trivial⟩
  | error err => exact trivial

end Vigil

open Vigil in
/-- The job fails above the frames of the long step, which are there as before. -/
theorem jobs_unseen_vigil : ∃ w : World Unit,
    World.performUnder .invisibility 6 program { registry := Workbench.rules.registry, host := () } = .ok w ∧
      ((w.acts ⟨0⟩).filterMap Activity.begun?).map Job.child = [⟨2⟩] ∧
      (w.acts ⟨0⟩).any (fun a => a matches .returned _ none) = true ∧
      (w.instanceOf ⟨0⟩).env.stack.frames = [⟨7⟩, ⟨0⟩] := by
  have hruns : (World.perform 6 program { registry := Workbench.rules.registry, host := () }).toOption.any (fun w =>
      (((w.acts ⟨0⟩).filterMap Activity.begun?).map Job.child == [⟨2⟩] &&
        (w.acts ⟨0⟩).any fun a => a matches .returned _ none) &&
        (w.instanceOf ⟨0⟩).env.stack.frames == [⟨7⟩, ⟨0⟩]) = true := by
    decide +kernel
  obtain ⟨w, hw, hseen⟩ := exists_ok_of_any hruns
  obtain ⟨hjobs, hframes⟩ := Bool.and_eq_true_iff.mp hseen
  obtain ⟨hbegun, hfailed⟩ := Bool.and_eq_true_iff.mp hjobs
  have hunder : World.performUnder .invisibility 6 program { registry := Workbench.rules.registry, host := () } =
      World.perform 6 program { registry := Workbench.rules.registry, host := () } :=
    (obeys.jobs_unseen rfl trivial 6).1
  exact ⟨w, hunder.trans hw, beq_iff_eq.mp hbegun, hfailed, beq_iff_eq.mp hframes⟩

end BehaviorTree
