import BehaviorTree.Proofs.World.Lookout

/-!
A tree that is alone in a world of its own, and whose root is run by itself.
-/

namespace BehaviorTree
set_option autoImplicit false

namespace Rehearsal

/-- A host that loads a tree and makes an instance of it. -/
def program (spec : TreeSpec) : Program Unit :=
  .load spec true fun
    | .ok tree => .create tree ∅ fun _ => .done
    | .error _ => .done

theorem obeys (spec : TreeSpec) : (program spec).Obeys Workbench.rules false := by
  intro result hload
  cases result with
  | ok tree => exact ⟨hload tree rfl, fun _ => trivial⟩
  | error err => exact trivial

/-- The instance while its first tick is under way. -/
def start (w : World Unit) : Tick Unit := ⟨(w.instanceOf ⟨0⟩).env, w.lock ⟨0⟩⟩

/-- Whose tick that is. -/
def activation (w : World Unit) : Activation := ⟨⟨0⟩, (w.instanceOf ⟨0⟩).tree⟩

def ready (test : Node → Bool) (w : World Unit) : Bool :=
  w.instances[(⟨0⟩ : Tag)]?.any fun i => !i.executing && i.env.stack.isEmpty && i.tree.root == ⟨0⟩ &&
    (i.tree.get? ⟨0⟩).any fun n => n.id == ⟨0⟩ && test n

theorem exists_ready {test : Node → Bool} {w : World Unit} (h : ready test w = true) (hw : w.Good Workbench.rules) :
    ∃ n, n.id = ⟨0⟩ ∧ (activation w).tree.get? n.id = some n ∧ test n = true ∧
      (start w).Fresh Workbench.rules (activation w) n.id ∧ (start w).env.stack.frames = [] := by
  obtain ⟨i, hi, h⟩ := (Option.any_eq_true _ _).mp h
  simp only [Bool.and_eq_true, Bool.not_eq_true', Option.any_eq_true, beq_iff_eq] at h
  obtain ⟨⟨⟨hexec, hempty⟩, hroot⟩, n, hn, hid, htest⟩ := h
  have hhere : w.instanceOf ⟨0⟩ = i := World.instanceOf_eq hi
  have htree : (activation w).tree = i.tree := congrArg Instance.tree hhere
  have hbusy := World.lock_busy hw hi
  have hruns : (start w).Runs Workbench.rules (activation w) :=
    ⟨hbusy.good, _, hbusy.here, hbusy.executing, htree.symm⟩
  have henv : (start w).env = i.env := congrArg Instance.env hhere
  have hspilled : ((start w).watch (activation w)).spilled = w.spilled ⟨0⟩ i.tree := by
    rw [Tick.watch, htree]
    rfl
  have hrests := ((hw.holds hi).idle hexec).2.2
  rw [← hspilled, ← htree, ← henv] at hrests
  have hfresh := hruns.fresh_root hrests rfl (henv ▸ List.isEmpty_iff.mp hempty)
  rw [htree, hroot] at hfresh
  exact ⟨n, hid, by rw [htree, hid, hn], htest, hid ▸ hfresh, henv ▸ List.isEmpty_iff.mp hempty⟩

/-- A rehearsed tree is about to be run for the first time. -/
theorem exists_start {spec : TreeSpec} {test : Node → Bool} {goesOn : World Unit → Bool}
    (h : ∃ w, World.perform 6 (program spec) { registry := Workbench.rules.registry, host := () } = .ok w ∧
      (ready test w && goesOn w) = true) :
    ∃ w n, n.id = ⟨0⟩ ∧ (activation w).tree.get? n.id = some n ∧ test n = true ∧
      (start w).Fresh Workbench.rules (activation w) n.id ∧ (start w).env.stack.frames = [] ∧ goesOn w = true := by
  obtain ⟨w, hw, htest⟩ := h
  obtain ⟨hready, hgoes⟩ := Bool.and_eq_true_iff.mp htest
  obtain ⟨n, hid, hn, hnode, hfresh, hempty⟩ := exists_ready hready ((obeys spec).good trivial hw)
  exact ⟨w, n, hid, hn, hnode, hfresh, hempty, hgoes⟩

/-- What is done comes to a status without a request to interrupt it, in a way that passes a test. -/
def ends (w : World Unit) (o : Outcome Unit Status) (status : Status) (test : Tick Unit → Bool) : Bool :=
  match o with
  | .ok status' u => status' = status && !(u.world.instanceOf (activation w).owner).interrupted && test u
  | _ => false

def plays (w : World Unit) (t : Tick Unit) : Status → (Tick Unit → Bool) → Bool :=
  ends w ((Engine.ofDepth 6).run ⟨0⟩ (activation w) t)

def resumes (w : World Unit) (t : Tick Unit) : Status → (Tick Unit → Bool) → Bool :=
  ends w ((Engine.ofDepth 6).resume 0 (activation w) t)

theorem exists_ends {w : World Unit} {o : Outcome Unit Status} {status : Status} {test : Tick Unit → Bool}
    (h : ends w o status test = true) : ∃ u, o = .ok status u ∧ ¬ u.Flagged (activation w) ∧ test u = true := by
  unfold ends at h
  split at h
  · rename_i status' u
    simp only [Bool.and_eq_true, Bool.not_eq_true', decide_eq_true_eq] at h
    obtain ⟨⟨rfl, hf⟩, htest⟩ := h
    exact ⟨u, rfl, Bool.eq_false_iff.mp hf, htest⟩
  · cases h

end Rehearsal

end BehaviorTree
