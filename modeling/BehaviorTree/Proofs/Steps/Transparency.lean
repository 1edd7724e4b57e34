import BehaviorTree.Proofs.Steps.Runs

/-!
Suspension is transparent: however long the leaves of a tree of steps take, a fresh instance that is run until it has
ended comes to what the tree reads, and each tick of a leaf costs one run.
-/

namespace BehaviorTree
set_option autoImplicit false

variable {σ : Type} {r : Registry} {t : Tree} {ticks : NodeId → Nat} {result : NodeId → Status} {vars : Variables}

/-- Trees of steps that are loaded with the built-in types are orderly. -/
theorem Tree.Scripted.orderly (h : t.Scripted ticks result vars) (hr : r.Standard) (hl : r.Loads t) : t.Orderly := by
  refine hl.orderly_of_standard hr fun {id n steps} hn hb => ?_
  have hnode := h.node hn
  rw [Node.Scripted, hb] at hnode
  exact hnode

theorem World.has_create (S : Script) {w : World σ} (hw : w.Unheard ⟨w.nextTag⟩) :
    (w.create S.tree S.vars).2.Has S ⟨w.nextTag⟩ { tree := S.tree, env := { vars := S.vars } }
      (w.visits S.tree ⟨w.nextTag⟩) :=
  ⟨Std.ExtTreeMap.getD_insert_self, hw, rfl⟩

/-- A fresh instance of a tree of steps that nobody listens for ends its tree as this is read, and its leaves are
completed in the order in which they are read; each waits through its ticks first. One run is needed for each tick,
and one more. How long the leaves take has no influence on the reading. -/
theorem World.runsOut_create (w : World σ) (hr : r.Standard) (hl : r.Loads t) (ht : t.Scripted ticks result vars)
    (hw : w.Unheard ⟨w.nextTag⟩) :
    let reading := t.reading (ht.orderly hr hl) result vars t.root
    let owner := (w.create t vars).1
    (∀ (u : Tree) (ticks' : NodeId → Nat) (hu : r.Loads u) (hs : u.Scripted ticks' result vars), t.Alike u →
      u.reading (hs.orderly hr hu) result vars u.root = reading) ∧
    ∃ depth, ∀ n ≥ depth, ∃ w',
      (Engine.ofDepth n).RunsOut owner (w.create t vars).2 (1 + (reading.completed.map ticks).sum) reading.status w' ∧
      w'.visits t owner = w.visits t owner ++
        reading.completed.flatMap fun id => List.replicate (ticks id) (id, .running) ++ [(id, result id)] := by
  intro reading owner
  refine ⟨fun u ticks' hu hs halike => ?_, ?_⟩
  · rw [← halike.root]
    exact (halike.reading t.root).symm
  · let S : Script := ⟨t, ht.orderly hr hl, ticks, result, vars, ht⟩
    exact ⟨2 * S.rank S.tree.root + 4, fun n hn => Script.runsTo_of_fresh hn (has_create S hw)⟩

section Errand

open Workbench

/-- The types of the workbench stand beside the built-in types. -/
theorem Workbench.standard : (withNodeTypes Registry.builtIn).Standard := by
  have hleaf : ∀ (kind : NodeKind) (react : NodeSpec → Leaf), (leafType kind react).OfHost := fun kind react _ spec b hb =>
    .inl ⟨react spec, (Except.ok.inj hb).symm⟩
  have hroutine : ∀ (kind : NodeKind) (steps : Site → Routine), (routineType kind steps).OfHost := fun kind steps _ _ b hb =>
    .inr ⟨steps, (Except.ok.inj hb).symm⟩
  refine Registry.standard_builtIn.foldl_register ?_
  simp only [nodeTypes, List.forall_mem_cons]
  exact ⟨⟨rfl, hleaf _ _⟩, ⟨rfl, hleaf _ _⟩, ⟨rfl, hleaf _ _⟩, ⟨rfl, hleaf _ _⟩, ⟨rfl, hleaf _ _⟩, ⟨rfl, hroutine _ _⟩,
    ⟨rfl, hroutine _ _⟩, ⟨rfl, hroutine _ _⟩, ⟨rfl, hroutine _ _⟩, ⟨rfl, hroutine _ _⟩, ⟨rfl, hroutine _ _⟩,
    List.forall_mem_nil _⟩

namespace Errand

def root : Node where
  id := ⟨0⟩
  name := "Sequence"
  args := []
  input := []
  output := []
  children := [⟨1⟩, ⟨3⟩]
  kind := BuiltIn.sequence.kind
  debug := false
  behavior := .sequence

def twice : Node where
  id := ⟨1⟩
  name := "Loop"
  args := [("count", .int 2)]
  input := []
  output := []
  children := [⟨2⟩]
  kind := BuiltIn.loop.kind
  debug := false
  behavior := .loop 2

def knock : Node where
  id := ⟨2⟩
  name := "Step"
  args := [("label", .string "knock"), ("ticks", .int 1)]
  input := []
  output := []
  children := []
  kind := step.kind
  debug := false
  behavior := .leaf (stepLeaf (.string "knock") 1 .success)

def enter : Node where
  id := ⟨3⟩
  name := "Step"
  args := [("label", .string "enter"), ("ticks", .int 2)]
  input := []
  output := []
  children := []
  kind := step.kind
  debug := false
  behavior := .leaf (stepLeaf (.string "enter") 2 .success)

/-- A tree that knocks twice and then enters. -/
def tree : Tree where
  name := "errand"
  nodes := [knock, twice, enter, root].foldl (fun filed n => filed.insert n.id n) ∅

def spec : TreeSpec where
  name := "errand"
  root :=
    { id := ⟨0⟩, name := "Sequence"
      children :=
        [{ id := ⟨1⟩, name := "Loop", args := [("count", .int 2)]
           children := [{ id := ⟨2⟩, name := "Step", args := [("label", .string "knock"), ("ticks", .int 1)] }] },
          { id := ⟨3⟩, name := "Step", args := [("label", .string "enter"), ("ticks", .int 2)] }] }

def patience (id : NodeId) : Nat := if id = ⟨2⟩ then 1 else 2

theorem loads : (withNodeTypes Registry.builtIn).Loads tree := ⟨Expression.compile, true, spec, _, rfl⟩

theorem cases {id : NodeId} {n : Node} (h : tree.get? id = some n) : n ∈ [root, twice, knock, enter] := by
  simp only [Tree.get?, tree, List.foldl_cons, List.foldl_nil, Std.ExtTreeMap.getElem?_insert] at h
  repeat' split at h
  all_goals simp_all

theorem scripted : tree.Scripted patience (fun _ => .success) ∅ := by
  refine ⟨fun hn => ?_, fun hn hb => ?_, fun hn hb => ?_⟩
  · have hmem := cases hn
    simp only [List.mem_cons, List.not_mem_nil, or_false] at hmem
    rcases hmem with rfl | rfl | rfl | rfl
    · trivial
    · trivial
    · exact ⟨⟨_, rfl⟩, by simp⟩
    · exact ⟨⟨_, rfl⟩, by simp⟩
  · have hmem := cases hn
    simp only [List.mem_cons, List.not_mem_nil, or_false] at hmem
    rcases hmem with rfl | rfl | rfl | rfl <;> cases hb
  · have hmem := cases hn
    simp only [List.mem_cons, List.not_mem_nil, or_false] at hmem
    rcases hmem with rfl | rfl | rfl | rfl <;> cases hb

theorem reading_root (ht : tree.Orderly) :
    tree.reading ht (fun _ => .success) ∅ tree.root = ⟨.success, [⟨2⟩, ⟨2⟩, ⟨3⟩]⟩ := by
  have hknock : tree.reading ht (fun _ => .success) ∅ ⟨2⟩ = ⟨.success, [⟨2⟩]⟩ := Tree.reading_eq (n := knock) rfl
  have henter : tree.reading ht (fun _ => .success) ∅ ⟨3⟩ = ⟨.success, [⟨3⟩]⟩ := Tree.reading_eq (n := enter) rfl
  have htwice : tree.reading ht (fun _ => .success) ∅ ⟨1⟩ = ⟨.success, [⟨2⟩, ⟨2⟩]⟩ := by
    rw [Tree.reading_eq (n := twice) rfl, Tree.started]
    simp only [twice, List.map_cons, List.map_nil, hknock]
    rfl
  rw [Tree.reading_eq (n := root) rfl, Tree.started]
  simp only [root, List.map_cons, List.map_nil, htwice, henter]
  rfl

end Errand

/-- The errand takes five runs. -/
theorem runsOut_create_errand : ∃ depth, ∀ n ≥ depth, ∃ w' : World Unit,
    (Engine.ofDepth n).RunsOut ⟨0⟩ (World.create { registry := withNodeTypes Registry.builtIn, host := () } Errand.tree ∅).2
      5 .success w' ∧
    w'.visits Errand.tree ⟨0⟩ =
      [(⟨2⟩, .running), (⟨2⟩, .success), (⟨2⟩, .running), (⟨2⟩, .success),
        (⟨3⟩, .running), (⟨3⟩, .running), (⟨3⟩, .success)] := by
  have h := (World.runsOut_create { registry := withNodeTypes Registry.builtIn, host := () } Workbench.standard Errand.loads
    Errand.scripted fun event => rfl).2
  rw [Errand.reading_root] at h
  exact h

end Errand

end BehaviorTree
