import BehaviorTree.Proofs.Steps.Nodes

/-!
The leaves of a tree of steps. A leaf waits through its ticks, counting them in its payload, and then ends. With the
leaves, all nodes that are ever run play their readings.
-/

namespace BehaviorTree
set_option autoImplicit false

open TickM

variable {σ : Type} {S : Script} {o : Tag} {e : Engine σ} {t u v : Tick σ} {n : Node} {x : NodeId} {base : List NodeId}
  {s : Status} {p : Payload} {c : Activation} {resumed : Bool} {k : Nat}

def Script.memo (k : Nat) : Option Payload := if k = 0 then none else some (.value (.int k))

theorem Workbench.readNat_int (k : Nat) : readNat (some (.int k)) = k := by simp [readNat, Value.asNat?]

theorem Workbench.ending_stepLeaf {label : Value} {ticks : Nat} {result : Status} {m : Moment}
    (h : m.payload = Script.memo k) :
    (stepLeaf label ticks result m).ending =
      if k < ticks then .suspend (some (.int (k + 1 : Nat))) else .finish result := by
  cases k with
  | zero => simp [stepLeaf, h, Script.memo]
  | succ k =>
    have hread := readNat_int (k + 1)
    simp only [stepLeaf, h, Script.memo, Nat.succ_ne_zero, if_false, hread]
    rfl

theorem Engine.gives_stepLeaf {label : Value} {ticks : Nat} {result : Status} {Q : Status → Tick σ → Prop}
    (hmemo : t.env.temps[n.id]? = Script.memo k)
    (hwait : k < ticks → ∀ trace, Q .running
      { t with env := (t.env.set "trace" trace).setPayload n.id (.value (.int (k + 1 : Nat))) })
    (hend : ¬ k < ticks → ∀ trace, Q result { t with env := t.env.set "trace" trace }) :
    (leaf n.toSite (Workbench.stepLeaf label ticks result) c t).Gives Q := by
  rw [leaf, gives_bind, gives_env, gives_bind, gives_time]
  simp only
  rw [Workbench.ending_stepLeaf hmemo, gives_bind, gives_modifyEnv, gives_bind, gives_modifyEnv]
  by_cases hk : k < ticks
  · rw [if_pos hk]
    exact hwait hk _
  · rw [if_neg hk]
    exact hend hk _

namespace Tick

/-- A leaf that was called on top of `base` has taken another of its ticks and waits. -/
structure Took (S : Script) (o : Tag) (x : NodeId) (k : Nat) (base : List NodeId) (t u : Tick σ) : Prop where
  same : t.Same S u
  frames : u.env.stack.frames = x :: base
  temps : u.env.temps = t.env.temps.insert x (.value (.int (k + 1 : Nat)))
  seen : u.seen S o = t.seen S o ++ [(x, .running)]

structure Completed (S : Script) (o : Tag) (x : NodeId) (t u : Tick σ) : Prop where
  same : t.Same S u
  stack : u.env.stack = t.env.stack
  temps : u.env.temps = t.env.temps
  seen : u.seen S o = t.seen S o ++ [(x, S.result x)]

end Tick

namespace Script

structure IsLeaf (S : Script) (n : Node) : Prop where
  get : S.tree.get? n.id = some n
  behavior : ∃ label, n.behavior = .leaf (Workbench.stepLeaf label (S.ticks n.id) (S.result n.id))

/-- How a run of a leaf ends that has been called `k` times before, with its frame on top of `base`. -/
inductive Ticks (S : Script) (o : Tag) (x : NodeId) (k : Nat) (base : List NodeId) (t : Tick σ) :
    Status → Tick σ → Prop where
  | took {u : Tick σ} : k < S.ticks x → t.Took S o x k base u → Ticks S o x k base t .running u
  | completed {u : Tick σ} : ¬ k < S.ticks x → t.Completed S o x u → Ticks S o x k base t (S.result x) u

theorem IsLeaf.isLeaf (h : S.IsLeaf n) : S.tree.isLeaf n.id = true := by
  obtain ⟨label, hb⟩ := h.behavior
  rw [Tree.isLeaf, h.get]
  simp only [hb]

theorem IsLeaf.writes (h : S.IsLeaf n) : S.tree.Writes "trace" := by
  obtain ⟨label, hb⟩ := h.behavior
  exact ⟨n.id, n, h.get, by rw [Node.Writes, hb]⟩

theorem IsLeaf.ne_running (h : S.IsLeaf n) : S.result n.id ≠ .running := by
  obtain ⟨label, hb⟩ := h.behavior
  have hscripted := S.scripted.node h.get
  rw [Node.Scripted, hb] at hscripted
  exact hscripted.2

theorem IsLeaf.ticks_runFramed (h : S.IsLeaf n) (hframes : t.env.stack.frames = n.id :: base)
    (hmemo : t.env.temps[n.id]? = memo k) (hcalm : (t.world.instanceOf o).interrupted = false) :
    (e.runFramed n resumed ⟨o, S.tree⟩ t).Gives fun s u =>
      S.Ticks o n.id k base t.popped s u ∧ u.env.lastStatus = s := by
  obtain ⟨label, hb⟩ := h.behavior
  have hpopped : t.popped.env.temps = t.env.temps.erase n.id := by rw [Tick.popped, Env.popFrame_eq hframes]
  have hvisit : ∀ s, (S.tree.visit? (.returned n.id (some s))).toList = [(n.id, s)] := fun s => by
    simp [Tree.visit?, h.isLeaf]
  refine Engine.gives_runFramed ?_
  rw [hb]
  refine Engine.gives_stepLeaf hmemo (fun hk trace => ⟨?_, fun u hu => ⟨.took hk ?_, hu.lastStatus⟩⟩)
    fun hk trace => ⟨?_, fun u hu => ⟨.completed hk ?_, hu.lastStatus⟩⟩
  · refine ⟨rfl, hcalm, fun _ => ?_, fun hs => absurd rfl hs⟩
    rw [Env.isSuspended_setPayload]
    exact .inl rfl
  · have hwrote := (Tick.Wrote.set (o := o) h.writes (t.opened ⟨o, S.tree⟩ n resumed) trace).same
    refine ⟨hu.same (hwrote.env rfl rfl rfl), ?_, ?_, ?_⟩
    · rw [hu.stack_of_running rfl]
      exact hframes
    · rw [hu.temps_of_running rfl, hpopped]
      exact Temps.insert_erase.symm
    · rw [hu.seen, hvisit]
      exact congrArg (· ++ [(n.id, Status.running)]) Tick.seen_opened
  · exact ⟨rfl, hcalm, fun hs => absurd hs h.ne_running, fun _ => congrArg List.head? hframes⟩
  · have hwrote := Tick.Wrote.set (o := o) h.writes (t.opened ⟨o, S.tree⟩ n resumed) trace
    obtain ⟨hstack, htemps⟩ := hu.env_of_ended h.ne_running hframes rfl
    refine ⟨hu.same hwrote.same, hstack, ?_, ?_⟩
    · rw [htemps, hpopped]
      rfl
    · rw [hu.seen, hvisit]
      exact congrArg (· ++ [(n.id, S.result n.id)]) Tick.seen_opened

/-- A leaf that is called for the first time plays its reading. -/
theorem IsLeaf.plays_runNode (h : S.IsLeaf n) (ht : t.Ready S o (S.rank n.id + 1)) :
    (e.runNode n ⟨o, S.tree⟩ t).Gives fun s u =>
      S.Plays o n.id t t.env.stack.frames (S.reading n.id) s u ∧ u.env.lastStatus = s := by
  obtain ⟨label, hb⟩ := h.behavior
  have hnone : t.env.temps[n.id]? = none := ht.clear (Nat.lt_succ_self _)
  have hreading : S.reading n.id = ⟨S.result n.id, [n.id]⟩ := by
    rw [reading_eq h.get, hb]
    rfl
  have hframes : (t.pushed n.id).env.stack.frames = n.id :: t.env.stack.frames := rfl
  simp only [Engine.runNode, gives_bind, gives_env, Env.isSuspended_eq, hnone, Option.isSome_none, Bool.false_eq_true,
    if_false, gives_modifyEnv]
  refine (h.ticks_runFramed (k := 0) hframes hnone ht.calm).mono fun s u hticks => ⟨?_, hticks.2⟩
  have hu := hticks.1
  rw [Tick.popped_pushed hnone] at hu
  rw [hreading]
  cases hu with
  | took hk htook =>
    have hcut : [n.id] = [] ++ n.id :: [] := rfl
    have hswift : ∀ y ∈ ([] : List NodeId), S.ticks y = 0 := List.forall_mem_nil _
    refine .waits htook.same ?_ ?_ ?_ hcut hswift hk h.isLeaf (.single n.id) rfl
    · exact htook.frames
    · exact htook.temps
    · exact htook.seen
  | completed hk hdone =>
    have hzero : S.ticks n.id = 0 := by omega
    refine .ended (r := ⟨S.result n.id, [n.id]⟩) hdone.same hdone.stack hdone.temps ?_ (by simpa using hzero)
    rw [hdone.seen, play, List.flatMap_singleton, visits, hzero]
    rfl

/-- A leaf on top of the stack takes its next tick. -/
theorem IsLeaf.ticks_resumed (h : S.IsLeaf n) (hframes : t.env.stack.frames = n.id :: base)
    (hmemo : t.env.temps[n.id]? = memo (k + 1)) (hcalm : (t.world.instanceOf o).interrupted = false) :
    (e.runNode n ⟨o, S.tree⟩ t).Gives fun s u =>
      S.Ticks o n.id (k + 1) base t.popped s u ∧ u.env.lastStatus = s := by
  have hsome : t.env.temps[n.id]?.isSome = true := by
    rw [hmemo]
    rfl
  simp only [Engine.runNode, gives_bind, gives_env, Env.isSuspended_eq, hsome, if_true]
  exact h.ticks_runFramed hframes hmemo hcalm

/-- Nodes that are run are leaves or have their children run, as cases are only looked at. -/
theorem leaf_or_inner (hn : S.tree.get? n.id = some n) (hcase : n.behavior ≠ .case) : S.IsLeaf n ∨ S.Inner n := by
  have hscripted := S.scripted.node hn
  by_cases hleaf : ∃ react, n.behavior = .leaf react
  · obtain ⟨react, hb⟩ := hleaf
    rw [Node.Scripted, hb] at hscripted
    obtain ⟨label, rfl⟩ := hscripted.1
    exact .inl ⟨hn, label, hb⟩
  · exact .inr ⟨hn, hcase, fun react hb => hleaf ⟨react, hb⟩⟩

theorem not_case_of_starts {a : NodeId} (h : S.tree.Starts a n.id) (hn : S.tree.get? n.id = some n) :
    n.behavior ≠ .case := by
  intro hcase
  obtain ⟨p, m, hm, hswitch, hc⟩ := S.scripted.placed hn hcase
  obtain ⟨q, m', hm', hc', ⟨-, -, -, -, hne⟩ | ⟨n', hn', hs, hq⟩⟩ := h.parent
  · obtain rfl : p = q := S.orderly.parent hm hm' hc hc'
    obtain rfl : m = m' := Option.some.inj (hm.symm.trans hm')
    exact hne hswitch
  · obtain rfl : p = q := S.orderly.parent hm hm' hc hc'
    have := S.orderly.case_of_switch hn' hs hq hm
    rw [hswitch] at this
    cases this

theorem not_case_root (hn : S.tree.get? S.tree.root = some n) : n.behavior ≠ .case := by
  intro hcase
  obtain ⟨p, m, hm, -, hc⟩ := S.scripted.placed hn hcase
  exact S.orderly.root hm hc

end Script

/-- With enough depth, a node that is not a case plays its reading. -/
theorem Engine.performs_ofDepth {d : Nat} (hn : S.tree.get? n.id = some n) (hcase : n.behavior ≠ .case)
    (hd : S.rank n.id < d) : (ofDepth d : Engine σ).Performs S o n.id := by
  induction d generalizing n with
  | zero => omega
  | succ d ih =>
    intro t ht
    change ((do (ofDepth d).runNode (← TickM.node n.id) : TickM σ Status) ⟨o, S.tree⟩ t).Gives _
    rw [gives_bind, gives_node hn]
    rcases S.leaf_or_inner hn hcase with hleaf | hinner
    · exact hleaf.plays_runNode ht
    · refine Script.plays_runNode (fun x hx => ?_) hinner ht
      have hstarts := Tree.starts_of_mem hn hx
      obtain ⟨m, hm⟩ := S.orderly.exists_of_starts hstarts
      obtain rfl := S.orderly.id_eq hm
      have hlt := S.rank_lt hn hx
      exact ih hm (S.not_case_of_starts hstarts hm) (by omega)

end BehaviorTree
