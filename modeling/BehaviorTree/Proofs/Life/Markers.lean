import BehaviorTree.Proofs.Engine.Outcome
import BehaviorTree.Proofs.Life.Conduct

/-!
Nodes that run their child once. Whether such a node has run is told by a private variable of its own, which outlives
whatever it leaves suspended. While a tick or job has the state of an instance, nothing unsets that variable, and the
node hands over to another one only where it sets it.
-/

namespace BehaviorTree
set_option autoImplicit false

variable {σ : Type} {k : NodeId} {acts acts' : List Activity} {env env' : Env}

/-! ### What is seen of such a node -/

namespace Activity

/-- A node is seen to hand over to others at most once: resumed, it is the next to return; and so it is when it starts
afresh and has done so before, and then it fails. -/
def Frugal (k : NodeId) (acts : List Activity) : Prop :=
  ∀ pre resumed post, acts = pre ++ .called k resumed :: post → resumed = true ∨ .called k false ∈ pre →
    ∃ status rest, post = .returned k status :: rest ∧ (resumed = false → status = some .failure)

theorem concat_cases {a b : Activity} {pre post : List Activity} (h : acts ++ [b] = pre ++ a :: post) :
    pre = acts ∧ a = b ∧ post = [] ∨ ∃ rest, post = rest ++ [b] ∧ acts = pre ++ a :: rest := by
  obtain rfl | ⟨rest, c, rfl⟩ := List.eq_nil_or_concat post
  · obtain ⟨hpre, hlast⟩ := List.append_inj' h rfl
    exact .inl ⟨hpre.symm, (List.singleton_inj.mp hlast).symm, rfl⟩
  · rw [List.concat_eq_append, ← List.cons_append, ← List.append_assoc] at h
    obtain ⟨hacts, hlast⟩ := List.append_inj' h rfl
    exact .inr ⟨rest, by rw [List.concat_eq_append, List.singleton_inj.mp hlast], hacts⟩

namespace Frugal

theorem nil : Frugal k [] := fun _ _ _ h => by simp at h

theorem concat (h : Frugal k acts) {a : Activity} (ha : ∀ resumed, a ≠ .called k resumed) : Frugal k (acts ++ [a]) := by
  intro pre resumed post hsplit hlater
  rcases concat_cases hsplit with ⟨-, rfl, -⟩ | ⟨rest, rfl, rfl⟩
  · exact absurd rfl (ha resumed)
  · obtain ⟨status, rest, rfl, hstatus⟩ := h pre resumed rest rfl hlater
    exact ⟨status, rest ++ [a], rfl, hstatus⟩

theorem start (h : Frugal k acts) (hn : .called k false ∉ acts) : Frugal k (acts ++ [.called k false]) := by
  intro pre resumed post hsplit hlater
  rcases concat_cases hsplit with ⟨rfl, hcalled, -⟩ | ⟨rest, rfl, rfl⟩
  · obtain ⟨-, rfl⟩ := Activity.called.inj hcalled
    exact absurd (hlater.resolve_left Bool.false_ne_true) hn
  · obtain ⟨status, rest, rfl, hstatus⟩ := h pre resumed rest rfl hlater
    exact ⟨status, rest ++ [.called k false], rfl, hstatus⟩

/-- The node starts or is resumed, and returns at once. -/
theorem bounce (h : Frugal k acts) {resumed : Bool} {status : Option Status}
    (hs : resumed = false → status = some .failure) :
    Frugal k (acts ++ [.called k resumed, .returned k status]) := by
  have hsplit : acts ++ [.called k resumed, .returned k status] =
      acts ++ [.called k resumed] ++ [.returned k status] := by rw [List.append_assoc]; rfl
  rw [hsplit]
  intro pre resumed' post hall hlater
  rcases concat_cases hall with ⟨-, hreturned, -⟩ | ⟨rest, rfl, hfirst⟩
  · cases hreturned
  · rcases concat_cases hfirst with ⟨-, hcalled, rfl⟩ | ⟨rest, rfl, rfl⟩
    · obtain ⟨-, rfl⟩ := Activity.called.inj hcalled
      exact ⟨status, [], rfl, hs⟩
    · obtain ⟨status', rest, rfl, hstatus⟩ := h pre resumed' rest rfl hlater
      exact ⟨status', rest ++ [.called k resumed] ++ [.returned k status], rfl, hstatus⟩

end Frugal

end Activity

def Tree.IsOnce (t : Tree) (k : NodeId) : Prop := ∀ i n, t.get? i = some n → n.id = k → n.behavior = .once

/-- A state remembers that a node has started that runs its child once. -/
def Env.Spent (env : Env) (k : NodeId) : Prop := (env.getPrivate? k Engine.onceName).isSome = true

/-- A node that runs its child once was seen to do so, and the state remembers if it has started. -/
structure Env.Vouches (env : Env) (k : NodeId) (acts : List Activity) : Prop where
  frugal : Activity.Frugal k acts
  spent : .called k false ∈ acts → env.Spent k

namespace Env

/-- A node sets a private variable of its own, and if it is this one it does not unset any. -/
theorem Spent.setPrivate (h : env.Spent k) {j : NodeId} (name : String) {value : Option Value}
    (hk : j = k → value.isSome = true) : (env.setPrivate j name value).Spent k := by
  unfold Spent getPrivate? at *
  cases value with
  | some v =>
    change ((env.privates.insert ⟨j, name⟩ v)[(⟨k, Engine.onceName⟩ : PrivateKey)]?).isSome = true
    rw [Std.ExtTreeMap.getElem?_insert]
    split
    · rfl
    · exact h
  | none =>
    change ((env.privates.erase ⟨j, name⟩)[(⟨k, Engine.onceName⟩ : PrivateKey)]?).isSome = true
    rw [Std.ExtTreeMap.getElem?_erase, if_neg]
    · exact h
    · rw [Std.LawfulEqCmp.compare_eq_iff_eq]
      intro heq
      cases hk (PrivateKey.mk.inj heq).1

/-- Nothing is left to remember once a node has set its variable. -/
theorem spent_setPrivate (env : Env) (k : NodeId) : (env.setPrivate k Engine.onceName (some (.bool true))).Spent k := by
  change ((env.privates.insert ⟨k, Engine.onceName⟩ _)[(⟨k, Engine.onceName⟩ : PrivateKey)]?).isSome = true
  rw [Std.ExtTreeMap.getElem?_insert_self]
  rfl

namespace Vouches

theorem nil (env : Env) (k : NodeId) : env.Vouches k [] := ⟨.nil, fun h => absurd h List.not_mem_nil⟩

theorem edit (h : env.Vouches k acts) (he : env'.privates = env.privates) : env'.Vouches k acts :=
  ⟨h.frugal, fun hs => by
    have hspent := h.spent hs
    unfold Spent getPrivate? at *
    rwa [he]⟩

theorem setPrivate (h : env.Vouches k acts) {j : NodeId} (name : String) {value : Option Value}
    (hk : j = k → value.isSome = true) : (env.setPrivate j name value).Vouches k acts :=
  ⟨h.frugal, fun hs => (h.spent hs).setPrivate name hk⟩

theorem concat (h : env.Vouches k acts) {a : Activity} (ha : ∀ resumed, a ≠ .called k resumed) :
    env.Vouches k (acts ++ [a]) := by
  refine ⟨h.frugal.concat ha, fun hs => ?_⟩
  rcases List.mem_append.mp hs with hs | hs
  · exact h.spent hs
  · exact absurd (List.mem_singleton.mp hs).symm (ha false)

theorem append (h : env.Vouches k acts) (ha : ∀ a ∈ acts', ∀ resumed, a ≠ .called k resumed) :
    env.Vouches k (acts ++ acts') := by
  induction acts' generalizing acts with
  | nil => rwa [List.append_nil]
  | cons a rest ih =>
    have hrest := ih (h.concat (ha a List.mem_cons_self)) fun b hb => ha b (List.mem_cons_of_mem a hb)
    rwa [List.append_assoc] at hrest

theorem bounce (h : env.Vouches k acts) {resumed : Bool} {status : Option Status}
    (hs : resumed = false → env.Spent k ∧ status = some .failure) :
    env.Vouches k (acts ++ [.called k resumed, .returned k status]) := by
  refine ⟨h.frugal.bounce fun hr => (hs hr).2, fun hmem => ?_⟩
  rcases List.mem_append.mp hmem with hmem | hmem
  · exact h.spent hmem
  · simp only [List.mem_cons, List.not_mem_nil, or_false, reduceCtorEq] at hmem
    exact (hs (Activity.called.inj hmem).2.symm).1

/-- A node starts that is not remembered to have started, and is from now on. -/
theorem start (h : env.Vouches k acts) (hn : ¬ env.Spent k) (he : env'.Spent k) :
    env'.Vouches k (acts ++ [.called k false]) :=
  ⟨h.frugal.start fun hs => hn (h.spent hs), fun _ => he⟩

end Vouches

end Env

/-! ### What such a node does -/

/-- Whatever state is left, it is as results and failures are described. -/
theorem Outcome.Leaves.meets {α : Type} {r : Outcome σ α} {P : Tick σ → Prop} {Q : α → Tick σ → Prop}
    {E : RunError → Tick σ → Prop} (h : r.Leaves P) (hq : ∀ a t, P t → Q a t) (he : ∀ err t, P t → E err t) :
    r.Meets Q E fun _ => True := by
  cases r with
  | ok a t => exact hq a t h
  | failed err t => exact he err t h
  | halted => exact trivial

namespace Engine

variable {e : Engine σ} {n : Node} {s : Site} {c : Activation} {t : Tick σ}

/-- A node that is resumed looks at how its child has ended. -/
theorem once_suspended (h : t.env.isSuspended s.id = true) :
    (e.once s c t).Meets (fun _ u => u.world = t.world ∧ u.env.privates = t.env.privates)
      (fun _ u => u.world = t.world ∧ u.env.privates = t.env.privates) fun _ => True := by
  obtain ⟨payload, hp⟩ := Option.isSome_iff_exists.mp (t.env.isSuspended_eq s.id ▸ h)
  simp only [Engine.once, TickM.meets_bind, TickM.meets_env, h, if_true, Engine.wrap, Engine.onlyChild,
    TickM.meets_saved?, hp]
  cases payload with
  | marker =>
    cases hs : t.env.lastStatus <;> simp [TickM.childStatus, hs, Engine.wrapped]
  | _ => simp

theorem once_spent (hs : t.env.isSuspended s.id = false) (hp : t.env.Spent s.id) :
    e.once s c t = .ok .failure t := by
  unfold Env.Spent at hp
  unfold Engine.once
  rw [TickM.bind_apply, TickM.env]
  dsimp only
  rw [hs, if_neg Bool.false_ne_true, if_pos hp]
  rfl

theorem once_fresh (hs : t.env.isSuspended s.id = false) (hp : ¬ t.env.Spent s.id) :
    e.once s c t =
      e.wrap s id c { t with env := t.env.setPrivate s.id onceName (some (.bool true)) } := by
  unfold Env.Spent at hp
  unfold Engine.once
  rw [TickM.bind_apply, TickM.env]
  dsimp only
  rw [hs, if_neg Bool.false_ne_true, if_neg hp]
  rfl

/-- A node does what it is there for and its end is seen, before anything is made of its result. -/
theorem leaves_runFramed {P : Tick σ → Prop} {resumed : Bool}
    (htake : ∀ r, TickM.Sustains c.owner c.tree P _ (takeUp n resumed r) (takeUp n resumed r))
    (h : (e.behave n.toSite n.behavior c (t.opened c n resumed)).Meets
      (fun status u => P ⟨{ u.env with input := t.env.input, output := t.env.output },
        u.world.observe c.owner (.returned n.id (some status))⟩)
      (fun _ u => P ⟨{ u.env with input := t.env.input, output := t.env.output },
        u.world.observe c.owner (.returned n.id none)⟩) fun _ => True) : (e.runFramed n resumed c t).Leaves P := by
  rw [runFramed_eq, TickM.bind_apply, TickM.attempt_apply]
  cases hr : e.behave n.toSite n.behavior c (t.opened c n resumed) with
  | ok status u =>
    rw [hr] at h
    exact htake (.ok status, u.env.output) h
  | failed err u =>
    rw [hr] at h
    exact htake (.error err, u.env.output) h
  | halted => exact trivial

end Engine

end BehaviorTree
