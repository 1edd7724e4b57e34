import BehaviorTree.Proofs.Engine.Correspondence
import BehaviorTree.Proofs.Variants.Worlds

/-!
The other instances in the worlds of two variants. Their ticks and jobs start in the same states, and nothing that they
see of the world depends on the variant.
-/

namespace BehaviorTree
set_option autoImplicit false

open TickM

variable {σ α β : Type}

namespace Variants

variable (V : Variants)

/-- Two computations of ticks end alike, with the same result and the same state, unless one halts that may be the
first. -/
inductive Meets : Outcome σ α → Outcome σ α → Prop where
  | ok (a : α) (env : Env) {w w' : World σ} : V.Worlds V.Rests w w' → Meets (.ok a ⟨env, w⟩) (.ok a ⟨env, w'⟩)
  | failed (r : RunError) (env : Env) {w w' : World σ} :
    V.Worlds V.Rests w w' → Meets (.failed r ⟨env, w⟩) (.failed r ⟨env, w'⟩)
  | early (h : Halt) (o : Outcome σ α) : V.early → Meets (.halted h) o
  | late (o : Outcome σ α) (h : Halt) : V.late → Meets o (.halted h)
  | halted (h h' : Halt) : Meets (.halted h) (.halted h')

def Outside (p : Tag) : TickM.Relation σ := fun _ m m' =>
  ∀ ⦃tree : Tree⦄ ⦃env : Env⦄ ⦃w w' : World σ⦄, V.Worlds V.Rests w w' →
    V.Meets (m ⟨p, tree⟩ ⟨env, w⟩) (m' ⟨p, tree⟩ ⟨env, w'⟩)

variable {V} {p : Tag} {e e' : Engine σ}

/-- What nodes of another instance are put together from does not depend on the variant. -/
theorem respects_outside (hp : p ≠ V.owner) :
    TickM.Respects p (fun _ => True) (fun _ => True) (V.Outside p : TickM.Relation σ) where
  pure a := fun _ env _ _ hw => .ok a env hw
  bind {α β m m' f f'} hm hf := by
    intro tree env w w' hw
    have hends := @hm tree env _ _ hw
    rw [bind_apply, bind_apply]
    generalize m ⟨p, tree⟩ ⟨env, w⟩ = o, m' ⟨p, tree⟩ ⟨env, w'⟩ = o' at hends
    cases hends with
    | ok a env hu => exact hf a hu
    | failed r env hu => exact .failed r env hu
    | early h o he => exact .early h _ he
    | late o h hl => exact .late _ h hl
    | halted h h' => exact .halted h h'
  fail r := fun _ env _ _ hw => .failed r env hw
  halt h := fun _ _ _ _ _ => .halted h h
  attempt {α m m'} hm := by
    intro tree env w w' hw
    have hends := @hm tree env _ _ hw
    rw [attempt_apply, attempt_apply]
    generalize m ⟨p, tree⟩ ⟨env, w⟩ = o, m' ⟨p, tree⟩ ⟨env, w'⟩ = o' at hends
    cases hends with
    | ok a env hu => exact .ok _ env hu
    | failed r env hu => exact .ok _ env hu
    | early h o he => exact .early h _ he
    | late o h hl => exact .late _ h hl
    | halted h h' => exact .halted h h'
  bindOwner hf := fun _ _ _ _ hw => hf hw
  bindTree hf := fun tree _ _ _ hw => hf tree (fun _ _ _ => trivial) hw
  bindEnv hf := fun _ env _ _ hw => hf env env (.refl _ env) hw
  time := by
    intro tree env w w' hw
    change V.Meets (.ok w.time _) (.ok w'.time _)
    rw [hw.time]
    exact .ok _ env hw
  interrupted := by
    intro tree env w w' hw
    change V.Meets (.ok (w.instanceOf p).interrupted _) (.ok (w'.instanceOf p).interrupted _)
    rw [hw.interrupted p]
    exact .ok _ env hw
  edit {f f'} hf := by
    intro tree env w w' hw
    have hsame : f' env = f env := (hf.like (.refl _ env)).eq
    change V.Meets (.ok _ ⟨f env, w⟩) (.ok _ ⟨f' env, w'⟩)
    rw [hsame]
    exact .ok _ _ hw
  remember _ _ _ _ := fun _ _ _ _ hw => .ok _ _ hw
  record _ := fun _ env _ _ hw => .ok _ env (hw.record _)
  interrupt := fun _ env _ _ hw => .ok _ env ((hw.observe _ _).flag p (f := fun i => { i with interrupted := true })
    (fun _ _ _ => rfl) fun _ _ hjobs => hjobs)
  delay span _ _ := fun _ env _ _ hw => .ok _ env (hw.delay span _ fun ho => absurd ho hp)

theorem startListening_outside (hp : p ≠ V.owner) (site : Site) (event : String) (target : Option String) :
    TickM.Relation.Self (V.Outside p : TickM.Relation σ) (Engine.startListening site event target) := by
  have h := respects_outside (σ := σ) hp
  refine h.bindOwner (h.bind (h.child _ _) fun only => h.bind ?_ fun _ => ?_)
  · exact fun _ env _ _ hw => .ok _ env (hw.subscribe _ _ fun ho => absurd ho hp)
  · refine h.bind ?_ fun _ => h.bind (h.report _) fun _ => h.pure _
    exact fun _ env _ _ hw => .ok _ _ hw

theorem correspondence_outside (hp : p ≠ V.owner) :
    TickM.Correspondence p (fun _ => True) (fun _ => True) (V.Outside p : TickM.Relation σ) := by
  have h := respects_outside (σ := σ) hp
  have hreturned : ∀ (id : NodeId) (status : Option Status),
      TickM.Relation.Self (V.Outside p : TickM.Relation σ) (observe (.returned id status)) :=
    fun _ _ _ env _ _ hw => .ok _ env (hw.observe _ _)
  exact
    { h with
      returned := fun status _ _ => hreturned _ status
      listens := fun _ hn hb => h.listens hn hb (hreturned _) fun _ _ => startListening_outside hp _ _ _ }

end Variants

end BehaviorTree
