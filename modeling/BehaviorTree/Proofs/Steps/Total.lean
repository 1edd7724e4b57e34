import BehaviorTree.Engine.Knot

/-!
Computations that give a result. A computation of a tick gives one if it neither fails nor halts. The rules follow the
way in which computations are put together.
-/

namespace BehaviorTree
set_option autoImplicit false

variable {σ α β : Type}

def Outcome.Gives (o : Outcome σ α) (Q : α → Tick σ → Prop) : Prop :=
  match o with
  | .ok a t => Q a t
  | .failed _ _ | .halted _ => False

def World.Gives (w : World σ) (m : WorldM σ α) (Q : α → World σ → Prop) : Prop :=
  match m.run w with
  | .ok (a, w) => Q a w
  | .error _ => False

theorem Outcome.Gives.mono {o : Outcome σ α} {Q Q' : α → Tick σ → Prop} (h : o.Gives Q)
    (hq : ∀ a t, Q a t → Q' a t) : o.Gives Q' := by
  cases o with
  | ok a t => exact hq a t h
  | failed e t => exact h
  | halted _ => exact h

theorem Outcome.Gives.exists {o : Outcome σ α} {Q : α → Tick σ → Prop} (h : o.Gives Q) :
    ∃ a t, o = .ok a t ∧ Q a t := by
  cases o with
  | ok a t => exact ⟨a, t, rfl, h⟩
  | failed e t => exact h.elim
  | halted _ => exact h.elim

namespace World

variable {w : World σ} {Q Q' : α → World σ → Prop}

theorem Gives.mono {m : WorldM σ α} (h : w.Gives m Q) (hq : ∀ a w, Q a w → Q' a w) : w.Gives m Q' := by
  unfold World.Gives at *
  split at h
  · exact hq _ _ h
  · exact h

theorem Gives.exists {m : WorldM σ α} (h : w.Gives m Q) : ∃ a w', m.run w = .ok (a, w') ∧ Q a w' := by
  unfold World.Gives at h
  split at h
  · rename_i a w' hrun
    exact ⟨a, w', hrun, h⟩
  · exact h.elim

@[simp] theorem gives_pure (a : α) : w.Gives (pure a) Q ↔ Q a w := Iff.rfl

@[simp] theorem gives_bind (m : WorldM σ β) (f : β → WorldM σ α) :
    w.Gives (m >>= f) Q ↔ w.Gives m fun b w => w.Gives (f b) Q := by
  simp only [World.Gives, StateT.run_bind]
  cases m.run w <;> rfl

@[simp] theorem gives_get (Q : World σ → World σ → Prop) : w.Gives get Q ↔ Q w w := Iff.rfl

@[simp] theorem gives_modify (f : World σ → World σ) (Q : PUnit → World σ → Prop) :
    w.Gives (modify f) Q ↔ Q ⟨⟩ (f w) := Iff.rfl

end World

namespace TickM

variable {c : Activation} {t : Tick σ} {Q : α → Tick σ → Prop}

@[simp] theorem gives_pure (a : α) : ((pure a : TickM σ α) c t).Gives Q ↔ Q a t := Iff.rfl

@[simp] theorem gives_bind (m : TickM σ β) (f : β → TickM σ α) :
    ((m >>= f) c t).Gives Q ↔ (m c t).Gives fun b t => (f b c t).Gives Q := by
  rw [bind_apply]
  cases m c t <;> rfl

/-- What gives a result does so also as a computation whose failure is taken as a result. -/
theorem gives_attempt {m : TickM σ α} {Q : Except RunError α → Tick σ → Prop}
    (h : (m c t).Gives fun a t => Q (.ok a) t) : (attempt m c t).Gives Q := by
  obtain ⟨a, u, hu, hq⟩ := h.exists
  rw [attempt_apply, hu]
  exact hq

@[simp] theorem gives_ofExcept_ok (a : α) : ((ofExcept (.ok a) : TickM σ α) c t).Gives Q ↔ Q a t := Iff.rfl

@[simp] theorem gives_owner (Q : Tag → Tick σ → Prop) : (owner c t).Gives Q ↔ Q c.owner t := Iff.rfl

@[simp] theorem gives_tree (Q : Tree → Tick σ → Prop) : (tree c t).Gives Q ↔ Q c.tree t := Iff.rfl

@[simp] theorem gives_env (Q : Env → Tick σ → Prop) : (env c t).Gives Q ↔ Q t.env t := Iff.rfl

@[simp] theorem gives_modifyEnv (f : Env → Env) (Q : Unit → Tick σ → Prop) :
    (modifyEnv f c t).Gives Q ↔ Q () { t with env := f t.env } := Iff.rfl

@[simp] theorem gives_world (Q : World σ → Tick σ → Prop) : (world c t).Gives Q ↔ Q t.world t := Iff.rfl

@[simp] theorem gives_modifyWorld (f : World σ → World σ) (Q : Unit → Tick σ → Prop) :
    (modifyWorld f c t).Gives Q ↔ Q () { t with world := f t.world } := Iff.rfl

@[simp] theorem gives_observe (a : Activity) (Q : Unit → Tick σ → Prop) :
    (observe a c t).Gives Q ↔ Q () { t with world := t.world.observe c.owner a } := Iff.rfl

@[simp] theorem gives_report (r : String → Report) (Q : Unit → Tick σ → Prop) :
    (report r c t).Gives Q ↔ Q () { t with world := t.world.report (r c.tree.name) } := Iff.rfl

@[simp] theorem gives_time (Q : Float → Tick σ → Prop) : (time c t).Gives Q ↔ Q t.world.time t := Iff.rfl

@[simp] theorem gives_interrupted (Q : Bool → Tick σ → Prop) :
    (interrupted c t).Gives Q ↔ Q (t.world.instanceOf c.owner).interrupted t := Iff.rfl

@[simp] theorem gives_saved (site : Site) (Q : Option Payload → Tick σ → Prop) :
    (saved? site c t).Gives Q ↔ Q t.env.temps[site.id]? t := Iff.rfl

@[simp] theorem gives_suspend (site : Site) (p : Payload) (Q : Status → Tick σ → Prop) :
    (suspend site p c t).Gives Q ↔ Q .running { t with env := t.env.setPayload site.id p } := Iff.rfl

theorem gives_element {items : List α} {i : Nat} {a : α} (h : items[i]? = some a) :
    (element items i c t).Gives Q ↔ Q a t := by
  rw [element, h]
  rfl

theorem gives_node {id : NodeId} {n : Node} {Q : Node → Tick σ → Prop} (h : c.tree.get? id = some n) :
    (node id c t).Gives Q ↔ Q n t := by
  rw [node, gives_bind, gives_tree, h]
  rfl

theorem gives_child {site : Site} {i : Nat} {id : NodeId} {Q : NodeId → Tick σ → Prop}
    (h : site.children[i]? = some id) :
    (child site i c t).Gives Q ↔ Q id t := gives_element h

theorem gives_childStatus {site : Site} {Q : Status → Tick σ → Prop} (h : t.env.lastStatus ≠ .running) :
    (childStatus site c t).Gives Q ↔ Q t.env.lastStatus t := by
  rw [childStatus, gives_bind, gives_env]
  cases hs : t.env.lastStatus with
  | running => exact absurd hs h
  | success => rfl
  | failure => rfl

end TickM

end BehaviorTree
