import BehaviorTree.Proofs.Engine.Correspondence
import BehaviorTree.Proofs.Engine.Lookout
import BehaviorTree.Proofs.World.Ownership

/-!
A host that keeps its hands off what an instance subscribes to: under the tag of the instance it neither subscribes nor
unsubscribes, nor does it give the instance up. Whether it does is seen as a program is performed, since ids and tags are
given out on the way. A restrained host halts ahead of such an operation; where it does not halt for that reason, it does
what the host does.
-/

namespace BehaviorTree
set_option autoImplicit false

variable {σ α : Type}

namespace Engine

variable (e : Engine σ) (o : Tag)

def barring (barred : Bool) (m : WorldM σ α) : WorldM σ α := if barred then throw .outOfRange else m

def performSparing : Program σ → WorldM σ Unit
  | .done => return
  | .look next => do performSparing (next (← get).overview)
  | .store host next => do
    modify fun w => { w with host }
    performSparing next
  | .note v next => do
    modify (·.record (.note v))
    performSparing next
  | .load spec strict next => do
    let result ← apply (·.load spec strict)
    performSparing (next result)
  | .install code f next => do
    modify (·.install code f)
    performSparing next
  | .newTag next => do
    let tag ← apply World.newTag
    performSparing (next tag)
  | .create tree vars next => do
    let owner ← apply (·.create tree vars)
    performSparing (next owner)
  | .run owner next => do
    let result ← withInstance owner (.error noRoot) (e.runTree owner)
    performSparing (next result)
  | .interrupt owner next => do
    withInstance owner () (e.interruptTree owner)
    performSparing next
  | .clear owner next => do
    withInstance owner () (e.clearTree owner)
    performSparing next
  | .setTree owner tree next => do
    let result ← withInstance owner (.error noRoot) (setTree owner tree)
    performSparing (next result)
  | .setVar owner name value next => do
    withInstance owner () (modify (·.assign owner name value))
    performSparing next
  | .drop owner next => do
    barring (owner = o) (withInstance owner () (modify (·.drop owner)))
    performSparing next
  | .update dt next => do
    e.update dt
    performSparing next
  | .dispatch key args next => do
    let heard ← e.dispatch key args
    performSparing (next heard)
  | .subscribe key tag callback next => do
    let id ← barring (tag = o) (apply (·.subscribe key tag (.host callback)))
    performSparing (next id)
  | .unsubscribe id next => do
    let found ← barring ((← get).subscriptions.owner? id = some o) <| apply fun w =>
      let (found, subscriptions) := w.subscriptions.remove id
      (found, { w with subscriptions })
    performSparing (next found)
  | .unsubscribeEvent event tag next => do
    let count ← barring (tag = o) <| apply fun w =>
      let (count, subscriptions) := w.subscriptions.removeEvent event tag
      (count, { w with subscriptions })
    performSparing (next count)
  | .release tag next => do
    barring (tag = o) (modify (·.releaseTag tag))
    performSparing next
  | .delay time tag callback next => do
    let id ← apply (·.delay time tag (.host callback))
    performSparing (next id)
  | .cancel id next => do
    let found ← apply fun w =>
      let (found, delays) := w.delays.cancel id
      (found, { w with delays })
    performSparing (next found)

def sparing : Engine σ :=
  { e.deeper with
    hear := fun l event =>
      match l with
      | .node owner listener only => e.schedule owner (.fired listener only event)
      | .host react => e.performSparing o (react event)
    alarm := fun a =>
      match a with
      | .job owner job => e.schedule owner job
      | .host act => e.performSparing o act }

def ofDepthSparing : Nat → Engine σ
  | 0 => exhausted
  | n + 1 => (ofDepthSparing n).sparing o

end Engine

namespace World

/-- Performs a program of a host that is restrained, with calls nested up to a depth. -/
def performSparing (o : Tag) (depth : Nat) (p : Program σ) (w : World σ) : Except Halt (World σ) :=
  ((Engine.ofDepthSparing o depth).performSparing o p w).map (·.2)

/-- In the course of a program the host keeps its hands off what an instance subscribes to: restrained or not, it does the
same. -/
def Spares (o : Tag) (depth : Nat) (p : Program σ) (w : World σ) : Prop :=
  w.performSparing o depth p = w.perform depth p

end World

/-! ### A restrained host does nothing else -/

namespace Engine.Cuts

variable {e' e : Engine σ} {o : Tag}

theorem barring (barred : Bool) (m : WorldM σ α) : WorldM.Cuts (Engine.barring barred m) m := by
  cases barred with
  | true => exact fun _ => .inr rfl
  | false => exact .refl m

variable (h : e'.Cuts e)
include h

theorem performSparing (o : Tag) (p : Program σ) : WorldM.Cuts (e'.performSparing o p) (e.perform p) := by
  induction p with
  | done => exact .refl _
  | run owner next ih => exact .bind (.withInstance h.runTree) ih
  | interrupt owner next ih => exact .bind (.withInstance h.interruptTree) fun _ => ih
  | clear owner next ih => exact .bind (.withInstance h.clearTree) fun _ => ih
  | update dt next ih => exact .bind (h.update dt) fun _ => ih
  | dispatch key args next ih => exact .bind (h.dispatch key args) ih
  | drop owner next ih | release owner next ih => exact .bind (barring _ _) fun _ => ih
  | subscribe key tag callback next _ ih => exact .bind (barring _ _) ih
  | unsubscribe id next ih =>
    intro w
    exact (WorldM.Cuts.bind (barring (w.subscriptions.owner? id = some o) _) ih) w
  | unsubscribeEvent event tag next ih => exact .bind (barring _ _) ih
  | look next ih | load _ _ next ih | newTag next ih | create _ _ next ih | setTree _ _ next ih | cancel _ next ih
  | delay _ _ _ next _ ih =>
    exact .next _ fun _ => ih _
  | store _ next ih | note _ next ih | install _ _ next ih | setVar _ _ _ next ih => exact .next _ fun _ => ih

/-- One level of calls more, with a restrained host or not. -/
theorem sparing (o : Tag) : (e'.sparing o).Cuts e.deeper where
  run o id := .bind (.refl _) fun node => (h.alike o).runNode node
  resume o level := (h.alike o).resumeAbove level
  hear l event := by
    cases l with
    | node owner listener only => exact h.schedule _
    | host react => exact h.performSparing o _
  alarm a := by
    cases a with
    | job owner job => exact h.schedule job
    | host act => exact h.performSparing o act
  runPending _ := h.runNextWith fun job => h.runJob job

end Engine.Cuts

theorem Engine.cuts_ofDepthSparing (o : Tag) (n : Nat) : (ofDepthSparing o n : Engine σ).Cuts (ofDepth n) := by
  induction n with
  | zero => exact ⟨fun _ _ => .refl _, fun _ _ => .refl _, fun _ _ => .refl _, fun _ => .refl _, fun _ => .refl _⟩
  | succ n ih => exact ih.sparing o

theorem World.performSparing_eq (o : Tag) (depth : Nat) (p : Program σ) (w : World σ) :
    w.performSparing o depth p = w.perform depth p ∨ w.performSparing o depth p = .error .outOfRange := by
  rcases (Engine.cuts_ofDepthSparing o depth).performSparing o p w with heq | hcut
  · exact .inl (congrArg (Except.map Prod.snd) heq)
  · exact .inr (congrArg (Except.map Prod.snd) hcut)

theorem World.spares_of_ok {o : Tag} {depth : Nat} {p : Program σ} {w w' : World σ}
    (h : w.performSparing o depth p = .ok w') : w.Spares o depth p := by
  rcases performSparing_eq o depth p w with heq | hcut
  · exact heq
  · cases h.symm.trans hcut

end BehaviorTree
