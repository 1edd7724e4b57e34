import BehaviorTree.Proofs.Engine.Congruence
import BehaviorTree.Proofs.Life.Ticks

/-!
Every run of a node passes, and so does every job, whatever the tree: what nodes are put together from passes, one
thing after the other.
-/

namespace BehaviorTree
set_option autoImplicit false

variable {σ α : Type} {o : Tag}

theorem TickM.passes_congruence (o : Tag) : TickM.Congruence (σ := σ) o fun _ m _ => m.Passes o where
  pure a := .pure a
  bind hm hf := .bind hm hf
  fail e := .fail e
  halt h := .halt h
  attempt hm := .attempt hm
  bindOwner hf := .bindOwner hf
  tree := .tree
  env := .env
  world := .world
  modifyEnv f := .modifyEnv f
  record he := .record he
  called id resumed := .called id resumed
  returned id status := .returned id status
  interrupt := .interrupt
  subscribe key listener child := .subscribe key listener child
  delay span job := .delay span job

namespace Engine.Civil

variable {e : Engine σ} (he : e.Civil)
include he

theorem dispatch (key : EventKey) (args : List Value) {w : World σ} (hw : w.Coherent) :
    w.Then (e.dispatch key args) fun _ => w.Continues := by
  simp only [Engine.dispatch, then_bind, then_get, then_pure]
  -- the listeners were there when the event was dispatched, and tags that were given stay given
  have hlisteners : ∀ l ∈ w.subscriptions.callbacks key, ∀ o, l.owner? = some o → o.index < w.nextTag := by
    intro l hl o ho
    obtain ⟨id, entry, hentry, rfl⟩ := Subscriptions.mem_callbacks hl
    exact (hw.listeners hentry ho).2
  refine then_forM (World.Continues.refl hw) fun l hl w' hw' => ?_
  refine (he.hear _ hw'.coherent fun o ho => ?_).mono fun _ w'' hw'' => hw'.trans hw''
  exact Nat.lt_of_lt_of_le (hlisteners l hl o ho) hw'.later

theorem alike (o : Tag) : Alike o (fun _ m _ => m.Passes o) e e :=
  { TickM.passes_congruence o with
    run := he.run o
    resume := he.resume o
    dispatch := fun key args => .onWorld fun _ hw => he.dispatch key args hw }

theorem resumeAbove (level : Nat) : (e.resumeAbove level).Passes o := (he.alike o).resumeAbove level

theorem runNode (node : Node) : (e.runNode node).Passes o := (he.alike o).runNode node

theorem runAside (job : Job) : (aside (e.runFor job)).Passes o :=
  @TickM.Congruence.aside _ _ _ (TickM.passes_congruence o) _ (e.runFor job) ((he.alike o).runFor job)

end Engine.Civil

end BehaviorTree
