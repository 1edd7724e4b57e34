import BehaviorTree.Engine.Lifetime

/-!
The host's programs, and the engine that ties all calls together. `Engine.ofDepth n` lets calls nest `n` deep and
halts beyond; a result that it gives does not change with more depth.
-/

namespace BehaviorTree
set_option autoImplicit false

namespace Engine

variable {σ : Type} (e : Engine σ)

def apply {α : Type} (f : World σ → α × World σ) : WorldM σ α := modifyGet f

/-- Does something with an instance. A tag that is no instance's stands for a tree without nodes: nothing is done. -/
def withInstance {α : Type} (owner : Tag) (absent : α) (m : WorldM σ α) : WorldM σ α := do
  if (← get).instances.contains owner then m else return absent

def noRoot : RunError := .unknownNode ({} : Tree).name ({} : Tree).root

/-- Performs a program of the host. -/
def perform : Program σ → WorldM σ Unit
  | .done => return
  | .look next => do perform (next (← get).overview)
  | .store host next => do
    modify fun w => { w with host }
    perform next
  | .note v next => do
    modify (·.record (.note v))
    perform next
  | .load spec strict next => do
    let result ← apply (·.load spec strict)
    perform (next result)
  | .install code f next => do
    modify (·.install code f)
    perform next
  | .newTag next => do
    let tag ← apply World.newTag
    perform (next tag)
  | .create tree vars next => do
    let owner ← apply (·.create tree vars)
    perform (next owner)
  | .run owner next => do
    let result ← withInstance owner (.error noRoot) (e.runTree owner)
    perform (next result)
  | .interrupt owner next => do
    withInstance owner () (e.interruptTree owner)
    perform next
  | .clear owner next => do
    withInstance owner () (e.clearTree owner)
    perform next
  | .setTree owner tree next => do
    let result ← withInstance owner (.error noRoot) (setTree owner tree)
    perform (next result)
  | .setVar owner name value next => do
    withInstance owner () (modify (·.assign owner name value))
    perform next
  | .drop owner next => do
    withInstance owner () (modify (·.drop owner))
    perform next
  | .update dt next => do
    e.update dt
    perform next
  | .dispatch key args next => do
    let heard ← e.dispatch key args
    perform (next heard)
  | .subscribe key tag callback next => do
    let id ← apply (·.subscribe key tag (.host callback))
    perform (next id)
  | .unsubscribe id next => do
    let found ← apply fun w =>
      let (found, subscriptions) := w.subscriptions.remove id
      (found, { w with subscriptions })
    perform (next found)
  | .unsubscribeEvent event tag next => do
    let count ← apply fun w =>
      let (count, subscriptions) := w.subscriptions.removeEvent event tag
      (count, { w with subscriptions })
    perform (next count)
  | .release tag next => do
    modify (·.releaseTag tag)
    perform next
  | .delay time tag callback next => do
    let id ← apply (·.delay time tag (.host callback))
    perform (next id)
  | .cancel id next => do
    let found ← apply fun w =>
      let (found, delays) := w.delays.cancel id
      (found, { w with delays })
    perform (next found)

def hearEvent : Listener σ → Event → WorldM σ Unit
  | .node owner listener only, event => e.schedule owner (.fired listener only event)
  | .host react, event => e.perform (react event)

def setOff : Alarm σ → WorldM σ Unit
  | .job owner job => e.schedule owner job
  | .host act => e.perform act

def exhausted : Engine σ where
  run _ := TickM.halt .tooDeep
  resume _ := TickM.halt .tooDeep
  hear _ _ := throw .tooDeep
  alarm _ := throw .tooDeep
  runPending _ := throw .tooDeep

/-- Calls that nest up to a depth. -/
def ofDepth : Nat → Engine σ
  | 0 => exhausted
  | n + 1 =>
    { run := fun id => do (ofDepth n).runNode (← TickM.node id)
      resume := fun level => (ofDepth n).resumeAbove level
      hear := fun l event => (ofDepth n).hearEvent l event
      alarm := fun a => (ofDepth n).setOff a
      runPending := fun owner => (ofDepth n).runNext owner }

end Engine

namespace World

variable {σ : Type}

/-- Performs a program with calls nested up to a depth. -/
def perform (depth : Nat) (p : Program σ) (w : World σ) : Except Halt (World σ) :=
  ((Engine.ofDepth depth).perform p w).map (·.2)

end World

end BehaviorTree
