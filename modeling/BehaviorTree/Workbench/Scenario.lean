import BehaviorTree.Engine.Knot
import BehaviorTree.Workbench.Nodes

/-!
Scenarios: steps that load trees, run instances, move the clock and dispatch events, with everything known by name.
Subscriptions and delays carry further steps as their actions. A step becomes a program of the host, and playing it
gives its result, what was observed, and the state of every instance.
-/

namespace BehaviorTree
set_option autoImplicit false

namespace Workbench

/-- A function that is installed for the text of an expression. -/
inductive Meaning where
  /-- Always one value. -/
  | const (v : Value)
  /-- The value of a variable. -/
  | lookup (name : String)
  /-- Twice the number in a variable, as a float. -/
  | double (name : String)

def Meaning.evaluate (m : Meaning) (vars : Lookup) : Except ExprError Value :=
  match m with
  | const v => .ok v
  | lookup name =>
    match vars name with
    | some v => .ok v
    | none => .error (.undefinedVariable name)
  | double name =>
    match (vars name).bind Value.asFloat? with
    | some x => .ok (Value.ofFloat (x * 2.0))
    | none => .error (.undefinedVariable name)

/-- An owner of subscriptions and delays: one with a name of its own, or a runner. -/
inductive OwnerRef where
  | tag (name : String)
  | runner (name : String)

/-- The target of an event: none, a text, or the tag of a runner. -/
inductive TargetRef where
  | nobody
  | text (target : String)
  | runner (name : String)

inductive Step where
  | load (tree : String) (source : Source) (strict : Bool)
  | new (runner tree : String) (vars : Fields)
  | run (runner : String)
  | interrupt (runner : String)
  | clear (runner : String)
  | executing (runner : String)
  | setTree (runner tree : String)
  | drop (runner : String)
  | set (runner key : String) (value : Option Value)
  | update (dt : Float)
  | dispatch (event : String) (target : TargetRef) (args : List Value)
  | tag (name : String)
  | on (name event : String) (target : TargetRef) (owner : OwnerRef) (actions : List Step)
  | delay (name : String) (time : Float) (owner : OwnerRef) (actions : List Step)
  | unsubscribe (name : String)
  | off (event : String) (owner : OwnerRef)
  | offAll (owner : OwnerRef)
  | cancel (name : String)
  | counts (owner : OwnerRef)
  | code (code : String) (meaning : Meaning)
  | eval (code : String) (runner : Option String) (vars : Fields)
  | same (a b : String)
  deriving Inhabited

def Step.word : Step → String
  | load .. => "load"
  | new .. => "new"
  | run _ => "run"
  | interrupt _ => "interrupt"
  | clear _ => "clear"
  | executing _ => "executing"
  | setTree .. => "set_tree"
  | drop _ => "drop"
  | set .. => "set"
  | update _ => "update"
  | dispatch .. => "dispatch"
  | tag _ => "tag"
  | on .. => "on"
  | delay .. => "delay"
  | unsubscribe _ => "unsubscribe"
  | off .. => "off"
  | offAll _ => "off_all"
  | cancel _ => "cancel"
  | counts _ => "counts"
  | code .. => "code"
  | eval .. => "eval"
  | same .. => "same"

/-- What names stand for, how deep callbacks are nested now, and the result of the step that was played last. -/
structure Bench where
  trees : Std.ExtTreeMap String Tree := ∅
  runners : Std.ExtTreeMap String Tag := ∅
  tags : Std.ExtTreeMap String Tag := ∅
  subscriptions : Std.ExtTreeMap String SubscriptionId := ∅
  delays : Std.ExtTreeMap String DelayId := ∅
  /-- The runners that are at work for a step, once for each such step. -/
  atWork : List Tag := []
  /-- Those of them that no name stands for any more. -/
  givenUp : List Tag := []
  nesting : Nat := 0
  result : Value := .null

namespace Bench

def owner? (b : Bench) : OwnerRef → Option Tag
  | .tag name => b.tags[name]?
  | .runner name => b.runners[name]?

def target? (b : Bench) : TargetRef → Option (Option String)
  | .nobody => some none
  | .text target => some (some target)
  | .runner name => (b.runners[name]?).map fun owner => some owner.text

/-- Notes that a runner is at work for one more step. -/
def start (b : Bench) (owner : Tag) : Bench := { b with atWork := owner :: b.atWork }

end Bench

def nestingLimit : Nat := 6

abbrev Rest := Value → Program Bench

def withBench (next : Bench → Program Bench) : Program Bench := .look fun view => next view.host

/-- Goes on with what a name stands for, or answers that nothing has it. -/
def named {α : Type} (k : Rest) (find : Bench → Option α) (next : α → Program Bench) : Program Bench :=
  withBench fun b =>
    match find b with
    | some a => next a
    | none => k noSuchName

def change (f : Bench → Bench) (next : Program Bench) : Program Bench := withBench fun b => .store (f b) next

/-- Goes on when a runner is back from a step. One that was given up meanwhile is dropped now, unless it is still at
work for another step. -/
def finishing (owner : Tag) (next : Program Bench) : Program Bench :=
  withBench fun b =>
    let b := { b with atWork := b.atWork.erase owner }
    if b.givenUp.contains owner && !b.atWork.contains owner then
      .store { b with givenUp := b.givenUp.erase owner } (.drop owner next)
    else .store b next

def giveUp (owner : Tag) (next : Program Bench) : Program Bench :=
  withBench fun b =>
    if b.atWork.contains owner then .store { b with givenUp := owner :: b.givenUp } next
    else .drop owner next

def runResult : Except RunError Status → Value
  | .ok status => shownStatus status
  | .error e => shownRunError e

def loadStep (name : String) (source : Source) (strict : Bool) (k : Rest) : Program Bench :=
  match source.read with
  | .error e => k (shownDocumentError e)
  | .ok spec =>
    .load spec strict fun
      | .error e => k (shownLoadError e)
      | .ok tree =>
        change (fun b => { b with trees := b.trees.insert name tree }) <|
          k (record [("root", shownId tree.root), ("len", shownNat tree.size)])

/-- Makes a runner; one of the same name is given up. -/
def newStep (runner tree : String) (vars : Fields) (k : Rest) : Program Bench :=
  named k (·.trees[tree]?) fun tree =>
    .create tree (Variables.ofFields vars) fun owner =>
      withBench fun b =>
        let next := k (.string owner.text)
        .store { b with runners := b.runners.insert runner owner } <|
          match b.runners[runner]? with
          | some previous => giveUp previous next
          | none => next

def evalStep (code : String) (runner : Option String) (vars : Fields) (k : Rest) : Program Bench :=
  let evaluate := fun (vars : Overview Bench → Lookup) =>
    .look fun view =>
      match view.compile code with
      | .error e => k (shownExprError e)
      | .ok expr => k (shownEvaluation (expr.evaluate (vars view)))
  match runner with
  | none => evaluate fun _ => vars.get?
  | some name => named k (·.runners[name]?) fun owner => evaluate fun view => (view.env owner).get?

/-- Texts compile to one expression if they are the same text, which must compile. -/
def sameStep (a b : String) (k : Rest) : Program Bench :=
  .look fun view =>
    match view.compile a, view.compile b with
    | .ok _, .ok _ => k (.bool (a = b))
    | _, _ => k .null

mutual
def Step.play (s : Step) (k : Rest) : Program Bench :=
  match s with
  | .load tree source strict => loadStep tree source strict k
  | .new runner tree vars => newStep runner tree vars k
  | .run runner =>
    named k (·.runners[runner]?) fun owner =>
      change (·.start owner) (.run owner fun r => finishing owner (k (runResult r)))
  | .interrupt runner =>
    named k (·.runners[runner]?) fun owner =>
      change (·.start owner) (.interrupt owner (finishing owner (k .null)))
  | .clear runner =>
    named k (·.runners[runner]?) fun owner =>
      change (·.start owner) (.clear owner (finishing owner (k .null)))
  | .executing runner =>
    named k (·.runners[runner]?) fun owner => .look fun view => k (.bool (view.executing owner))
  | .setTree runner tree =>
    named k (·.runners[runner]?) fun owner =>
      named k (·.trees[tree]?) fun tree =>
        .setTree owner tree fun
          | .ok () => k .null
          | .error e => k (shownRunError e)
  | .drop runner =>
    named k (·.runners[runner]?) fun owner =>
      change (fun b => { b with runners := b.runners.erase runner }) (giveUp owner (k .null))
  | .set runner key value =>
    named k (·.runners[runner]?) fun owner => .setVar owner key value (k .null)
  | .update dt => .update dt (k .null)
  | .dispatch event target args =>
    named k (·.target? target) fun target => .dispatch ⟨event, target⟩ args fun n => k (shownNat n)
  | .tag name =>
    .newTag fun tag => change (fun b => { b with tags := b.tags.insert name tag }) (k (.string tag.text))
  | .on name event target owner actions =>
    named k (·.target? target) fun target =>
      named k (·.owner? owner) fun owner =>
        let heard := fun (ev : Event) =>
          .note
            (record
              [("fired", .string name), ("event", .string ev.name),
                ("target", (ev.target.map .string).getD .null), ("args", .array ev.args)])
            (callback actions)
        .subscribe ⟨event, target⟩ owner heard fun id =>
          change (fun b => { b with subscriptions := b.subscriptions.insert name id }) (k .null)
  | .delay name time owner actions =>
    named k (·.owner? owner) fun owner =>
      let due :=
        .look fun view =>
          .note (record [("delayed", .string name), ("time", .float view.time)]) (callback actions)
      .delay time owner due fun id =>
        change (fun b => { b with delays := b.delays.insert name id }) (k .null)
  | .unsubscribe name =>
    named k (·.subscriptions[name]?) fun id => .unsubscribe id fun found => k (.bool found)
  | .off event owner =>
    named k (·.owner? owner) fun owner => .unsubscribeEvent event owner fun n => k (shownNat n)
  | .offAll owner => named k (·.owner? owner) fun owner => .release owner (k .null)
  | .cancel name => named k (·.delays[name]?) fun id => .cancel id fun found => k (.bool found)
  | .counts owner =>
    named k (·.owner? owner) fun owner =>
      .look fun view =>
        k (.array [shownNat (view.subscriptions owner), shownNat (view.delays owner)])
  | .code code m => .install code m.evaluate (k .null)
  | .eval code runner vars => evalStep code runner vars k
  | .same a b => sameStep a b k

/-- The actions of a callback, unless callbacks are nested too deep. -/
def callback (actions : List Step) : Program Bench :=
  withBench fun b =>
    if nestingLimit ≤ b.nesting then .done
    else
      .store { b with nesting := b.nesting + 1 } <|
        playAll actions (change (fun b => { b with nesting := b.nesting - 1 }) .done)

def playAll : List Step → Program Bench → Program Bench
  | [], rest => rest
  | s :: steps, rest =>
    s.play fun result =>
      .note (record [("action", .string s.word), ("result", result)]) (playAll steps rest)
end

structure Observation where
  result : Value
  log : List Value
  time : Float
  /-- The state of each runner by its name. -/
  state : Fields

def emptyWorld (registry : Registry) : World Bench := { registry := withNodeTypes registry, host := {} }

/-- How deep calls may nest. -/
def depth : Nat := 1000000

/-- Plays one step and reads off what is seen; the journal starts anew. -/
def observe (s : Step) (w : World Bench) : Except Halt (Observation × World Bench) :=
  let program := s.play fun result => change (fun b => { b with result }) .done
  match w.perform depth program with
  | .error h => .error h
  | .ok w =>
    let view := w.overview
    let seen : Observation :=
      { result := w.host.result
        log := w.journal.toList.filterMap Entry.shown?
        time := w.time
        state := (w.host.runners.toList.map fun (name, owner) => (name, shownInstance view owner)) }
    .ok (seen, { w with journal := #[] })

/-- Plays steps in order and reads off what is seen after each, up to a halt. -/
def playScenario : List Step → World Bench → List Observation × Option Halt
  | [], _ => ([], none)
  | s :: steps, w =>
    match observe s w with
    | .error h => ([], some h)
    | .ok (seen, w) =>
      let (more, halt) := playScenario steps w
      (seen :: more, halt)

end Workbench

end BehaviorTree
