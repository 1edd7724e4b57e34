import BehaviorTree.Subscriptions
import BehaviorTree.Tree

/-!
The journal of everything that happens: reports of the engine, notes that routines and the host leave, and the
calls of nodes, jobs and lifecycle events. Reports and notes are shown; calls are recorded for their order alone.
-/

namespace BehaviorTree
set_option autoImplicit false

/-- What the engine reports. Nodes are named by the name of their tree and their id. -/
inductive Report where
  | treeLoaded (tree : String) (nodes : Nat)
  | slotUnbound (tree : String) (id : NodeId) (name slot : String)
  | tooManyChildren (tree : String) (id : NodeId) (name : String) (expected found : Nat)
  | nodeRun (tree : String) (id : NodeId) (name : String) (status : Status) (resumed : Bool)
  | expressionFailed (tree : String) (id : NodeId) (code : String) (error : ExprError)
  | message (level : Level) (text tree : String) (id : NodeId) (hasValue : Bool)
  | notAnArray (tree : String) (id : NodeId)
  | notATime (tree : String) (id : NodeId)
  | notATarget (tree : String) (id : NodeId)
  | guardFailed (tree : String) (id : NodeId)
  | cleanupAbandoned (tree : String) (id : NodeId)
  | timedOut (tree : String) (id : NodeId)
  | listening (tree : String) (id : NodeId) (event : String)
  | noListener (event : String)
  | released (tag : Tag) (events delays : Nat)
  | jobFailed (tag : Tag) (error : RunError)
  | jobAbandoned (tree : String) (id : NodeId)
  | interrupted (tag : Tag)
  | cleared (tag : Tag)
  | tickFailed (tree : String) (error : RunError)

namespace Report

def level : Report → Level
  | slotUnbound .. | tooManyChildren .. | expressionFailed .. | notAnArray .. | notATime .. | notATarget ..
  | cleanupAbandoned .. | jobAbandoned .. => .warn
  | jobFailed .. | tickFailed .. => .error
  | message level .. => level
  | _ => .debug

def text : Report → String
  | treeLoaded .. => "tree loaded"
  | slotUnbound .. => "input slot is not bound"
  | tooManyChildren .. => "too many children"
  | nodeRun .. => "node run"
  | expressionFailed .. => "expression failed"
  | message _ text .. => text
  | notAnArray .. => "ForEach input is not an array"
  | notATime .. => "Wait time is not a number"
  | notATarget .. => "event target must be a string"
  | guardFailed .. => "guard failed, aborting"
  | cleanupAbandoned .. => "cleanup child is still running, abandoning it"
  | timedOut .. => "timed out"
  | listening .. => "listening"
  | noListener .. => "no listener for event"
  | released .. => "released subscriptions"
  | jobFailed .. => "deferred job failed"
  | jobAbandoned .. => "delayed node is still running, abandoning it"
  | interrupted .. => "tree interrupted"
  | cleared .. => "tree cleared"
  | tickFailed .. => "tick failed"

private def place (tree : String) (id : NodeId) : Fields := [("id", .string (toString id)), ("tree", .string tree)]

def fields : Report → Fields
  | treeLoaded tree nodes => [("nodes", .int nodes), ("tree", .string tree)]
  | slotUnbound tree id name slot => place tree id ++ [("name", .string name), ("slot", .string slot)]
  | tooManyChildren tree id name expected found =>
    place tree id ++ [("name", .string name), ("expected", .int expected), ("found", .int found)]
  | nodeRun tree id name status resumed =>
    place tree id ++ [("name", .string name), ("status", .string status.label), ("resumed", .bool resumed)]
  | expressionFailed tree id code error =>
    place tree id ++ [("code", .string code), ("err", .string error.message)]
  | message _ _ tree id hasValue => place tree id ++ [("value", .bool hasValue)]
  | notAnArray tree id | notATime tree id | notATarget tree id | guardFailed tree id | cleanupAbandoned tree id
  | timedOut tree id | jobAbandoned tree id => place tree id
  | listening tree id event => place tree id ++ [("event", .string event)]
  | noListener event => [("event", .string event)]
  | released tag events delays =>
    [("tag", .string tag.text), ("events", .int events), ("delays", .int delays)]
  | jobFailed tag error => [("tag", .string tag.text), ("err", .string error.message)]
  | interrupted tag | cleared tag => [("tag", .string tag.text)]
  | tickFailed tree error => [("tree", .string tree), ("err", .string error.message)]

/-- A report as one object: its level, its text and its data. -/
def encode (r : Report) : Value :=
  .object (Fields.ofList (r.fields ++ [("level", .string r.level.name), ("message", .string r.text)]))

end Report

/-- Work for an instance that comes from outside its ticks. -/
inductive Job where
  /-- The child of a delay, with the variables that were put by for it. -/
  | delayed (node : NodeId) (cache : List (String × Option Value))
  /-- An event for the child of a listening node. -/
  | fired (listener child : NodeId) (event : Event)

/-- What an instance is seen to do. -/
inductive Activity where
  /-- A node starts, afresh or resumed. -/
  | called (id : NodeId) (resumed : Bool)
  /-- A node returns a status; none if it fails. -/
  | returned (id : NodeId) (status : Option Status)
  /-- A tick or a job gets the state of the instance. -/
  | entered
  /-- The tick or job gives it back. -/
  | left
  | queued (job : Job)
  | started (job : Job)
  | announced (event : String) (args : List Value)
  /-- Someone asks for the instance to be interrupted, or to be cleared. -/
  | requested (clear : Bool)
  /-- The host sets a variable of the instance, or unsets it. -/
  | assigned (name : String) (value : Option Value)
  /-- Everything suspended is dropped. -/
  | unwound

inductive Entry where
  | report (r : Report)
  | note (v : Value)
  | activity (tag : Tag) (a : Activity)

/-- The value that shows an entry; activities are not shown. -/
def Entry.shown? : Entry → Option Value
  | report r => some r.encode
  | note v => some v
  | activity .. => none

end BehaviorTree
