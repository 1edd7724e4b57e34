import BehaviorTree.Env
import BehaviorTree.Expr.Eval

/-!
What nodes do. The built-in behaviors are listed one by one, with the arguments that they were configured with.
Nodes of other types are leaves, which only see variables, the clock and their own payload, or routines, which may
also run other nodes and reach into the state of their tree.
-/

namespace BehaviorTree
set_option autoImplicit false

inductive Level where
  | trace
  | debug
  | info
  | warn
  | error
  deriving DecidableEq, Repr

namespace Level

def all : List Level := [trace, debug, info, warn, error]

def name : Level → String
  | trace => "trace"
  | debug => "debug"
  | info => "info"
  | warn => "warn"
  | error => "error"

def ofName? (name : String) : Option Level := all.find? (·.name == name)

end Level

structure Moment where
  vars : Variables
  /-- What it saved when it suspended, if it is resumed. -/
  payload : Option Payload
  /-- The values of its input slots. -/
  input : List (Option Value)
  time : Float

def Moment.input? (m : Moment) (slot : Nat) : Option Value := m.input[slot]?.join

inductive Ending where
  /-- Saves nothing. -/
  | finish (status : Status)
  /-- Saves a value, or the mere fact, and is running. -/
  | suspend (memo : Option Value)
  /-- The payload found is none that it saved. -/
  | reject

/-- What a leaf does: variables it writes, values for its output slots, a request to interrupt the tree. -/
structure Reaction where
  writes : List (String × Option Value) := []
  outputs : List (Option Value) := []
  interrupt : Bool := false
  ending : Ending

abbrev Leaf := Moment → Reaction

/-- What a node knows about itself. -/
structure Site where
  id : NodeId
  /-- The type name that its document gives. -/
  name : String
  args : Fields
  /-- Variables bound to the input slots. -/
  input : List String
  /-- Variables bound to the output slots. -/
  output : List String
  children : List NodeId

namespace Site

def arg? (s : Site) (key : String) : Option Value := s.args.get? key

def outputVar? (s : Site) (slot : Nat) : Option String := s.output[slot]?.filter (· ≠ "")

end Site

structure Glimpse where
  env : Env
  time : Float
  tag : Tag
  interrupted : Bool

inductive Routine where
  | finish (status : Status)
  /-- Saves a payload and is running. -/
  | suspend (payload : Payload)
  /-- The payload found is none that it saved. -/
  | reject
  | look (next : Glimpse → Routine)
  | write (name : String) (value : Option Value) (next : Routine)
  /-- Stores a variable of its own. -/
  | remember (name : String) (value : Option Value) (next : Routine)
  /-- Replaces the payload of a node, which must exist. -/
  | plant (id : NodeId) (payload : Payload) (next : Routine)
  /-- Appends a value for the next output slot. -/
  | push (value : Option Value) (next : Routine)
  /-- Asks for the tree to be interrupted when the tick returns. -/
  | interrupt (next : Routine)
  /-- Leaves a note in the journal. -/
  | note (v : Value) (next : Routine)
  /-- Runs a node, or resumes it if it is suspended. -/
  | run (id : NodeId) (next : Status → Routine)
  /-- How the child of a resumed node ended. -/
  | childStatus (next : Status → Routine)

/-- How a repeating node takes the result of one run of its child. -/
structure RepeatPolicy where
  /-- The result that ends the loop early and is passed on. -/
  stopOn : Status
  /-- The result once the number of runs is used up. -/
  exhausted : Status
  deriving DecidableEq, Repr

inductive Behavior where
  | sequence
  | selector
  | parallel
  | race
  | switch
  | case
  | ifElse
  | forEach
  | loop (count : Nat)
  | watchdog
  | repeated (limit : Option Nat) (policy : RepeatPolicy)
  | invert
  | always (status : Status)
  | once
  | timeout (time : Float)
  | delay (time : Float) (cache : List String)
  | wait (time : Float)
  | listen (event : String)
  | dispatch (event : String)
  | check (expr : Expression)
  | calculate (expr : Expression)
  | copy
  | isNull
  | notNull
  | log (level : Level) (message : String)
  | now
  | leaf (react : Leaf)
  | routine (steps : Site → Routine)

end BehaviorTree
