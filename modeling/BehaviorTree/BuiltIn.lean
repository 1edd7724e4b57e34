import BehaviorTree.Registry

/-!
The built-in node types: their descriptions and how their arguments are read.
-/

namespace BehaviorTree
set_option autoImplicit false

namespace BuiltIn

def plain (kind : NodeKind) (behavior : Behavior) : NodeType := ⟨kind, fun _ _ => .ok behavior⟩

/-- A type whose argument `value` is an expression. -/
def ofExpression (kind : NodeKind) (behavior : Expression → Behavior) : NodeType :=
  ⟨kind, fun compile spec =>
    match spec.requireString "value" with
    | .error e => .error e
    | .ok code =>
      match compile code with
      | .ok expr => .ok (behavior expr)
      | .error e => .error (.expression e)⟩

def ofNumber (kind : NodeKind) (key : String) (behavior : NodeSpec → Float → Behavior) : NodeType :=
  ⟨kind, fun _ spec =>
    match spec.requireNumber key with
    | .error e => .error e
    | .ok x => .ok (behavior spec x)⟩

def ofString (kind : NodeKind) (key : String) (behavior : String → Behavior) : NodeType :=
  ⟨kind, fun _ spec =>
    match spec.requireString key with
    | .error e => .error e
    | .ok s => .ok (behavior s)⟩

def repeating (kind : NodeKind) (key : String) (policy : RepeatPolicy) : NodeType :=
  ⟨kind, fun _ spec =>
    match spec.countArg? key with
    | .error e => .error e
    | .ok limit => .ok (.repeated limit policy)⟩

def sequence : NodeType :=
  plain { name := "Sequence", category := .composite, desc := "Runs children in order until one fails" } .sequence

def selector : NodeType :=
  plain { name := "Selector", category := .composite, desc := "Runs children in order until one succeeds" }
    .selector

def parallel : NodeType :=
  plain
    { name := "Parallel", category := .composite
      desc := "Runs every child each tick until all of them have finished" }
    .parallel

def race : NodeType :=
  plain
    { name := "Race", category := .composite, desc := "Runs every child each tick until one succeeds or all fail" }
    .race

def case : NodeType :=
  plain
    { name := "Case", category := .composite, desc := "Condition and action pair of a Switch"
      children := .exact 2 }
    .case

/-- A switch holds nothing but enabled children named as cases. -/
def switch : NodeType :=
  ⟨{ name := "Switch", category := .composite
     desc := "Runs the action of the first Case whose condition succeeds" },
    fun _ spec =>
      match spec.enabled.find? (·.name ≠ case.kind.name) with
      | some child => .error (.invalidChild child.name child.id)
      | none => .ok .switch⟩

def ifElse : NodeType :=
  plain
    { name := "IfElse", category := .composite
      desc := "Runs the second child if the first succeeds, the third otherwise", children := .exact 3 }
    .ifElse

def forEach : NodeType :=
  plain
    { name := "ForEach", category := .composite
      desc := "Runs the children once per element of the input array"
      input := ["array"], output := ["element", "index?"] }
    .forEach

def loop : NodeType :=
  ⟨{ name := "Loop", category := .composite, desc := "Runs the children a fixed number of times"
     args := [{ name := "count", type := .number }], output := ["index?"] },
    fun _ spec =>
      match spec.countArg? "count" with
      | .error e => .error e
      | .ok none => .error (.missingArgument "count")
      | .ok (some count) => .ok (.loop count)⟩

def watchdog : NodeType :=
  plain
    { name := "Watchdog", category := .composite
      desc :=
        "Runs the second child while the first keeps succeeding; the third cleans up after an abort"
      children := .exact 3 }
    .watchdog

def repeated : NodeType :=
  repeating
    { name := "Repeat", category := .decorator
      desc :=
        "Runs the child `count` times, or forever without a count, one run per tick; a failure ends it"
      args := [{ name := "count", type := .number, optional := true }] }
    "count" ⟨.failure, .success⟩

def repeatUntilSuccess : NodeType :=
  repeating
    { name := "RepeatUntilSuccess", category := .decorator
      desc := "Runs the child until it succeeds, one run per tick; fails after `max_loop` failures"
      args := [{ name := "max_loop", type := .number, optional := true }] }
    "max_loop" ⟨.success, .failure⟩

def repeatUntilFailure : NodeType :=
  repeating
    { name := "RepeatUntilFailure", category := .decorator
      desc := "Runs the child until it fails, one run per tick; succeeds after `max_loop` successes"
      args := [{ name := "max_loop", type := .number, optional := true }] }
    "max_loop" ⟨.failure, .success⟩

def invert : NodeType :=
  plain { name := "Invert", category := .decorator, desc := "Swaps success and failure of the child" } .invert

def alwaysSuccess : NodeType :=
  plain
    { name := "AlwaysSuccess", category := .decorator
      desc := "Succeeds once the child finishes, whatever its result" }
    (.always .success)

def alwaysFailure : NodeType :=
  plain
    { name := "AlwaysFailure", category := .decorator
      desc := "Fails once the child finishes, whatever its result" }
    (.always .failure)

def once : NodeType :=
  plain
    { name := "Once", category := .decorator
      desc := "Runs the child only the first time, fails on every later run" }
    .once

def timeout : NodeType :=
  ofNumber
    { name := "Timeout", category := .decorator
      desc := "Fails and abandons the child if it is still running after `time`"
      args := [{ name := "time", type := .number }] }
    "time" fun _ time => .timeout time

/-- The strings of an array; anything else is passed over. -/
def namesOf (value : Option Value) : List String :=
  ((value.bind Value.asArray?).getD []).filterMap Value.asString?

def delay : NodeType :=
  ofNumber
    { name := "Delay", category := .decorator
      desc := "Schedules the child to run once after `delay`, succeeding right away"
      args := [{ name := "delay", type := .number }, { name := "cache", type := .names, optional := true }] }
    "delay" fun spec time => .delay time (namesOf (spec.arg? "cache"))

def wait : NodeType :=
  ofNumber
    { name := "Wait", category := .action
      desc := "Keeps running until `time` has passed on the Context clock"
      args := [{ name := "time", type := .number }], input := ["time?"] }
    "time" fun _ time => .wait time

def listen : NodeType :=
  ofString
    { name := "Listen", category := .decorator
      desc := "Runs the child every time `event` is dispatched"
      args := [{ name := "event", type := .string }]
      input := ["target?"], output := ["target?", "args?"] }
    "event" .listen

def dispatch : NodeType :=
  ofString
    { name := "Dispatch", category := .action, desc := "Dispatches `event` through the Context"
      args := [{ name := "event", type := .string }], input := ["target?", "args?"] }
    "event" .dispatch

def check : NodeType :=
  ofExpression
    { name := "Check", category := .condition, desc := "Succeeds if the expression `value` is truthy"
      args := [{ name := "value", type := .expression }] }
    .check

def calculate : NodeType :=
  ofExpression
    { name := "Calculate", category := .action, desc := "Evaluates the expression `value` into the output"
      args := [{ name := "value", type := .expression }], output := ["value"] }
    .calculate

def copy : NodeType :=
  plain
    { name := "Let", category := .action, desc := "Copies the input, or the `value` argument, to the output"
      args := [{ name := "value", type := .any, optional := true }]
      input := ["value?"], output := ["value"] }
    .copy

def isNull : NodeType :=
  plain
    { name := "IsNull", category := .condition
      desc := "Succeeds if the input variable is unset or null", input := ["value"] }
    .isNull

def notNull : NodeType :=
  plain
    { name := "NotNull", category := .condition
      desc := "Succeeds if the input variable holds a non-null value", input := ["value"] }
    .notNull

/-- The level of a message is `info` unless the node says otherwise. -/
def log : NodeType :=
  ⟨{ name := "Log", category := .action, desc := "Emits `message` through the tracing subscriber"
     args := [{ name := "message", type := .string }, { name := "level", type := .string, optional := true }]
     input := ["value?"] },
    fun _ spec =>
      match spec.requireString "message" with
      | .error e => .error e
      | .ok message =>
        match spec.stringArg? "level" with
        | none => .ok (.log .info message)
        | some name =>
          match Level.ofName? name with
          | some level => .ok (.log level message)
          | none => .error (.invalidArgument "level" "one of trace, debug, info, warn or error")⟩

def now : NodeType :=
  plain
    { name := "Now", category := .action, desc := "Writes the Context clock to the output", output := ["value"] }
    .now

def all : List NodeType :=
  [sequence, selector, parallel, race, switch, case, ifElse, forEach, loop, repeated, repeatUntilSuccess,
    repeatUntilFailure, invert, alwaysSuccess, alwaysFailure, once, timeout, delay, wait, listen, watchdog, check,
    calculate, copy, isNull, notNull, log, dispatch, now]

end BuiltIn

/-- Every built-in type under its name, and `Invert` also as `Not`. -/
def Registry.builtIn : Registry :=
  (BuiltIn.all.foldl Registry.register ∅).registerAs "Not" BuiltIn.invert

end BehaviorTree
