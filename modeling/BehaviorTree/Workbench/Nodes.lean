import BehaviorTree.Registry
import BehaviorTree.Workbench.Shown

/-!
Node types with which the behavior of trees is tried out: leaves that count, walk, answer or stay busy, and routines
that look into the state of their tree or run its nodes themselves.
-/

namespace BehaviorTree
set_option autoImplicit false

namespace Workbench

def leafType (kind : NodeKind) (react : NodeSpec → Leaf) : NodeType :=
  ⟨kind, fun _ spec => .ok (.leaf (react spec))⟩

def routineType (kind : NodeKind) (steps : Site → Routine) : NodeType :=
  ⟨kind, fun _ _ => .ok (.routine steps)⟩

/-- The trace of labels with one more; a trace that is no list stays as it is. -/
def extendTrace (trace : Option Value) (label : Value) : Value :=
  match trace with
  | none => .array [label]
  | some (.array labels) => .array (labels ++ [label])
  | some other => other

/-- Appends its label to the variable `trace` in each run, is running for a number of ticks, and then ends. -/
def stepLeaf (label : Value) (ticks : Nat) (result : Status) : Leaf := fun m =>
  let ending : Ending :=
    match m.payload with
    | none => if 0 < ticks then .suspend (some (.int 1)) else .finish result
    | some (.value v) =>
      let done := readNat v
      if done < ticks then .suspend (some (.int (done + 1))) else .finish result
    | some _ => .reject
  { writes := [("trace", some (extendTrace m.vars["trace"]? label))], ending }

/-- The leaves that are described by a label, a number of ticks, and a result. -/
def step : NodeType :=
  leafType
    { name := "Step", category := .action, desc := "Test leaf"
      args :=
        [{ name := "label", type := .string }, { name := "ticks", type := .number, optional := true },
          { name := "result", type := .string, optional := true }] }
    fun spec =>
      stepLeaf ((spec.arg? "label").getD .null) (readNat (spec.arg? "ticks"))
        (if spec.stringArg? "result" = some "failure" then .failure else .success)

def quit : NodeType :=
  leafType { name := "Quit", category := .action } fun _ _ => { interrupt := true, ending := .finish .success }

/-- Succeeds if its input is truthy, fails if it is null, and is running otherwise. -/
def busy : NodeType :=
  leafType { name := "Busy", category := .condition, input := ["done?"] } fun _ m =>
    { ending :=
        .finish <|
          match m.input? 0 with
          | some .null => .failure
          | some v => if v.isTruthy then .success else .running
          | none => .running }

def emit : NodeType :=
  leafType
    { name := "Emit", category := .action
      args := [{ name := "values", type := .any }, { name := "result", type := .string, optional := true }]
      output := ["a", "b?"] }
    fun spec _ =>
      let values := (((spec.arg? "values").bind Value.asArray?).getD [])
      let outputs := values.map fun v => if v == .string "$none" then none else some v
      let result : Status :=
        match spec.stringArg? "result" with
        | some "failure" => .failure
        | some "running" => .running
        | _ => .success
      { outputs, ending := .finish result }

def clamp (x low high : Float) : Float := if x < low then low else if high < x then high else x

def arrivalDistance : Float := Float.ofScientific 2220446049250313 true 31

/-- Walks the variable `pos` toward a target, at most `speed` in each run. -/
def moveTo : NodeType :=
  leafType
    { name := "MoveTo", category := .action, desc := "Walks `pos` one step per tick toward the target"
      args := [{ name := "speed", type := .number, optional := true }], input := ["target"] }
    fun spec m =>
      match (m.input? 0).bind Value.asFloat? with
      | none => { ending := .finish .failure }
      | some target =>
        let speed := (spec.floatArg? "speed").getD 1.0
        let start := ((m.vars["pos"]?).bind Value.asFloat?).getD 0.0
        let pos := start + clamp (target - start) (-speed) speed
        { writes := [("pos", some (Value.ofFloat pos))]
          ending := if (target - pos).abs < arrivalDistance then .finish .success else .suspend none }

def poke : NodeType :=
  routineType
    { name := "Poke", category := .action
      args := [{ name := "id", type := .number }, { name := "payload", type := .any }] }
    fun site =>
      .plant ⟨(readNat (site.arg? "id")).toUInt32⟩ (readPayload ((site.arg? "payload").getD .null))
        (.finish .success)

def runId : NodeType :=
  routineType { name := "RunId", category := .action, args := [{ name := "id", type := .number }] } fun site =>
    .run ⟨(readNat (site.arg? "id")).toUInt32⟩ .finish

def swallow : NodeType :=
  routineType { name := "Swallow", category := .decorator } fun site =>
    match site.children with
    | [] => .finish .success
    | id :: _ => .run id fun _ => .finish .success

def remember : NodeType :=
  routineType
    { name := "Remember", category := .action
      args := [{ name := "key", type := .string }, { name := "value", type := .any, optional := true }] }
    fun site =>
      .remember (((site.arg? "key").bind Value.asString?).getD "") (site.arg? "value") (.finish .success)

def probe : NodeType :=
  routineType { name := "Probe", category := .action, input := ["a", "b?"] } fun site =>
    .look fun g =>
      .note
        (record
          [("probe", shownId site.id), ("name", .string site.name),
            ("inputs", .array (g.env.input.map shownOption)), ("outputs", shownNat g.env.output.length),
            ("time", .float g.time), ("tag", .string g.tag.text), ("last", shownStatus g.env.lastStatus),
            ("stack", shownStack g.env.stack), ("interrupted", .bool g.interrupted)])
        (.finish .success)

def sandwich : NodeType :=
  routineType
    { name := "Sandwich", category := .decorator, input := ["a", "b?"], output := ["x", "y"] }
    fun site =>
      let conclude : Status → Routine := fun status =>
        if status = .running then .suspend .marker
        else
          .look fun g =>
            .note
              (record
                [("sandwich", shownId site.id), ("inputs", .array (g.env.input.map shownOption)),
                  ("outputs", shownNat g.env.output.length)])
              (.push (some (.string "after")) (.finish status))
      .push (some (.string "before")) <|
        .look fun g =>
          if g.env.isSuspended site.id then .childStatus conclude
          else
            match site.children with
            | [] => .finish .success
            | id :: _ => .run id conclude

def nodeTypes : List NodeType :=
  [step, quit, busy, emit, moveTo, poke, runId, swallow, remember, probe, sandwich]

def withNodeTypes (r : Registry) : Registry := nodeTypes.foldl Registry.register r

end Workbench

end BehaviorTree
