import BehaviorTree.Document.Source
import BehaviorTree.World

/-!
How the workbench shows things as values: errors by the name of their cause and their message, payloads, trees and
the state of an instance. A value that is absent is told from null.
-/

namespace BehaviorTree
set_option autoImplicit false

namespace Workbench

def record (pairs : List (String × Value)) : Value := .object (Fields.ofList pairs)

def absent : Value := .object [("$none", .bool true)]

def shownOption (v : Option Value) : Value := v.getD absent

def shownNat (n : Nat) : Value := .int n

def shownId (id : NodeId) : Value := .int id.val.toNat

def shownStatus (s : Status) : Value := .string s.text

def shownStack (s : Stack) : Value := .array (s.toList.map shownId)

def shownVars (vars : Variables) : Value := .object (vars.toList)

/-- An error by its kind and message. -/
def failure (kind message : String) : Value := record [("error", .string kind), ("message", .string message)]

def exprKind : ExprError → String
  | .invalid .. => "Syntax"
  | .undefinedVariable _ => "UndefinedVariable"
  | .notANumber _ => "NotANumber"
  | .notAnObject _ => "NotAnObject"
  | .undefinedField _ => "UndefinedField"
  | .invalidField => "InvalidField"
  | .divisionByZero => "DivisionByZero"

def initKind : InitError → String
  | .missingArgument _ => "MissingArgument"
  | .invalidArgument .. => "InvalidArgument"
  | .invalidChild .. => "InvalidChild"
  | .expression e => "Expression." ++ exprKind e

def loadKind : LoadError → String
  | .unknownNode .. => "UnknownNode"
  | .tooFewChildren .. => "TooFewChildren"
  | .tooManyChildren .. => "TooManyChildren"
  | .duplicateId .. => "DuplicateId"
  | .init _ _ _ e => "Init." ++ initKind e

def runKind : RunError → String
  | .alreadyRunning _ => "AlreadyRunning"
  | .unexpectedStatus .. => "UnexpectedStatus"
  | .unexpectedPayload .. => "UnexpectedPayload"
  | .misplaced .. => "Misplaced"
  | .corruptStack .. => "CorruptStack"
  | .unknownNode .. => "UnknownNode"

def shownExprError (e : ExprError) : Value := failure (exprKind e) e.message
def shownInitError (e : InitError) : Value := failure (initKind e) e.message
def shownLoadError (e : LoadError) : Value := failure (loadKind e) e.message
def shownRunError (e : RunError) : Value := failure (runKind e) e.message

/-- A document error; one in a text has no message. -/
def shownDocumentError : DocumentError → Value
  | .shape e => failure "Json" e.message
  | .text .malformed => record [("error", .string "Json.Syntax")]
  | .text .truncated => record [("error", .string "Json.Eof")]
  | .text .mismatch => record [("error", .string "Json.Data")]
  | .yaml => record [("error", .string "Yaml")]

def noSuchName : Value := record [("error", .string "NoSuchName")]

def shownValue (v : Value) : Value := record [("value", v), ("truthy", .bool v.isTruthy)]

def shownEvaluation : Except ExprError Value → Value
  | .ok v => shownValue v
  | .error e => shownExprError e

def shownPayload : Payload → Value
  | .marker => .string "marker"
  | .index i => record [("index", shownNat i)]
  | .step i => record [("step", shownNat i)]
  | .cursor iteration child => record [("cursor", .array [shownNat iteration, shownNat child])]
  | .repeated done childRunning => record [("repeat", .array [shownNat done, .bool childRunning])]
  | .branches saved =>
    record [("branches", .array (saved.map fun s => (s.map shownStack).getD .null))]
  | .guarded saved => record [("guarded", shownStack saved)]
  | .deadline expiry saved => record [("deadline", .array [.float expiry, shownStack saved])]
  | .wakeAt time => record [("until", .float time)]
  | .value v => record [("value", v)]

def readStack (v : Value) : Stack :=
  ⟨(((v.asArray?).getD []).filterMap fun id => id.asNat?.map fun n => NodeId.mk n.toUInt32).reverse⟩

def readNat (v : Option Value) : Nat := (v.bind Value.asNat?).getD 0

def readFloat (v : Option Value) : Float := (v.bind Value.asFloat?).getD 0.0

/-- The payload that the first field of an object shows; anything else is a mere marker. -/
def readPayload (v : Value) : Payload :=
  match v with
  | .object ((key, v) :: _) =>
    let items := (v.asArray?).getD []
    match key with
    | "index" => .index (readNat v)
    | "step" => .step (readNat v)
    | "cursor" => .cursor (readNat items[0]?) (readNat items[1]?)
    | "repeat" => .repeated (readNat items[0]?) ((items[1]?.map (·.isTruthy)).getD false)
    | "branches" =>
      .branches (items.map fun item => match item with | .null => none | item => some (readStack item))
    | "guarded" => .guarded (readStack v)
    | "deadline" => .deadline (readFloat items[0]?) (readStack ((items[1]?).getD .null))
    | "until" => .wakeAt (readFloat v)
    | "value" => .value v
    | _ => .marker
  | _ => .marker

def shownNode (node : Node) : Value :=
  record
    [("id", shownId node.id), ("name", .string node.name), ("def", .string node.kind.name),
      ("args", .object node.args), ("input", .array (node.input.map .string)),
      ("output", .array (node.output.map .string)),
      ("outputs", .array ([0, 1].map fun slot => ((node.outputVar? slot).map .string).getD .null)),
      ("children", .array (node.children.map shownId))]

def shownTree (t : Tree) : Value :=
  record
    [("name", .string t.name), ("desc", .string t.desc), ("root", shownId t.root), ("len", shownNat t.size),
      ("empty", .bool (t.size = 0)), ("nodes", .array (t.toList.map shownNode))]

def shownPrivates : List String := ["once", "p", "q"]

def shownInstance {σ : Type} (view : Overview σ) (owner : Tag) : Value :=
  let tree := view.tree owner
  let env := view.env owner
  let ids := tree.nodes.keys
  let temps := ids.filterMap fun id => (env.temps[id]?).map fun p => .array [shownId id, shownPayload p]
  let privates := ids.flatMap fun id =>
    shownPrivates.filterMap fun name =>
      (env.getPrivate? id name).map fun v => .array [shownId id, .string name, v]
  record
    [("tree", .string tree.name), ("running", .bool !env.stack.isEmpty),
      ("executing", .bool (view.executing owner)), ("stack", shownStack env.stack), ("temps", .array temps),
      ("temp_count", shownNat env.temps.size), ("private", .array privates), ("vars", shownVars env.vars),
      ("last", shownStatus env.lastStatus), ("subs", shownNat (view.subscriptions owner)),
      ("delays", shownNat (view.delays owner))]

end Workbench

end BehaviorTree
