import BehaviorTree.Document.Stream
import BehaviorTree.Yaml.Tree

/-!
The forms in which a tree may be handed over, and why it may be unreadable.
-/

namespace BehaviorTree
set_option autoImplicit false

inductive DocumentError where
  | shape (error : ShapeError)
  | text (problem : Json.Problem)
  | yaml

/-- A document as it is handed over: a value, or a text in one of two formats. -/
inductive Source where
  | value (v : Value)
  | json (text : String)
  | yaml (text : String)

/-- Reads the document. -/
def Source.read : Source → Except DocumentError TreeSpec
  | .value v =>
    match TreeSpec.decode v with
    | .ok spec => .ok spec
    | .error e => .error (.shape e)
  | .json text =>
    match Json.parseTree text with
    | .ok spec => .ok spec
    | .error problem => .error (.text problem)
  | .yaml text =>
    match Yaml.parseTree text with
    | some spec => .ok spec
    | none => .error .yaml

end BehaviorTree
