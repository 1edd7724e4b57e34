import BehaviorTree.Document
import BehaviorTree.Json.Printer

/-!
Documents and values. A tree or node is an object of its fields, or an array of them in the order of their
declaration; `encode` writes the object, `TreeSpec.decode` reads either form. An object's keys are checked in
their order, then the fields that are missing.
-/

namespace BehaviorTree
set_option autoImplicit false

/-- What a value was to be where a document has another. -/
inductive Expected where
  | string
  | id
  | fields
  | bool
  | list
  | node
  | tree
  deriving DecidableEq, Repr

def Expected.describe : Expected → String
  | .string => "a string"
  | .id => "u32"
  | .fields => "a map"
  | .bool => "a boolean"
  | .list => "a sequence"
  | .node => "struct NodeData"
  | .tree => "struct TreeData"

inductive ShapeError where
  | wrongType (found : Value) (expected : Expected)
  | idRange (found : Int)
  | missing (field : String)
  | duplicate (field : String)
  /-- An array that stands for a record ends before a required field, `index` fields after the first. -/
  | tooShort (index : Nat) (expected : Expected) (size : Nat)
  | tooLong (found : Nat)

namespace ShapeError

def describe : Value → String
  | .null => "null"
  | .bool b => "boolean `" ++ (if b then "true" else "false") ++ "`"
  | .int n => "integer `" ++ toString n ++ "`"
  | .float x => "floating point `" ++ (Decimal.floatText? x).getD "NaN" ++ "`"
  | .string s => "string " ++ quoted s
  | .array _ => "sequence"
  | .object _ => "map"

def message : ShapeError → String
  | wrongType found expected => "invalid type: " ++ describe found ++ ", expected " ++ expected.describe
  | idRange found =>
    "invalid value: " ++ describe (.int found) ++ ", expected " ++ Expected.describe .id
  | missing field => "missing field `" ++ field ++ "`"
  | duplicate field => "duplicate field `" ++ field ++ "`"
  | tooShort index expected size =>
    "invalid length " ++ toString index ++ ", expected " ++ expected.describe ++ " with " ++ toString size
      ++ " elements"
  | tooLong found => "invalid length " ++ toString found ++ ", expected fewer elements in array"

end ShapeError

/-- Ids stay below this bound. -/
def NodeId.limit : Nat := Nat.pow 2 32

/-- A node's id from an integer, if it is in range. -/
def NodeId.ofInt? (n : Int) : Option NodeId :=
  if 0 ≤ n && n < NodeId.limit then some ⟨n.toNat.toUInt32⟩ else none

namespace Decode

def string : Value → Except ShapeError String
  | .string s => .ok s
  | v => .error (.wrongType v .string)

def bool : Value → Except ShapeError Bool
  | .bool b => .ok b
  | v => .error (.wrongType v .bool)

def fields : Value → Except ShapeError Fields
  | .object fields => .ok fields
  | v => .error (.wrongType v .fields)

def strings : Value → Except ShapeError (List String)
  | .array items => items.mapM string
  | v => .error (.wrongType v .list)

def id : Value → Except ShapeError NodeId
  | .int n =>
    match NodeId.ofInt? n with
    | some id => .ok id
    | none => .error (.idRange n)
  | v => .error (.wrongType v .id)

end Decode

/-- The fields of a node, in the order of their declaration. -/
inductive NodeField where
  | id
  | name
  | desc
  | args
  | debug
  | disabled
  | input
  | output
  | children
  deriving DecidableEq, Repr

namespace NodeField

def all : List NodeField := [id, name, desc, args, debug, disabled, input, output, children]

def label : NodeField → String
  | id => "id"
  | name => "name"
  | desc => "desc"
  | args => "args"
  | debug => "debug"
  | disabled => "disabled"
  | input => "input"
  | output => "output"
  | children => "children"

/-- The field that a key stands for; three of them have a second spelling. -/
def ofKey? : String → Option NodeField
  | "id" => some id
  | "name" | "type" => some name
  | "desc" | "description" => some desc
  | "args" | "arguments" => some args
  | "debug" => some debug
  | "disabled" => some disabled
  | "input" => some input
  | "output" => some output
  | "children" => some children
  | _ => none

end NodeField

inductive TreeField where
  | name
  | desc
  | root
  deriving DecidableEq, Repr

namespace TreeField

def all : List TreeField := [name, desc, root]

def label : TreeField → String
  | name => "name"
  | desc => "desc"
  | root => "root"

def ofKey? : String → Option TreeField
  | "name" => some name
  | "desc" | "description" => some desc
  | "root" => some root
  | _ => none

end TreeField

structure NodeDraft where
  id : Option NodeId := none
  name : Option String := none
  desc : Option String := none
  args : Option Fields := none
  debug : Option Bool := none
  disabled : Option Bool := none
  input : Option (List String) := none
  output : Option (List String) := none
  children : Option (List NodeSpec) := none

namespace NodeDraft

def has (d : NodeDraft) : NodeField → Bool
  | .id => d.id.isSome
  | .name => d.name.isSome
  | .desc => d.desc.isSome
  | .args => d.args.isSome
  | .debug => d.debug.isSome
  | .disabled => d.disabled.isSome
  | .input => d.input.isSome
  | .output => d.output.isSome
  | .children => d.children.isSome

def finish (d : NodeDraft) : Except NodeField NodeSpec :=
  match d.id, d.name with
  | some id, some name =>
    .ok
      { id, name
        desc := d.desc.getD ""
        args := d.args.getD []
        debug := d.debug.getD false
        disabled := d.disabled.getD false
        input := d.input.getD []
        output := d.output.getD []
        children := d.children.getD [] }
  | none, _ => .error .id
  | some _, none => .error .name

end NodeDraft

structure TreeDraft where
  name : Option String := none
  desc : Option String := none
  root : Option NodeSpec := none

namespace TreeDraft

def has (d : TreeDraft) : TreeField → Bool
  | .name => d.name.isSome
  | .desc => d.desc.isSome
  | .root => d.root.isSome

def finish (d : TreeDraft) : Except TreeField TreeSpec :=
  match d.name, d.root with
  | some name, some root => .ok { name, desc := d.desc.getD "", root }
  | none, _ => .error .name
  | some _, none => .error .root

end TreeDraft

mutual
def NodeSpec.decode : Value → Except ShapeError NodeSpec
  | .object fields => do
    let draft ← NodeDraft.ofFields {} fields
    match draft.finish with
    | .ok spec => .ok spec
    | .error field => .error (.missing field.label)
  | .array items => do
    let draft ← NodeDraft.ofItems {} NodeField.all items
    match draft.finish with
    | .ok spec =>
      if NodeField.all.length < items.length then .error (.tooLong items.length) else .ok spec
    | .error field => .error (.tooShort (NodeField.all.idxOf field) .node NodeField.all.length)
  | v => .error (.wrongType v .node)

def NodeSpec.decodeAll : List Value → Except ShapeError (List NodeSpec)
  | [] => .ok []
  | v :: rest => do
    let spec ← NodeSpec.decode v
    let specs ← NodeSpec.decodeAll rest
    .ok (spec :: specs)

def NodeDraft.fill (d : NodeDraft) (field : NodeField) (v : Value) : Except ShapeError NodeDraft :=
  match field with
  | .id => do let id ← Decode.id v; .ok { d with id }
  | .name => do let name ← Decode.string v; .ok { d with name }
  | .desc => do let desc ← Decode.string v; .ok { d with desc }
  | .args => do let args ← Decode.fields v; .ok { d with args }
  | .debug => do let debug ← Decode.bool v; .ok { d with debug }
  | .disabled => do let disabled ← Decode.bool v; .ok { d with disabled }
  | .input => do let input ← Decode.strings v; .ok { d with input }
  | .output => do let output ← Decode.strings v; .ok { d with output }
  | .children =>
    match v with
    | .array items => do let children ← NodeSpec.decodeAll items; .ok { d with children }
    | v => .error (.wrongType v .list)

/-- Fills in the fields of an object in the order of its keys, passing over keys that mean nothing. -/
def NodeDraft.ofFields (d : NodeDraft) : List (String × Value) → Except ShapeError NodeDraft
  | [] => .ok d
  | (key, v) :: rest =>
    match NodeField.ofKey? key with
    | none => NodeDraft.ofFields d rest
    | some field =>
      if d.has field then .error (.duplicate field.label)
      else do
        let d ← NodeDraft.fill d field v
        NodeDraft.ofFields d rest

def NodeDraft.ofItems (d : NodeDraft) : List NodeField → List Value → Except ShapeError NodeDraft
  | [], _ => .ok d
  | _, [] => .ok d
  | field :: fields, v :: rest => do
    let d ← NodeDraft.fill d field v
    NodeDraft.ofItems d fields rest
end

namespace TreeDraft

def fill (d : TreeDraft) (field : TreeField) (v : Value) : Except ShapeError TreeDraft :=
  match field with
  | .name => do let name ← Decode.string v; .ok { d with name }
  | .desc => do let desc ← Decode.string v; .ok { d with desc }
  | .root => do let root ← NodeSpec.decode v; .ok { d with root }

/-- Fills in the fields of an object in the order of its keys, passing over keys that mean nothing. -/
def ofFields (d : TreeDraft) : List (String × Value) → Except ShapeError TreeDraft
  | [] => .ok d
  | (key, v) :: rest =>
    match TreeField.ofKey? key with
    | none => d.ofFields rest
    | some field =>
      if d.has field then .error (.duplicate field.label)
      else do
        let d ← d.fill field v
        d.ofFields rest

def ofItems (d : TreeDraft) : List TreeField → List Value → Except ShapeError TreeDraft
  | [], _ => .ok d
  | _, [] => .ok d
  | field :: fields, v :: rest => do
    let d ← d.fill field v
    d.ofItems fields rest

end TreeDraft

def TreeSpec.decode : Value → Except ShapeError TreeSpec
  | .object fields => do
    let draft ← TreeDraft.ofFields {} fields
    match draft.finish with
    | .ok spec => .ok spec
    | .error field => .error (.missing field.label)
  | .array items => do
    let draft ← TreeDraft.ofItems {} TreeField.all items
    match draft.finish with
    | .ok spec =>
      if TreeField.all.length < items.length then .error (.tooLong items.length) else .ok spec
    | .error field => .error (.tooShort (TreeField.all.idxOf field) .tree TreeField.all.length)
  | v => .error (.wrongType v .tree)

mutual
/-- Writes a node with all its fields. -/
def NodeSpec.encode : NodeSpec → Value
  | ⟨id, name, desc, args, debug, disabled, input, output, children⟩ =>
    .object
      [("args", .object args), ("children", .array (NodeSpec.encodeAll children)), ("debug", .bool debug),
        ("desc", .string desc), ("disabled", .bool disabled), ("id", .int id.val.toNat),
        ("input", .array (input.map .string)), ("name", .string name),
        ("output", .array (output.map .string))]

def NodeSpec.encodeAll : List NodeSpec → List Value
  | [] => []
  | spec :: rest => spec.encode :: NodeSpec.encodeAll rest
end

/-- Writes a tree with all its fields. -/
def TreeSpec.encode (spec : TreeSpec) : Value :=
  .object [("desc", .string spec.desc), ("name", .string spec.name), ("root", spec.root.encode)]

end BehaviorTree
