import BehaviorTree.Document.Decode
import BehaviorTree.Yaml.Value

/-!
Trees in YAML. Where a name or text is due, a scalar stands for its text however it is written; where a number or
boolean is due, and inside arguments, plain scalars stand for their values. Sequences and mappings may lie within each
other to a limited depth, except where nobody asks for them. The value so read is then checked like any other document.
-/

namespace BehaviorTree
set_option autoImplicit false

namespace Yaml

def asText : Node → Value
  | .scalar _ text => .string text
  | _ => .null

def asTexts (depth : Nat) : Node → Option Value
  | .sequence items => if depth = 0 then none else some (.array (items.map asText))
  | _ => some .null

mutual
/-- A node where the configuration of a tree's node is due; at most `depth` sequences and mappings may lie within each
other. -/
def asNode (depth : Nat) (node : Node) : Option Value :=
  match depth, node with
  | _, .scalar .. => some .null
  | 0, _ => none
  | depth + 1, .mapping entries => (nodeEntries depth entries).map .object
  | depth + 1, .sequence items => (nodeItems depth NodeField.all items).map .array

def asField (depth : Nat) (field : NodeField) (node : Node) : Option Value :=
  match field with
  | .name | .desc => some (asText node)
  | .input | .output => asTexts depth node
  | .id | .debug | .disabled | .args => node.value depth
  | .children =>
    match depth, node with
    | 0, .sequence _ => none
    | depth + 1, .sequence items => (childNodes depth items).map .array
    | _, _ => some .null

def nodeEntries (depth : Nat) : List (Node × Node) → Option (List (String × Value))
  | [] => some []
  | (key, node) :: rest =>
    match key with
    | .scalar _ name =>
      match NodeField.ofKey? name with
      | none => nodeEntries depth rest
      | some field => do
        let v ← asField depth field node
        let pairs ← nodeEntries depth rest
        some ((name, v) :: pairs)
    | _ => none

def nodeItems (depth : Nat) : List NodeField → List Node → Option (List Value)
  | _, [] => some []
  | [], _ :: rest => do
    let vs ← nodeItems depth [] rest
    some (.null :: vs)
  | field :: fields, node :: rest => do
    let v ← asField depth field node
    let vs ← nodeItems depth fields rest
    some (v :: vs)

def childNodes (depth : Nat) : List Node → Option (List Value)
  | [] => some []
  | node :: rest => do
    let v ← asNode depth node
    let vs ← childNodes depth rest
    some (v :: vs)
end

def asTreeField (depth : Nat) : TreeField → Node → Option Value
  | .name, node | .desc, node => some (asText node)
  | .root, node => asNode depth node

def treeEntries (depth : Nat) : List (Node × Node) → Option (List (String × Value))
  | [] => some []
  | (.scalar _ name, node) :: rest =>
    match TreeField.ofKey? name with
    | none => treeEntries depth rest
    | some field => do
      let v ← asTreeField depth field node
      let pairs ← treeEntries depth rest
      some ((name, v) :: pairs)
  | _ => none

def treeItems (depth : Nat) : List TreeField → List Node → Option (List Value)
  | _, [] => some []
  | [], _ :: rest => do
    let vs ← treeItems depth [] rest
    some (.null :: vs)
  | field :: fields, node :: rest => do
    let v ← asTreeField depth field node
    let vs ← treeItems depth fields rest
    some (v :: vs)

def asTree : Node → Option Value
  | .mapping entries => (treeEntries (depthLimit - 1) entries).map .object
  | .sequence items => (treeItems (depthLimit - 1) TreeField.all items).map .array
  | .scalar .. => some .null

def parseTree (text : String) : Option TreeSpec := do
  let node ← Node.parse text
  let v ← asTree node
  (TreeSpec.decode v).toOption

end Yaml

end BehaviorTree
