import BehaviorTree.Behavior
import BehaviorTree.NodeKind

/-!
Loaded trees: nodes filed by id, each with the ids of its children. A tree holds nothing about any run of it, so
many instances may share it.
-/

namespace BehaviorTree
set_option autoImplicit false

/-- A configured node. -/
structure Node extends Site where
  kind : NodeKind
  /-- Whether each run of the node is logged. -/
  debug : Bool
  behavior : Behavior

structure Tree where
  name : String := ""
  desc : String := ""
  root : NodeId := ⟨0⟩
  nodes : Std.ExtTreeMap NodeId Node := ∅

namespace Tree

instance : Inhabited Tree := ⟨{}⟩

def get? (t : Tree) (id : NodeId) : Option Node := t.nodes[id]?

def size (t : Tree) : Nat := t.nodes.size

/-- The nodes in the order of their ids. -/
def toList (t : Tree) : List Node := t.nodes.values

end Tree

/-- Why a tick or job fails. The nodes involved are named by tree, type name and id. -/
inductive RunError where
  | alreadyRunning (tree : String)
  | unexpectedStatus (tree name : String) (id : NodeId) (status : Status)
  | unexpectedPayload (tree name : String) (id : NodeId)
  | misplaced (tree name : String) (id : NodeId) (parent : String)
  | corruptStack (tree : String) (expected : NodeId) (found : Option NodeId)
  | unknownNode (tree : String) (id : NodeId)
  deriving DecidableEq, Repr

def Status.label : Status → String
  | .success => "Success"
  | .failure => "Failure"
  | .running => "Running"

namespace RunError

private def nodeText (tree name : String) (id : NodeId) : String :=
  tree ++ ": node " ++ name ++ " (id " ++ toString id ++ ")"

private def frameText : Option NodeId → String
  | none => "None"
  | some id => "Some(NodeId(" ++ toString id ++ "))"

def message : RunError → String
  | alreadyRunning tree => tree ++ ": run() called while the tree is already executing"
  | unexpectedStatus tree name id status => nodeText tree name id ++ " got unexpected status " ++ status.label
  | unexpectedPayload tree name id => nodeText tree name id ++ " found a continuation it did not save"
  | misplaced tree name id parent => nodeText tree name id ++ " can only run under " ++ parent
  | corruptStack tree expected found =>
    tree ++ ": expected node " ++ toString expected ++ " on top of the stack, found " ++ frameText found
  | unknownNode tree id => tree ++ ": no node with id " ++ toString id

end RunError

end BehaviorTree
