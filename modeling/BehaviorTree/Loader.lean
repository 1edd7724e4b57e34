import BehaviorTree.Journal
import BehaviorTree.Registry

/-!
Loading an authored tree: every node that is not disabled is checked against its type and filed under its id, the
children before their parent. What is odd but not wrong is reported.
-/

namespace BehaviorTree
set_option autoImplicit false

inductive LoadError where
  | unknownNode (tree name : String) (id : NodeId)
  | tooFewChildren (tree name : String) (id : NodeId) (expected found : Nat)
  | tooManyChildren (tree name : String) (id : NodeId) (expected found : Nat)
  | duplicateId (tree : String) (id : NodeId)
  | init (tree name : String) (id : NodeId) (error : InitError)
  deriving DecidableEq

namespace LoadError

private def nodeText (tree name : String) (id : NodeId) : String :=
  tree ++ ": node " ++ name ++ " (id " ++ toString id ++ ")"

def message : LoadError → String
  | unknownNode tree name id =>
    tree ++ ": node type " ++ quoted name ++ " not found (id " ++ toString id ++ ")"
  | tooFewChildren tree name id expected found =>
    nodeText tree name id ++ " requires " ++ toString expected ++ " children, found " ++ toString found
  | tooManyChildren tree name id expected found =>
    nodeText tree name id ++ " accepts " ++ toString expected ++ " children, found " ++ toString found
  | duplicateId tree id => tree ++ ": node id " ++ toString id ++ " is used more than once"
  | init tree name id error => nodeText tree name id ++ ": " ++ error.message

end LoadError

namespace Loader

structure Setting where
  tree : String
  registry : Registry
  compile : Compiler
  /-- Whether surplus children are an error. -/
  strict : Bool

structure State where
  nodes : Std.ExtTreeMap NodeId Node := ∅
  reports : List Report := []

abbrev LoadM := ExceptT LoadError (StateM State)

def report (r : Report) : LoadM Unit := modify fun s => { s with reports := s.reports ++ [r] }

/-- A type that asks for a number of children gets no fewer, and no more if loading is strict. -/
def checkChildren (c : Setting) (spec : NodeSpec) (count : ChildCount) : LoadM Unit :=
  match count with
  | .unbounded => return
  | .exact expected =>
    let found := spec.enabled.length
    if found < expected then throw (.tooFewChildren c.tree spec.name spec.id expected found)
    else if expected < found then
      if c.strict then throw (.tooManyChildren c.tree spec.name spec.id expected found)
      else report (.tooManyChildren c.tree spec.id spec.name expected found)
    else return

def checkArgs (c : Setting) (spec : NodeSpec) (args : List ArgSpec) : LoadM Unit :=
  args.forM fun arg =>
    match arg.validate spec.args with
    | .ok () => return
    | .error e => throw (.init c.tree spec.name spec.id e)

def checkSlots (c : Setting) (spec : NodeSpec) (slots : List String) : LoadM Unit :=
  (slots.zipIdx).forM fun (slot, i) =>
    let bound := (spec.input[i]?).any (· ≠ "")
    if !bound && !isOptionalSlot slot then report (.slotUnbound c.tree spec.id spec.name slot) else return

/-- Checks and configures one node, apart from the nodes below it. -/
def configure (c : Setting) (spec : NodeSpec) : LoadM (NodeKind × Behavior) := do
  match c.registry.get? spec.name with
  | none => throw (.unknownNode c.tree spec.name spec.id)
  | some type =>
    checkChildren c spec type.kind.children
    checkArgs c spec type.kind.args
    checkSlots c spec type.kind.input
    match type.configure c.compile spec with
    | .ok behavior => return (type.kind, behavior)
    | .error e => throw (.init c.tree spec.name spec.id e)

def file (c : Setting) (node : Node) : LoadM Unit := do
  if (← get).nodes.contains node.id then throw (.duplicateId c.tree node.id)
  else modify fun s => { s with nodes := s.nodes.insert node.id node }

mutual
def loadNode (c : Setting) : NodeSpec → LoadM NodeId
  | ⟨id, name, desc, args, debug, disabled, input, output, children⟩ => do
    let (kind, behavior) ← configure c ⟨id, name, desc, args, debug, disabled, input, output, children⟩
    let childIds ← loadChildren c children
    file c { id, name, args, input, output, children := childIds, kind, debug, behavior }
    return id

def loadChildren (c : Setting) : List NodeSpec → LoadM (List NodeId)
  | [] => return []
  | spec :: rest => do
    if spec.disabled then loadChildren c rest
    else
      let id ← loadNode c spec
      let ids ← loadChildren c rest
      return id :: ids
end

end Loader

/-- Loads a tree; the reports come with it, or with the error. -/
def Tree.load (registry : Registry) (compile : Compiler) (strict : Bool) (spec : TreeSpec) :
    Except LoadError Tree × List Report :=
  match (Loader.loadNode ⟨spec.name, registry, compile, strict⟩ spec.root).run.run {} with
  | (.ok root, state) =>
    (.ok { name := spec.name, desc := spec.desc, root, nodes := state.nodes },
      state.reports ++ [.treeLoaded spec.name state.nodes.size])
  | (.error e, state) => (.error e, state.reports)

end BehaviorTree
