import BehaviorTree.Document
import BehaviorTree.Tree

/-!
Node types by name. A type consists of its description and of the way in which a node of it is configured from its
document.
-/

namespace BehaviorTree
set_option autoImplicit false

/-- The expression of a text. -/
abbrev Compiler := String → Except ExprError Expression

structure NodeType where
  kind : NodeKind
  /-- The behavior of a node with this configuration, whose arguments have their declared types. -/
  configure : Compiler → NodeSpec → Except InitError Behavior

/-- Node types by the name under which documents ask for them. -/
structure Registry where
  types : Std.ExtTreeMap String NodeType := ∅

namespace Registry

instance : EmptyCollection Registry := ⟨{}⟩

def get? (r : Registry) (name : String) : Option NodeType := r.types[name]?

/-- Files a type under a name, in place of any other. -/
def registerAs (r : Registry) (name : String) (t : NodeType) : Registry := ⟨r.types.insert name t⟩

theorem get?_registerAs (r : Registry) (name key : String) (t : NodeType) :
    (r.registerAs name t).get? key = if name = key then some t else r.get? key := by
  simp [get?, registerAs, Std.ExtTreeMap.getElem?_insert]

/-- Files a type under the name that its description gives. -/
def register (r : Registry) (t : NodeType) : Registry := r.registerAs t.kind.name t

def contains (r : Registry) (name : String) : Bool := r.types.contains name

/-- The names in ascending order. -/
def names (r : Registry) : List String := r.types.keys

end Registry

end BehaviorTree
