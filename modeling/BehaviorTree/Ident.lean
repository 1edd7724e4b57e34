import Std.Data.ExtTreeMap
import Std.Data.ExtTreeSet

/-!
The keys under which the engine files things: nodes, owners of subscriptions and delays, the subscriptions and
delays themselves, private variables and events. All are ordered, so that maps over them are extensional.
-/

namespace BehaviorTree
set_option autoImplicit false

open Std

theorem lawfulEqCmp_compareOn {α β : Type} [Ord β] [LawfulEqOrd β] {f : α → β}
    (hf : ∀ {a b : α}, f a = f b → a = b) : LawfulEqCmp (compareOn f) where
  eq_of_compare h := hf (LawfulEqOrd.eq_of_compare h)
  compare_self := ReflOrd.compare_self

/-- An order by one part, then by another, tells keys apart that no two parts share. -/
theorem lawfulEqCmp_compareLex {α β γ : Type} [Ord β] [LawfulEqOrd β] [Ord γ] [LawfulEqOrd γ]
    {f : α → β} {g : α → γ} (hfg : ∀ {a b : α}, f a = f b → g a = g b → a = b) :
    LawfulEqCmp (compareLex (compareOn f) (compareOn g)) where
  eq_of_compare h := by
    rw [compareLex_eq_eq] at h
    exact hfg (LawfulEqOrd.eq_of_compare h.1) (LawfulEqOrd.eq_of_compare h.2)
  compare_self := by
    intro a
    rw [compareLex_eq_eq]
    exact ⟨ReflOrd.compare_self, ReflOrd.compare_self⟩

/-- The authored id of a node, unique within its tree. -/
structure NodeId where
  val : UInt32
  deriving DecidableEq, Repr, Inhabited

namespace NodeId

instance : Ord NodeId := ⟨compareOn val⟩
instance : TransOrd NodeId := inferInstanceAs (TransCmp (compareOn val))
instance : LawfulEqOrd NodeId := lawfulEqCmp_compareOn (f := val) fun {a b} h => by cases a; cases b; simp_all

instance : ToString NodeId := ⟨fun id => toString id.val⟩

end NodeId

/-- The owner of subscriptions and delays. Every instance of a tree has one of its own, and is known by it. -/
structure Tag where
  index : Nat
  deriving DecidableEq, Repr, Inhabited

namespace Tag

instance : Ord Tag := ⟨compareOn index⟩
instance : TransOrd Tag := inferInstanceAs (TransCmp (compareOn index))
instance : LawfulEqOrd Tag := lawfulEqCmp_compareOn (f := index) fun {a b} h => by cases a; cases b; simp_all

/-- The text by which events are addressed to an instance. -/
def text (t : Tag) : String := "tree-instance-" ++ toString t.index

end Tag

/-- Counts subscriptions in the order in which they are made. -/
structure SubscriptionId where
  index : Nat
  deriving DecidableEq, Repr, Inhabited

namespace SubscriptionId

instance : Ord SubscriptionId := ⟨compareOn index⟩
instance : TransOrd SubscriptionId := inferInstanceAs (TransCmp (compareOn index))
instance : LawfulEqOrd SubscriptionId :=
  lawfulEqCmp_compareOn (f := index) fun {a b} h => by cases a; cases b; simp_all

end SubscriptionId

structure DelayId where
  index : Nat
  deriving DecidableEq, Repr, Inhabited

namespace DelayId

instance : Ord DelayId := ⟨compareOn index⟩
instance : TransOrd DelayId := inferInstanceAs (TransCmp (compareOn index))
instance : LawfulEqOrd DelayId := lawfulEqCmp_compareOn (f := index) fun {a b} h => by cases a; cases b; simp_all

end DelayId

structure PrivateKey where
  node : NodeId
  name : String
  deriving DecidableEq, Repr

namespace PrivateKey

instance : Ord PrivateKey := ⟨compareLex (compareOn node) (compareOn name)⟩
instance : TransOrd PrivateKey := inferInstanceAs (TransCmp (compareLex (compareOn node) (compareOn name)))
instance : LawfulEqOrd PrivateKey :=
  lawfulEqCmp_compareLex (f := node) (g := name) fun {a b} h k => by cases a; cases b; simp_all

end PrivateKey

/-- What a subscription listens to: an event's name, and the target it is addressed to or none. -/
structure EventKey where
  name : String
  target : Option String
  deriving DecidableEq, Repr

namespace EventKey

instance : Ord EventKey := ⟨compareLex (compareOn name) (compareOn target)⟩
instance : TransOrd EventKey := inferInstanceAs (TransCmp (compareLex (compareOn name) (compareOn target)))
instance : LawfulEqOrd EventKey :=
  lawfulEqCmp_compareLex (f := name) (g := target) fun {a b} h k => by cases a; cases b; simp_all

end EventKey

end BehaviorTree
