import BehaviorTree.Loader

/-!
What the host of a world may do with it, step by step, and so what its callbacks may do: a program is a sequence of
operations, each with the rest of the program as a function of its result. The host keeps a state `σ` of its own.
-/

namespace BehaviorTree
set_option autoImplicit false

structure Overview (σ : Type) where
  host : σ
  time : Float
  compile : Compiler
  tree : Tag → Tree
  env : Tag → Env
  executing : Tag → Bool
  /-- How many subscriptions an owner has. -/
  subscriptions : Tag → Nat
  /-- How many delays of an owner are pending. -/
  delays : Tag → Nat

inductive Program (σ : Type) where
  | done
  | look (next : Overview σ → Program σ)
  /-- Replaces the host's own state. -/
  | store (host : σ) (next : Program σ)
  /-- Leaves a note in the journal. -/
  | note (v : Value) (next : Program σ)
  | load (spec : TreeSpec) (strict : Bool) (next : Except LoadError Tree → Program σ)
  /-- Makes a function the meaning of an expression's text from now on. -/
  | install (code : String) (f : Lookup → Except ExprError Value) (next : Program σ)
  | newTag (next : Tag → Program σ)
  /-- Makes an instance of a tree. -/
  | create (tree : Tree) (vars : Variables) (next : Tag → Program σ)
  /-- Runs one tick of an instance. -/
  | run (owner : Tag) (next : Except RunError Status → Program σ)
  | interrupt (owner : Tag) (next : Program σ)
  | clear (owner : Tag) (next : Program σ)
  | setTree (owner : Tag) (tree : Tree) (next : Except RunError Unit → Program σ)
  | setVar (owner : Tag) (name : String) (value : Option Value) (next : Program σ)
  /-- Gives an instance up. -/
  | drop (owner : Tag) (next : Program σ)
  /-- Advances the clock. -/
  | update (dt : Float) (next : Program σ)
  | dispatch (key : EventKey) (args : List Value) (next : Nat → Program σ)
  | subscribe (key : EventKey) (tag : Tag) (callback : Event → Program σ) (next : SubscriptionId → Program σ)
  | unsubscribe (id : SubscriptionId) (next : Bool → Program σ)
  | unsubscribeEvent (event : String) (tag : Tag) (next : Nat → Program σ)
  /-- Removes all subscriptions and delays of an owner. -/
  | release (tag : Tag) (next : Program σ)
  | delay (time : Float) (tag : Tag) (callback : Program σ) (next : DelayId → Program σ)
  | cancel (id : DelayId) (next : Bool → Program σ)

end BehaviorTree
