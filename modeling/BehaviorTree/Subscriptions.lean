import BehaviorTree.Ident
import BehaviorTree.Value

/-!
Subscriptions to events, filed three ways: by id, by the event and target that they hear, and by the tag that owns
them. Events reach the subscriptions of exactly their name and target in the order in which those were made.
-/

namespace BehaviorTree
set_option autoImplicit false

open Std

structure Event where
  name : String
  target : Option String
  args : List Value

/-- The events that the runner of a tree dispatches about itself, addressed to its tag. -/
inductive Lifecycle where
  | beforeRun
  | afterRun
  | afterRunSuccess
  | afterRunFailure
  | interrupted
  | cleaned
  deriving DecidableEq, Repr

namespace Lifecycle

def all : List Lifecycle := [beforeRun, afterRun, afterRunSuccess, afterRunFailure, interrupted, cleaned]

def name : Lifecycle → String
  | beforeRun => "before_run"
  | afterRun => "after_run"
  | afterRunSuccess => "after_run_success"
  | afterRunFailure => "after_run_failure"
  | interrupted => "interrupted"
  | cleaned => "cleaned"

def ofName? (name : String) : Option Lifecycle := all.find? (·.name == name)

end Lifecycle

structure Subscription (κ : Type) where
  key : EventKey
  tag : Tag
  callback : κ

/-- Subscriptions with callbacks in `κ`. -/
structure Subscriptions (κ : Type) where
  nextIndex : Nat := 0
  entries : ExtTreeMap SubscriptionId (Subscription κ) := ∅
  /-- The ids of each key, oldest first; no key has an empty list. -/
  byKey : ExtTreeMap EventKey (List SubscriptionId) := ∅
  /-- The ids of each owner; no owner has an empty set. -/
  byTag : ExtTreeMap Tag (ExtTreeSet SubscriptionId) := ∅

namespace Subscriptions

variable {κ : Type}

instance : EmptyCollection (Subscriptions κ) := ⟨{}⟩

def add (s : Subscriptions κ) (key : EventKey) (tag : Tag) (callback : κ) : SubscriptionId × Subscriptions κ :=
  let id : SubscriptionId := ⟨s.nextIndex⟩
  (id,
    { nextIndex := s.nextIndex + 1
      entries := s.entries.insert id ⟨key, tag, callback⟩
      byKey := s.byKey.insert key (s.byKey.getD key [] ++ [id])
      byTag := s.byTag.insert tag ((s.byTag.getD tag ∅).insert id) })

def unfileKey (byKey : ExtTreeMap EventKey (List SubscriptionId)) (key : EventKey) (id : SubscriptionId) :
    ExtTreeMap EventKey (List SubscriptionId) :=
  match byKey[key]? with
  | none => byKey
  | some ids =>
    let ids := ids.filter (· != id)
    if ids.isEmpty then byKey.erase key else byKey.insert key ids

def unfileTag (byTag : ExtTreeMap Tag (ExtTreeSet SubscriptionId)) (tag : Tag) (id : SubscriptionId) :
    ExtTreeMap Tag (ExtTreeSet SubscriptionId) :=
  match byTag[tag]? with
  | none => byTag
  | some ids =>
    let ids := ids.erase id
    if ids.isEmpty then byTag.erase tag else byTag.insert tag ids

/-- Removes a subscription; says whether there was one. -/
def remove (s : Subscriptions κ) (id : SubscriptionId) : Bool × Subscriptions κ :=
  match s.entries[id]? with
  | none => (false, s)
  | some entry =>
    (true,
      { s with
        entries := s.entries.erase id
        byKey := unfileKey s.byKey entry.key id
        byTag := unfileTag s.byTag entry.tag id })

def removeEach (s : Subscriptions κ) : List SubscriptionId → Nat × Subscriptions κ
  | [] => (0, s)
  | id :: ids =>
    let (found, s) := s.remove id
    let (count, s) := s.removeEach ids
    (if found then count + 1 else count, s)

def ownedBy (s : Subscriptions κ) (tag : Tag) : List SubscriptionId := (s.byTag.getD tag ∅).toList

/-- Removes the subscriptions of an owner to an event, whatever their target, and counts them. -/
def removeEvent (s : Subscriptions κ) (event : String) (tag : Tag) : Nat × Subscriptions κ :=
  s.removeEach ((s.ownedBy tag).filter fun id => (s.entries[id]?).any (·.key.name == event))

/-- Removes several subscriptions that are in the set of no owner any more, and counts those that there were. -/
def strikeEach (s : Subscriptions κ) : List SubscriptionId → Nat × Subscriptions κ
  | [] => (0, s)
  | id :: ids =>
    match s.entries[id]? with
    | none => s.strikeEach ids
    | some entry =>
      let (count, s) := strikeEach
        { s with
          entries := s.entries.erase id
          byKey := unfileKey s.byKey entry.key id } ids
      (count + 1, s)

def removeOwner (s : Subscriptions κ) (tag : Tag) : Nat × Subscriptions κ :=
  let ids := s.ownedBy tag
  strikeEach { s with byTag := s.byTag.erase tag } ids

/-- The callbacks that hear an event with this target, oldest first. -/
def callbacks (s : Subscriptions κ) (key : EventKey) : List κ :=
  (s.byKey.getD key []).filterMap fun id => (s.entries[id]?).map (·.callback)

/-- How many subscriptions an owner has. -/
def count (s : Subscriptions κ) (tag : Tag) : Nat := (s.byTag.getD tag ∅).size

end Subscriptions

end BehaviorTree
