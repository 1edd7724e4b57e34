import BehaviorTree.Ident
import BehaviorTree.Binary64

/-!
One-shot callbacks that wait for a time on the clock. Those that are due are taken all at once, the earliest first
and among equals the one scheduled first.
-/

namespace BehaviorTree
set_option autoImplicit false

open Std

structure PendingDelay (κ : Type) where
  expiry : Float
  tag : Tag
  callback : κ

/-- Pending callbacks in `κ`, filed by id and by the tag that owns them. -/
structure Delays (κ : Type) where
  nextIndex : Nat := 0
  pending : ExtTreeMap DelayId (PendingDelay κ) := ∅
  /-- The ids of each owner; no owner has an empty set. -/
  byTag : ExtTreeMap Tag (ExtTreeSet DelayId) := ∅

namespace Delays

variable {κ : Type}

instance : EmptyCollection (Delays κ) := ⟨{}⟩

def schedule (d : Delays κ) (expiry : Float) (tag : Tag) (callback : κ) : DelayId × Delays κ :=
  let id : DelayId := ⟨d.nextIndex⟩
  (id,
    { nextIndex := d.nextIndex + 1
      pending := d.pending.insert id ⟨expiry, tag, callback⟩
      byTag := d.byTag.insert tag ((d.byTag.getD tag ∅).insert id) })

def unfileTag (byTag : ExtTreeMap Tag (ExtTreeSet DelayId)) (tag : Tag) (id : DelayId) :
    ExtTreeMap Tag (ExtTreeSet DelayId) :=
  match byTag[tag]? with
  | none => byTag
  | some ids =>
    let ids := ids.erase id
    if ids.isEmpty then byTag.erase tag else byTag.insert tag ids

/-- Takes a pending callback out, if there is one of this id. -/
def take (d : Delays κ) (id : DelayId) : Option κ × Delays κ :=
  match d.pending[id]? with
  | none => (none, d)
  | some entry =>
    (some entry.callback,
      { d with pending := d.pending.erase id, byTag := unfileTag d.byTag entry.tag id })

/-- Cancels a delay; says whether it was pending. -/
def cancel (d : Delays κ) (id : DelayId) : Bool × Delays κ :=
  let (found, d) := d.take id
  (found.isSome, d)

def takeEach (d : Delays κ) : List DelayId → List κ × Delays κ
  | [] => ([], d)
  | id :: ids =>
    let (found, d) := d.take id
    let (callbacks, d) := d.takeEach ids
    (found.toList ++ callbacks, d)

/-- Drops several pending callbacks that are in the set of no owner any more, and counts those that there were. -/
def dropEach (d : Delays κ) : List DelayId → Nat × Delays κ
  | [] => (0, d)
  | id :: ids =>
    match d.pending[id]? with
    | none => d.dropEach ids
    | some _ =>
      let (count, d) := dropEach { d with pending := d.pending.erase id } ids
      (count + 1, d)

def cancelOwner (d : Delays κ) (tag : Tag) : Nat × Delays κ :=
  let ids := (d.byTag.getD tag ∅).toList
  dropEach { d with byTag := d.byTag.erase tag } ids

/-- Earlier expiry first, then the smaller id. -/
def comesBefore (a b : Float × DelayId) : Bool :=
  match compare (Binary64.orderKey a.1) (Binary64.orderKey b.1) with
  | .lt => true
  | .gt => false
  | .eq => a.2.index ≤ b.2.index

/-- The ids that are due at a time, in the order in which they fire. -/
def due (d : Delays κ) (now : Float) : List DelayId :=
  let ready := d.pending.toList.filterMap fun (id, entry) =>
    if entry.expiry ≤ now then some (entry.expiry, id) else none
  (ready.mergeSort comesBefore).map (·.2)

def takeDue (d : Delays κ) (now : Float) : List κ × Delays κ := d.takeEach (d.due now)

/-- How many delays of an owner are pending. -/
def count (d : Delays κ) (tag : Tag) : Nat := (d.byTag.getD tag ∅).size

end Delays

end BehaviorTree
