import BehaviorTree.Ident
import BehaviorTree.Value

/-!
Suspended nodes. A node that has to go on later stays on a stack of frames and leaves a payload under its id;
popping the frame forgets the payload. Payloads of composites may hold whole stacks of their own, and clearing
a stack follows those down.
-/

namespace BehaviorTree
set_option autoImplicit false

inductive Status where
  | success
  | failure
  /-- To be resumed in a later tick. -/
  | running
  deriving DecidableEq, Repr, Inhabited

def Status.text : Status → String
  | .success => "success"
  | .failure => "failure"
  | .running => "running"

/-- Frames of suspended nodes, the deepest first. -/
structure Stack where
  frames : List NodeId := []
  deriving DecidableEq, Repr, Inhabited

inductive Payload where
  /-- Nothing but the fact. -/
  | marker
  /-- The child that is running. -/
  | index (child : Nat)
  /-- The phase of a node that goes through phases. -/
  | step (phase : Nat)
  /-- The pass over the children and the child that is running in it. -/
  | cursor (iteration child : Nat)
  /-- How many runs of the child are complete, and whether it is suspended now. -/
  | repeated (done : Nat) (childRunning : Bool)
  /-- The stacks of children that run side by side; none for a child that has finished. -/
  | branches (saved : List (Option Stack))
  /-- The stack of a guarded child. -/
  | guarded (saved : Stack)
  /-- The stack of a child with the time at which it is given up. -/
  | deadline (expiry : Float) (saved : Stack)
  /-- The time at which a wait ends. -/
  | wakeAt (time : Float)
  /-- State in any form, for leaves. -/
  | value (v : Value)
  deriving Inhabited

/-- The payloads of suspended nodes. -/
abbrev Temps := Std.ExtTreeMap NodeId Payload

namespace Payload

def nested : Payload → List Stack
  | branches saved => saved.filterMap id
  | guarded saved => [saved]
  | deadline _ saved => [saved]
  | _ => []

def nestedFrames (p : Payload) : List NodeId := p.nested.flatMap Stack.frames

end Payload

namespace Stack

instance : EmptyCollection Stack := ⟨⟨[]⟩⟩

def isEmpty (s : Stack) : Bool := s.frames.isEmpty

def size (s : Stack) : Nat := s.frames.length

def top? (s : Stack) : Option NodeId := s.frames.head?

def push (s : Stack) (id : NodeId) : Stack := ⟨id :: s.frames⟩

/-- The frames from the root side on. -/
def toList (s : Stack) : List NodeId := s.frames.reverse

def levelOf? (s : Stack) (id : NodeId) : Option Nat := s.toList.findIdx? (· == id)

def pop (s : Stack) (temps : Temps) : Stack × Temps :=
  match s.frames with
  | [] => (s, temps)
  | id :: rest => (⟨rest⟩, temps.erase id)

/-- Cuts the frames at or above a level off: what stays, and what is cut. -/
def splitAt (s : Stack) (level : Nat) : Stack × Stack :=
  (⟨s.frames.drop (s.size - level)⟩, ⟨s.frames.take (s.size - level)⟩)

def append (s above : Stack) : Stack := ⟨above.frames ++ s.frames⟩

instance : Append Stack := ⟨append⟩

@[simp] theorem size_empty : (∅ : Stack).size = 0 := rfl

@[simp] theorem size_push (s : Stack) (id : NodeId) : (s.push id).size = s.size + 1 := rfl

@[simp] theorem top?_push (s : Stack) (id : NodeId) : (s.push id).top? = some id := rfl

@[simp] theorem toList_push (s : Stack) (id : NodeId) : (s.push id).toList = s.toList ++ [id] := by
  simp [toList, push]

@[simp] theorem frames_append (s above : Stack) : (s ++ above).frames = above.frames ++ s.frames := rfl

@[simp] theorem toList_append (s above : Stack) : (s ++ above).toList = s.toList ++ above.toList := by
  simp [toList]

@[simp] theorem size_append (s above : Stack) : (s ++ above).size = s.size + above.size := by
  simp [size, Nat.add_comm]

theorem append_splitAt (s : Stack) (level : Nat) : (s.splitAt level).1 ++ (s.splitAt level).2 = s := by
  cases s with
  | mk frames => exact congrArg Stack.mk (List.take_append_drop _ frames)

/-- Cutting where a stack was put on top gives both parts back. -/
theorem splitAt_append (s above : Stack) : (s ++ above).splitAt s.size = (s, above) := by
  cases s with
  | mk below =>
    cases above with
    | mk frames => simp [splitAt, size]

theorem size_splitAt (s : Stack) (level : Nat) : (s.splitAt level).1.size = min level s.size := by
  simp only [splitAt, size, List.length_drop]
  omega

def firstLive? (temps : Temps) : List NodeId → Option (NodeId × Payload × List NodeId)
  | [] => none
  | id :: rest =>
    match temps[id]? with
    | some payload => some (id, payload, rest)
    | none => firstLive? temps rest

/-- Forgets the payloads of frames one after the other, and those of the frames of stacks saved inside them.
Each round forgets one payload, so `rounds` need not exceed their number. -/
def sweep : (rounds : Nat) → List NodeId → Temps → Temps
  | 0, _, temps => temps
  | rounds + 1, frames, temps =>
    match firstLive? temps frames with
    | none => temps
    | some (id, payload, rest) => sweep rounds (payload.nestedFrames ++ rest) (temps.erase id)

/-- Forgets every payload that the frames of a stack lead to. -/
def clear (s : Stack) (temps : Temps) : Temps := sweep temps.size s.frames temps

end Stack

end BehaviorTree
