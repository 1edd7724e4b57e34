import BehaviorTree.Engine.Knot
import BehaviorTree.Proofs.Stack.Clearing
import BehaviorTree.Proofs.Steps.Reading
import BehaviorTree.Proofs.World.Watch
import BehaviorTree.Workbench.Nodes

/-!
Trees of steps, whose leaves take some ticks each and then end, and the states in which such a tree is suspended: one
leaf waits, and the frames below it are those of the nodes above it in the tree, each with a payload. What is left to
be read can be told from these payloads.
-/

namespace BehaviorTree
set_option autoImplicit false

/-- A node of a tree of steps; leaves take their `ticks` and end with their `result`. -/
def Node.Scripted (n : Node) (ticks : NodeId → Nat) (result : NodeId → Status) : Prop :=
  match n.behavior with
  | .sequence | .selector | .switch | .case | .ifElse | .forEach | .loop _ | .invert | .always _ => True
  | .leaf react =>
    (∃ label, react = Workbench.stepLeaf label (ticks n.id) (result n.id)) ∧ result n.id ≠ .running
  | _ => False

def Node.Writes (n : Node) (name : String) : Prop :=
  match n.behavior with
  | .forEach => n.outputVar? 0 = some name ∨ n.outputVar? 1 = some name
  | .loop _ => n.outputVar? 0 = some name
  | .leaf _ => name = "trace"
  | _ => False

def Tree.Writes (t : Tree) (name : String) : Prop := ∃ id n, t.get? id = some n ∧ n.Writes name

/-- A tree of steps: cases stand below switches only, and the arrays that are gone through are in `vars`, in variables
that no node writes. -/
structure Tree.Scripted (t : Tree) (ticks : NodeId → Nat) (result : NodeId → Status) (vars : Variables) : Prop where
  node {id : NodeId} {n : Node} : t.get? id = some n → n.Scripted ticks result
  placed {id : NodeId} {n : Node} : t.get? id = some n → n.behavior = .case →
    ∃ p m, t.get? p = some m ∧ m.behavior = .switch ∧ id ∈ m.children
  array {id : NodeId} {n : Node} : t.get? id = some n → n.behavior = .forEach →
    ∃ name items, n.input[0]? = some name ∧ vars[name]? = some (.array items) ∧ ¬ t.Writes name

def Tree.isLeaf (t : Tree) (id : NodeId) : Bool :=
  match t.get? id with
  | some n => match n.behavior with
    | .leaf _ => true
    | _ => false
  | none => false

abbrev Visit := NodeId × Status

def Tree.visit? (t : Tree) : Activity → Option Visit
  | .returned id (some status) => if t.isLeaf id then some (id, status) else none
  | _ => none

def World.visits {σ : Type} (w : World σ) (t : Tree) (owner : Tag) : List Visit := (w.acts owner).filterMap t.visit?

/-- A tree of steps with all that its run depends on. -/
structure Script where
  tree : Tree
  orderly : tree.Orderly
  ticks : NodeId → Nat
  result : NodeId → Status
  vars : Variables
  scripted : tree.Scripted ticks result vars

abbrev Cell := NodeId × Payload

def Temps.place (temps : Temps) (cells : List Cell) : Temps :=
  cells.foldr (fun cell temps => temps.insert cell.1 cell.2) temps

namespace Script

variable (S : Script)

def reading (id : NodeId) : Reading := S.tree.reading S.orderly S.result S.vars id

noncomputable def rank (id : NodeId) : Nat := S.orderly.exists_rank.choose id

def visits (id : NodeId) : List Visit := List.replicate (S.ticks id) (id, .running) ++ [(id, S.result id)]

def play (r : Reading) : List Visit := r.completed.flatMap S.visits

def readings (n : Node) : List Reading := (S.tree.started n).map S.reading

/-- What is left of a node when the child that its payload names has ended. -/
def rest (n : Node) (p : Payload) (s : Status) : Reading := n.behavior.rest (n.rounds S.vars) (S.readings n) p s

def remaining : List Cell → Status → Reading
  | [], s => .finished s
  | (id, p) :: below, s =>
    match S.tree.get? id with
    | some n => (S.rest n p s).andThen (remaining below)
    | none => .finished s

def Saves (n : Node) (p : Payload) : Prop :=
  match n.behavior, p with
  | .sequence, .index _ | .selector, .index _ | .ifElse, .step _ => True
  | .switch, .step phase => phase / 2 < n.children.length
  | .loop _, .cursor round _ | .forEach, .cursor round _ => round < n.rounds S.vars
  | .invert, .marker | .always _, .marker => True
  | _, _ => False

/-- The nodes of `below` wait for each other, the first of them for `x`; the last node of all is `id`. -/
structure Path (id x : NodeId) (below : List Cell) : Prop where
  rising : (x :: below.map Prod.fst).Pairwise fun a b => S.rank a < S.rank b
  bottom : (x :: below.map Prod.fst).getLast? = some id
  saved : ∀ cell ∈ below, ∃ n, S.tree.get? cell.1 = some n ∧ S.Saves n cell.2

end Script

section Places

variable {temps : Temps} {cells : List Cell} {id k : NodeId} {p : Payload}

theorem Temps.place_cons (temps : Temps) (cell : Cell) (cells : List Cell) :
    temps.place (cell :: cells) = (temps.place cells).insert cell.1 cell.2 := rfl

theorem Temps.place_append (temps : Temps) (xs ys : List Cell) : temps.place (xs ++ ys) = (temps.place ys).place xs :=
  List.foldr_append

theorem Temps.get_place (h : k ∉ cells.map Prod.fst) : (temps.place cells)[k]? = temps[k]? := by
  induction cells with
  | nil => rfl
  | cons cell cells ih =>
    rw [List.map_cons, List.mem_cons, not_or] at h
    rw [place_cons, get_insert, if_neg (Ne.symm h.1), ih h.2]

theorem Temps.place_insert (temps : Temps) {cells : List Cell} (h : id ∉ cells.map Prod.fst) (p : Payload) :
    Temps.place (temps.insert id p) cells = (temps.place cells).insert id p := by
  induction cells with
  | nil => rfl
  | cons cell cells ih =>
    rw [List.map_cons, List.mem_cons, not_or] at h
    rw [place_cons, place_cons, ih h.2]
    refine Std.ExtTreeMap.ext_getElem? fun k => ?_
    by_cases hk : id = k
    · rw [get_insert, get_insert, get_insert, if_pos hk, if_neg (hk ▸ Ne.symm h.1), if_pos hk]
    · rw [get_insert, get_insert, get_insert, get_insert, if_neg hk, if_neg hk]

theorem Temps.insert_erase : (temps.erase id).insert id p = temps.insert id p := by
  refine Std.ExtTreeMap.ext_getElem? fun k => ?_
  by_cases hk : id = k
  · rw [get_insert, get_insert, if_pos hk, if_pos hk]
  · rw [get_insert, get_insert, get_erase, if_neg hk, if_neg hk, if_neg hk]

theorem Temps.erase_insert (h : temps[id]? = none) : (temps.insert id p).erase id = temps := by
  refine Std.ExtTreeMap.ext_getElem? fun k => ?_
  by_cases hk : id = k
  · rw [get_erase, if_pos hk, ← hk, h]
  · rw [get_erase, get_insert, if_neg hk, if_neg hk]

end Places

namespace Script

variable {S : Script} {n : Node} {x id : NodeId} {p : Payload} {s : Status} {below below' : List Cell}

theorem rank_lt (h : S.tree.get? id = some n) (hx : x ∈ S.tree.started n) : S.rank x < S.rank id :=
  S.orderly.rank_lt h hx

theorem reading_eq (h : S.tree.get? n.id = some n) :
    S.reading n.id = n.behavior.reading (n.rounds S.vars) ⟨S.result n.id, [n.id]⟩ (S.readings n) := Tree.reading_eq h

theorem rest_eq {b : Behavior} (hb : n.behavior = b) : S.rest n p = b.rest (n.rounds S.vars) (S.readings n) p := by
  rw [← hb]
  rfl

theorem play_append (r r' : Reading) (s : Status) :
    S.play ⟨s, r.completed ++ r'.completed⟩ = S.play r ++ S.play r' := List.flatMap_append

theorem remaining_cons (h : S.tree.get? n.id = some n) :
    S.remaining ((n.id, p) :: below) s = (S.rest n p s).andThen (S.remaining below) := by
  rw [remaining, h]

theorem remaining_append (h : ∀ cell ∈ below, ∃ n, S.tree.get? cell.1 = some n) :
    S.remaining (below ++ below') s = (S.remaining below s).andThen (S.remaining below') := by
  induction below generalizing s with
  | nil => rfl
  | cons cell below ih =>
    obtain ⟨n, hn⟩ := h cell List.mem_cons_self
    have hrest : ∀ s, S.remaining (below ++ below') s = (S.remaining below s).andThen (S.remaining below') := fun s =>
      ih fun cell hc => h cell (List.mem_cons_of_mem _ hc)
    rw [List.cons_append, remaining, remaining, hn]
    simp only
    rw [Reading.andThen_assoc]
    exact congrArg _ (funext hrest)

section Saving

-- The table in `Saves` is told for each kind of node here; proofs about such a node need not open it.

theorem saves_chain (hb : n.behavior = .sequence ∨ n.behavior = .selector) : S.Saves n p ↔ ∃ i, p = .index i := by
  unfold Saves
  rcases hb with hb | hb <;> rw [hb] <;> cases p <;> simp

theorem saves_ifElse (hb : n.behavior = .ifElse) : S.Saves n p ↔ ∃ position, p = .step position := by
  unfold Saves
  rw [hb]
  cases p <;> simp

theorem saves_switch (hb : n.behavior = .switch) :
    S.Saves n p ↔ ∃ phase, p = .step phase ∧ phase / 2 < n.children.length := by
  unfold Saves
  rw [hb]
  cases p <;> simp

theorem saves_rounds (hb : n.behavior = .forEach ∨ ∃ count, n.behavior = .loop count) :
    S.Saves n p ↔ ∃ round i, p = .cursor round i ∧ round < n.rounds S.vars := by
  unfold Saves
  rcases hb with hb | ⟨_, hb⟩ <;> rw [hb] <;> cases p <;> simp

theorem saves_wrap (hb : n.behavior = .invert ∨ ∃ status, n.behavior = .always status) :
    S.Saves n p ↔ p = .marker := by
  unfold Saves
  rcases hb with hb | ⟨_, hb⟩ <;> rw [hb] <;> cases p <;> simp

end Saving

namespace Path

theorem single (x : NodeId) : S.Path x x [] := ⟨by simp, by simp, by simp⟩

theorem mem (h : S.Path id x below) : id ∈ x :: below.map Prod.fst := List.mem_of_getLast? h.bottom

theorem rank_le (h : S.Path id x below) {y : NodeId} (hy : y ∈ x :: below.map Prod.fst) : S.rank y ≤ S.rank id := by
  obtain ⟨init, heq⟩ := List.getLast?_eq_some_iff.mp h.bottom
  have hrising := heq ▸ h.rising
  rcases List.mem_append.mp (heq ▸ hy) with hy | hy
  · exact Nat.le_of_lt ((List.pairwise_append.mp hrising).2.2 y hy id (by simp))
  · exact Nat.le_of_eq (by rw [List.mem_singleton.mp hy])

/-- A path is continued by another that begins where it ends. -/
theorem trans {y : NodeId} (h : S.Path y x below) (h' : S.Path id y below') : S.Path id x (below ++ below') := by
  have hrising := List.pairwise_cons.mp h'.rising
  refine ⟨?_, ?_, ?_⟩
  · rw [List.map_append, ← List.cons_append]
    exact List.pairwise_append.mpr
      ⟨h.rising, hrising.2, fun a ha b hb => Nat.lt_of_le_of_lt (h.rank_le ha) (hrising.1 b hb)⟩
  · have hbottom := h'.bottom
    rw [List.map_append, ← List.cons_append, List.getLast?_append, h.bottom]
    rw [List.getLast?_cons] at hbottom
    rw [← hbottom]
    cases (below'.map Prod.fst).getLast? <;> rfl
  · intro cell hc
    exact (List.mem_append.mp hc).elim (h.saved cell) (h'.saved cell)

/-- A node that starts the one for which the path ends comes to wait below it. -/
theorem snoc (h : S.Path id x below) (hn : S.tree.get? n.id = some n) (hp : S.Saves n p)
    (hb : S.rank id < S.rank n.id) :
    S.Path n.id x (below ++ [(n.id, p)]) := by
  refine h.trans ⟨by simpa using hb, by simp, ?_⟩
  intro cell hc
  obtain rfl : cell = (n.id, p) := by simpa using hc
  exact ⟨n, hn, hp⟩

theorem tail {y : NodeId} {q : Payload} (h : S.Path id x ((y, q) :: below)) : S.Path id y below :=
  ⟨(List.pairwise_cons.mp h.rising).2, by simpa using h.bottom, fun cell hc => h.saved cell (List.mem_cons_of_mem _ hc)⟩

theorem length_le (h : S.Path id x below) : below.length + S.rank x ≤ S.rank id := by
  induction below generalizing x with
  | nil => simpa using h.rank_le List.mem_cons_self
  | cons cell below ih =>
    have hlt : S.rank x < S.rank cell.1 := (List.pairwise_cons.mp h.rising).1 cell.1 (by simp)
    have hle := ih h.tail
    rw [List.length_cons]
    omega

theorem not_mem (h : S.Path id x below) : x ∉ below.map Prod.fst := fun hx =>
  Nat.lt_irrefl _ ((List.pairwise_cons.mp h.rising).1 x hx)

end Path

end Script

end BehaviorTree
