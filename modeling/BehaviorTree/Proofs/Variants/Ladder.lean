import BehaviorTree.Proofs.Variants.Hosts
import BehaviorTree.Proofs.Variants.Solos

/-!
A switch over cases, and a chain of nodes that each decide by the condition of a case between its action and the next
node of the chain, up to a leaf that always fails. The two are variants of a tree that have the conditions and actions
in common. Where the switch saves the number of a phase, as many nodes of the chain as it has come to are suspended one
above the other, and each of them has saved how far it is itself.
-/

namespace BehaviorTree
set_option autoImplicit false

open TickM

variable {σ : Type}

/-- A case of a switch, and the node of a chain that decides by the same condition. -/
structure Rung where
  case : Node
  link : Node
  test : NodeId
  action : NodeId

/-- A switch at the root of one tree, and a chain of links in its place. -/
structure Ladder where
  owner : Tag
  tree : Tree
  tree' : Tree
  switch : Node
  rungs : List Rung
  last : Node
  shared : NodeId → Bool
  /-- Which of the two may run out of depth before the other one. -/
  early : Prop
  late : Prop

/-- How far a switch is: in the condition of a case or in its action. -/
def Engine.phaseOf (case : Nat) (acting : Bool) : Nat :=
  if acting then Engine.actionPhase case else Engine.conditionPhase case

def Engine.stageOf (acting : Bool) : Nat := if acting then 1 else 0

namespace Ladder

variable (L : Ladder)

def entry : List Rung → NodeId
  | [] => L.last.id
  | r :: _ => r.link.id

def links (rungs : List Rung) : List NodeId := (rungs.map (·.link.id)).reverse

/-- Some links, and the leaf behind the last of them, are not suspended. -/
structure Fresh (rungs : List Rung) (G : Ground) : Prop where
  link {r : Rung} : r ∈ rungs → G.there[r.link.id]? = none
  last : G.there[L.last.id]? = none

/-- The switch is suspended in a case, counted from `case` on, and so are the links up to the one of that case. -/
structure Paused (case : Nat) (passed : List Rung) (r : Rung) (rest : List Rung) (acting : Bool) (G : Ground) : Prop where
  switch : G.here[L.switch.id]? = some (.step (Engine.phaseOf (case + passed.length) acting))
  passed {b : Rung} : b ∈ passed → G.there[b.link.id]? = some (.step 2)
  link : G.there[r.link.id]? = some (.step (Engine.stageOf acting))
  fresh : L.Fresh rest G

inductive Stands (G : Ground) : List NodeId → List NodeId → Prop where
  | idle : G.here[L.switch.id]? = none → L.Fresh L.rungs G → Stands G [] []
  | paused {passed rest : List Rung} {r : Rung} {acting : Bool} : L.rungs = passed ++ r :: rest →
      L.Paused 0 passed r rest acting G → Stands G [L.switch.id] (links (passed ++ [r]))

/-- The switch and the chain as variants of a tree. One call of the switch may take a call of every link and of the leaf
behind them. -/
def both : Variants where
  owner := L.owner
  tree := L.tree
  tree' := L.tree'
  shared := L.shared
  stands := L.Stands
  early := L.early
  late := L.late
  factor := L.rungs.length + 1

/-- The two trees hold a switch and a chain over the same conditions and actions. -/
structure Built : Prop where
  orderly : L.tree.Orderly
  switch : L.tree.get? L.switch.id = some L.switch
  behavior : L.switch.behavior = .switch
  children : L.switch.children = L.rungs.map (·.case.id)
  root : L.tree.root = L.switch.id
  root' : L.tree'.root = L.entry L.rungs
  case {r : Rung} : r ∈ L.rungs → L.tree.get? r.case.id = some r.case ∧ r.case.children = [r.test, r.action]
  link {before rest : List Rung} {r : Rung} : L.rungs = before ++ r :: rest →
    L.tree'.get? r.link.id = some r.link ∧ r.link.behavior = .ifElse ∧ r.link.children = [r.test, r.action, L.entry rest]
  last : L.tree'.get? L.last.id = some L.last
  fails : ∃ react, L.last.behavior = .leaf react ∧ ∀ m, react m = { ending := .finish .failure }
  branch {r : Rung} : r ∈ L.rungs → L.shared r.test ∧ L.shared r.action
  there {id : NodeId} : L.shared id → ∃ n, L.tree.get? id = some n ∧ L.tree'.get? id = some n
  child {id c : NodeId} {n : Node} : L.shared id → L.tree.get? id = some n → c ∈ n.children → L.shared c
  switch_apart : ¬ L.shared L.switch.id
  last_apart : ¬ L.shared L.last.id
  link_apart {r : Rung} : r ∈ L.rungs → ¬ L.shared r.link.id ∧ r.link.id ≠ L.last.id
  distinct : (L.rungs.map (·.link.id)).Nodup

variable {L} {G G' : Ground} {before passed rest : List Rung} {r : Rung} {x : NodeId} {case : Nat} {acting : Bool}

theorem mem_links {rungs : List Rung} : x ∈ links rungs ↔ ∃ r ∈ rungs, r.link.id = x := by
  rw [links, List.mem_reverse, List.mem_map]

@[simp] theorem links_cons (r : Rung) (rungs : List Rung) : links (r :: rungs) = links rungs ++ [r.link.id] := by
  rw [links, List.map_cons, List.reverse_cons, links]

@[simp] theorem links_snoc (rungs : List Rung) (r : Rung) : links (rungs ++ [r]) = r.link.id :: links rungs := by
  rw [links, List.map_append, List.reverse_append]
  rfl

theorem links_append (rungs more : List Rung) : links (rungs ++ more) = links more ++ links rungs := by
  rw [links, List.map_append, List.reverse_append, links, links]

theorem phase_half (case : Nat) (acting : Bool) : Engine.phaseOf case acting / 2 = case := by
  cases acting
  · exact Nat.mul_div_cancel case Nat.two_pos
  · simp only [Engine.phaseOf, Engine.actionPhase, if_true]
    omega

theorem phase_acting (case : Nat) (acting : Bool) : Engine.phaseOf case acting = Engine.actionPhase case ↔ acting = true := by
  cases acting with
  | true => exact ⟨fun _ => rfl, fun _ => rfl⟩
  | false =>
    refine ⟨fun h => ?_, fun h => by cases h⟩
    have hodd : case * 2 = case * 2 + 1 := h
    omega

theorem Fresh.congr {rungs : List Rung} (h : L.Fresh rungs G) (hlink : ∀ r ∈ rungs, G'.there[r.link.id]? = G.there[r.link.id]?)
    (hlast : G'.there[L.last.id]? = G.there[L.last.id]?) : L.Fresh rungs G' :=
  ⟨fun hr => (hlink _ hr).trans (h.link hr), hlast.trans h.last⟩

theorem Fresh.erase (h : L.Fresh rest G) (r : Rung) (here : Temps) :
    L.Fresh (r :: rest) ⟨here, G.there.erase r.link.id⟩ := by
  have hgone : ∀ {x : NodeId}, G.there[x]? = none → (G.there.erase r.link.id)[x]? = none := fun hx => by
    rw [Temps.get_erase, hx, ite_self]
  refine ⟨fun {c} hc => ?_, hgone h.last⟩
  rcases List.mem_cons.mp hc with rfl | hc
  · exact (Temps.get_erase _ _ _).trans (if_pos rfl)
  · exact hgone (h.link hc)

theorem Paused.append (h : L.Paused before.length passed r rest acting G)
    (hbefore : ∀ b ∈ before, G.there[b.link.id]? = some (.step 2)) : L.Paused 0 (before ++ passed) r rest acting G := by
  refine ⟨?_, fun hb => ?_, h.link, h.fresh⟩
  · rw [Nat.zero_add, List.length_append]
    exact h.switch
  · exact (List.mem_append.mp hb).elim (hbefore _) h.passed

namespace Built

variable (hL : L.Built)
include hL

omit hL in
theorem rung_mem (hr : L.rungs = before ++ r :: rest) : r ∈ L.rungs := by
  rw [hr]
  exact List.mem_append_right _ List.mem_cons_self

theorem links_apart (hr : L.rungs = before ++ rest) {a b : Rung} (ha : a ∈ before) (hb : b ∈ rest) :
    a.link.id ≠ b.link.id := by
  have hnodup := hL.distinct
  rw [hr, List.map_append] at hnodup
  exact fun heq => List.disjoint_of_nodup_append hnodup (List.mem_map_of_mem ha) (heq ▸ List.mem_map_of_mem hb)

theorem link_ne (hr : L.rungs = before ++ r :: rest) {b : Rung} (hb : b ∈ rest) : r.link.id ≠ b.link.id :=
  hL.links_apart (show L.rungs = (before ++ [r]) ++ rest by rw [hr, List.append_assoc]; rfl) (List.mem_append_right _ List.mem_cons_self) hb

theorem starts (hr : r ∈ L.rungs) {id : NodeId} (hid : id = r.test ∨ id = r.action) : L.tree.Starts L.switch.id id := by
  obtain ⟨hcase, hchildren⟩ := hL.case hr
  refine ⟨L.switch, hL.switch, ?_⟩
  rw [Tree.started, hL.behavior]
  refine List.mem_flatMap.mpr ⟨r.case.id, ?_, Tree.mem_pair.mpr ⟨r.case, hcase, ?_⟩⟩
  · rw [hL.children]
    exact List.mem_map_of_mem hr
  · rw [hchildren]
    rcases hid with rfl | rfl <;> simp

theorem stands_apart {base base' : List NodeId} (h : L.Stands G base base') (hx : x ∈ base ∨ x ∈ base') :
    ¬ L.shared x := by
  cases h with
  | idle => simp at hx
  | @paused passed rest r acting hr _ =>
    rcases hx with hx | hx
    · rw [List.mem_singleton.mp hx]
      exact hL.switch_apart
    · obtain ⟨b, hb, rfl⟩ := mem_links.mp hx
      refine (hL.link_apart ?_).1
      rw [hr]
      rcases List.mem_append.mp hb with hb | hb
      · exact List.mem_append_left _ hb
      · rw [List.mem_singleton.mp hb]
        exact List.mem_append_right _ List.mem_cons_self

theorem fits : L.both.Fits where
  orderly := hL.orderly
  there := hL.there
  child := hL.child
  factor := Nat.succ_pos _
  apart := hL.stands_apart
  level h := by cases h <;> simp
  bare := by
    refine .idle ?_ ⟨fun _ => ?_, ?_⟩ <;> exact Std.ExtTreeMap.getElem?_empty

end Built

end Ladder

end BehaviorTree
