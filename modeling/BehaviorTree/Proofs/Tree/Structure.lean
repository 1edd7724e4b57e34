import Mathlib.Data.List.Nodup
import Mathlib.Logic.Relation
import BehaviorTree.Tree

/-!
The shape of loaded trees. A node starts some of the nodes below it itself, while the child of a listening or
delaying node is put off until later. So a tree falls into regions: one below the root, and one below each child
that is put off. Regions share no nodes.
-/

namespace BehaviorTree
set_option autoImplicit false

def Behavior.needs : Behavior → Nat
  | ifElse | watchdog => 3
  | case => 2
  | repeated .. | invert | always _ | once | timeout _ | delay .. | listen _ => 1
  | _ => 0

/-- A behavior of the built-in types or of a leaf. Their fixed results are final. -/
def Behavior.Plain : Behavior → Prop
  | repeated _ policy => policy.exhausted ≠ .running
  | always status => status ≠ .running
  | routine _ => False
  | _ => True

/-- What loading guarantees of a tree of built-in nodes and leaves. -/
structure Tree.Orderly (t : Tree) : Prop where
  id_eq {id : NodeId} {n : Node} : t.get? id = some n → n.id = id
  child {id c : NodeId} {n : Node} : t.get? id = some n → c ∈ n.children → ∃ m, t.get? c = some m
  nodup {id : NodeId} {n : Node} : t.get? id = some n → n.children.Nodup
  parent {a b c : NodeId} {n m : Node} :
    t.get? a = some n → t.get? b = some m → c ∈ n.children → c ∈ m.children → a = b
  ranked : ∃ rank : NodeId → Nat,
    ∀ (id c : NodeId) (n : Node), t.get? id = some n → c ∈ n.children → rank c < rank id
  rooted : ∃ n, t.get? t.root = some n
  root {id : NodeId} {n : Node} : t.get? id = some n → t.root ∉ n.children
  supplied {id : NodeId} {n : Node} : t.get? id = some n → n.behavior.needs ≤ n.children.length
  cases {id c : NodeId} {n : Node} :
    t.get? id = some n → n.behavior = .switch → c ∈ n.children → ∃ m, t.get? c = some m ∧ m.behavior = .case
  plain {id : NodeId} {n : Node} : t.get? id = some n → n.behavior.Plain

namespace Tree

def pair (t : Tree) (id : NodeId) : List NodeId :=
  match t.get? id with
  | some m => m.children.take 2
  | none => []

/-- The nodes that a node starts itself. A switch starts the conditions and actions of its cases. -/
def started (t : Tree) (n : Node) : List NodeId :=
  match n.behavior with
  | .switch => n.children.flatMap t.pair
  | .sequence | .selector | .parallel | .race | .forEach | .loop _ => n.children
  | .ifElse | .watchdog | .repeated .. | .invert | .always _ | .once | .timeout _ =>
    n.children.take n.behavior.needs
  | _ => []

def Starts (t : Tree) (a c : NodeId) : Prop := ∃ n, t.get? a = some n ∧ c ∈ t.started n

/-- The nodes that run when a node is run: the node itself and those that are started below it. -/
def Region (t : Tree) : NodeId → NodeId → Prop := Relation.ReflTransGen t.Starts

theorem Region.starts {t : Tree} {a x y : NodeId} (hx : t.Region a x) (hs : t.Starts x y) : t.Region a y := hx.tail hs

/-- A node lies below another, strictly. -/
def Below (t : Tree) (a x : NodeId) : Prop := ∃ c, t.Starts a c ∧ t.Region c x

def Listens (t : Tree) (l c : NodeId) : Prop :=
  ∃ n event, t.get? l = some n ∧ n.behavior = .listen event ∧ n.children[0]? = some c

def PutsOff (t : Tree) (d c : NodeId) : Prop :=
  ∃ n span cache, t.get? d = some n ∧ n.behavior = .delay span cache ∧ n.children[0]? = some c

/-- Where regions begin: at the root, and at children that run outside of ticks. -/
def Base (t : Tree) (k : NodeId) : Prop := k = t.root ∨ (∃ l, t.Listens l k) ∨ ∃ d, t.PutsOff d k

variable {t : Tree} {a b c d k j l x y : NodeId} {n m : Node}

theorem mem_pair : c ∈ t.pair a ↔ ∃ m, t.get? a = some m ∧ c ∈ m.children.take 2 := by
  rw [pair]
  split <;> simp_all

theorem starts_of_mem (h : t.get? a = some n) (hc : c ∈ t.started n) : t.Starts a c := ⟨n, h, hc⟩

theorem Region.refl (a : NodeId) : t.Region a a := Relation.ReflTransGen.refl

theorem Region.trans (h : t.Region a b) (h' : t.Region b c) : t.Region a c := Relation.ReflTransGen.trans h h'

theorem Region.of_starts (h : t.Starts a c) (hx : t.Region c x) : t.Region a x := Relation.ReflTransGen.head h hx

theorem Region.eq_or_below (h : t.Region a x) : x = a ∨ t.Below a x :=
  (Relation.ReflTransGen.cases_head h).imp Eq.symm id

theorem Below.region (h : t.Below a x) : t.Region a x := by
  obtain ⟨c, hc, hx⟩ := h
  exact .of_starts hc hx

theorem Region.below (h : t.Region a x) (hs : t.Starts x c) : t.Below a c := by
  rcases h.eq_or_below with rfl | ⟨d, hd, hdx⟩
  · exact ⟨c, hs, .refl _⟩
  · exact ⟨d, hd, hdx.starts hs⟩

theorem Below.trans (h : t.Below a b) (h' : t.Region b x) : t.Below a x := by
  obtain ⟨c, hc, hb⟩ := h
  exact ⟨c, hc, hb.trans h'⟩

/-- A node is started by its parent, or by the switch above the case that is its parent. -/
theorem Starts.parent (h : t.Starts a c) :
    ∃ p m, t.get? p = some m ∧ c ∈ m.children ∧
      ((p = a ∧ m.behavior ≠ .case ∧ (∀ event, m.behavior ≠ .listen event) ∧
          (∀ span cache, m.behavior ≠ .delay span cache) ∧ m.behavior ≠ .switch) ∨
        ∃ n, t.get? a = some n ∧ n.behavior = .switch ∧ p ∈ n.children) := by
  obtain ⟨n, hn, hc⟩ := h
  rw [started] at hc
  split at hc
  case h_1 hb =>
    obtain ⟨p, hp, hc⟩ := List.mem_flatMap.mp hc
    obtain ⟨m, hm, hc⟩ := mem_pair.mp hc
    exact ⟨p, m, hm, List.mem_of_mem_take hc, .inr ⟨n, hn, hb, hp⟩⟩
  all_goals first
    | exact ⟨a, n, hn, hc, .inl ⟨rfl, by simp_all⟩⟩
    | exact ⟨a, n, hn, List.mem_of_mem_take hc, .inl ⟨rfl, by simp_all⟩⟩
    | simp at hc

namespace Orderly

variable (ht : t.Orderly)
include ht

theorem exists_of_starts (h : t.Starts a c) : ∃ m, t.get? c = some m := by
  obtain ⟨p, m, hm, hc, _⟩ := h.parent
  exact ht.child hm hc

/-- The parent of a started node is a case just when a switch starts it. -/
theorem case_of_switch {p : NodeId} (hn : t.get? a = some n) (hb : n.behavior = .switch) (hp : p ∈ n.children)
    (hm : t.get? p = some m) : m.behavior = .case := by
  obtain ⟨m', hm', hc⟩ := ht.cases hn hb hp
  obtain rfl : m = m' := Option.some.inj (hm.symm.trans hm')
  exact hc

theorem starts_unique (ha : t.Starts a c) (hb : t.Starts b c) : a = b := by
  obtain ⟨p, m, hm, hc, hp⟩ := ha.parent
  obtain ⟨q, m', hm', hc', hq⟩ := hb.parent
  obtain rfl : p = q := ht.parent hm hm' hc hc'
  obtain rfl : m = m' := Option.some.inj (hm.symm.trans hm')
  rcases hp with ⟨rfl, hcase, _⟩ | ⟨n, hn, hs, hpn⟩ <;> rcases hq with ⟨rfl, hcase', _⟩ | ⟨n', hn', hs', hpn'⟩
  · rfl
  · exact absurd (ht.case_of_switch hn' hs' hpn' hm) hcase
  · exact absurd (ht.case_of_switch hn hs hpn hm) hcase'
  · exact ht.parent hn hn' hpn hpn'

theorem exists_rank : ∃ rank : NodeId → Nat, ∀ a c, t.Starts a c → rank c < rank a := by
  obtain ⟨rank, hr⟩ := ht.ranked
  refine ⟨rank, ?_⟩
  intro a c h
  obtain ⟨p, m, hm, hc, ⟨rfl, _⟩ | ⟨n, hn, _, hp⟩⟩ := h.parent
  · exact hr _ _ m hm hc
  · exact Nat.lt_trans (hr _ _ m hm hc) (hr _ _ n hn hp)

theorem not_region_of_starts (h : t.Starts a c) : ¬ t.Region c a := by
  obtain ⟨rank, hr⟩ := ht.exists_rank
  have hle : ∀ {u v}, t.Region u v → rank v ≤ rank u := by
    intro u v huv
    induction huv with
    | refl => exact Nat.le_refl _
    | tail _ hs ih => exact Nat.le_trans (Nat.le_of_lt (hr _ _ hs)) ih
  intro hca
  have := hr a c h
  have := hle hca
  omega

theorem not_region_of_below (h : t.Below a x) : ¬ t.Region x a := by
  obtain ⟨c, hc, hx⟩ := h
  exact fun hr => ht.not_region_of_starts hc (hx.trans hr)

theorem ne_of_starts (h : t.Starts a c) : a ≠ c := by
  rintro rfl
  exact ht.not_region_of_starts h (Region.refl a)

theorem region_total (ha : t.Region a x) (hb : t.Region b x) : t.Region a b ∨ t.Region b a := by
  induction ha with
  | refl => exact .inr hb
  | @tail y z hay hyz ih =>
    rcases Relation.ReflTransGen.cases_tail hb with rfl | ⟨w, hbw, hwz⟩
    · exact .inl (hay.tail hyz)
    · obtain rfl : w = y := ht.starts_unique hwz hyz
      exact ih hbw

/-- The regions of two nodes that one node starts share nothing. -/
theorem region_disjoint (hc : t.Starts a c) (hd : t.Starts a d) (hne : c ≠ d) (hx : t.Region c x) :
    ¬ t.Region d x := by
  intro hdx
  rcases ht.region_total hx hdx with h | h
  · rcases Relation.ReflTransGen.cases_tail h with rfl | ⟨w, hcw, hwd⟩
    · exact hne rfl
    · obtain rfl : w = a := ht.starts_unique hwd hd
      exact ht.not_region_of_starts hc hcw
  · rcases Relation.ReflTransGen.cases_tail h with rfl | ⟨w, hdw, hwc⟩
    · exact hne rfl
    · obtain rfl : w = a := ht.starts_unique hwc hc
      exact ht.not_region_of_starts hd hdw

theorem not_starts_base (hk : t.Base k) : ¬ t.Starts a k := by
  intro h
  obtain ⟨p, m, hm, hc, hp⟩ := h.parent
  rcases hk with rfl | ⟨l, n, event, hn, hb, hk⟩ | ⟨d, n, span, cache, hn, hb, hk⟩
  · exact ht.root hm hc
  · obtain rfl : p = l := ht.parent hm hn hc (List.mem_of_getElem? hk)
    obtain rfl : m = n := Option.some.inj (hm.symm.trans hn)
    rcases hp with ⟨_, _, hne, _⟩ | ⟨n', hn', hs, hpn⟩
    · exact hne event hb
    · rw [ht.case_of_switch hn' hs hpn hm] at hb
      cases hb
  · obtain rfl : p = d := ht.parent hm hn hc (List.mem_of_getElem? hk)
    obtain rfl : m = n := Option.some.inj (hm.symm.trans hn)
    rcases hp with ⟨_, _, _, hne, _⟩ | ⟨n', hn', hs, hpn⟩
    · exact hne span cache hb
    · rw [ht.case_of_switch hn' hs hpn hm] at hb
      cases hb

theorem base_eq_of_region (hj : t.Base j) (hk : t.Base k) (h : t.Region j k) : j = k := by
  rcases Relation.ReflTransGen.cases_tail h with rfl | ⟨w, _, hw⟩
  · rfl
  · exact absurd hw (ht.not_starts_base hk)

theorem base_unique (hj : t.Base j) (hk : t.Base k) (hx : t.Region j x) (hx' : t.Region k x) : j = k := by
  rcases ht.region_total hx hx' with h | h
  · exact ht.base_eq_of_region hj hk h
  · exact (ht.base_eq_of_region hk hj h).symm

theorem listens_unique (hl : t.Listens l k) (hd : t.Listens d k) : l = d := by
  obtain ⟨n, _, hn, _, hk⟩ := hl
  obtain ⟨m, _, hm, _, hk'⟩ := hd
  exact ht.parent hn hm (List.mem_of_getElem? hk) (List.mem_of_getElem? hk')

theorem listens_ne_root (hl : t.Listens l k) : k ≠ t.root := by
  rintro rfl
  obtain ⟨n, _, hn, _, hk⟩ := hl
  exact ht.root hn (List.mem_of_getElem? hk)

theorem putsOff_ne_root (hd : t.PutsOff d k) : k ≠ t.root := by
  rintro rfl
  obtain ⟨n, _, _, hn, _, hk⟩ := hd
  exact ht.root hn (List.mem_of_getElem? hk)

theorem not_listens_of_putsOff (hd : t.PutsOff d k) : ¬ t.Listens l k := by
  rintro ⟨n, _, hn, hb, hk⟩
  obtain ⟨m, _, _, hm, hb', hk'⟩ := hd
  obtain rfl := ht.parent hn hm (List.mem_of_getElem? hk) (List.mem_of_getElem? hk')
  obtain rfl : n = m := Option.some.inj (hn.symm.trans hm)
  rw [hb] at hb'
  cases hb'

theorem exists_of_base (hk : t.Base k) : ∃ m, t.get? k = some m := by
  rcases hk with rfl | ⟨l, n, _, hn, _, hk⟩ | ⟨d, n, _, _, hn, _, hk⟩
  · exact ht.rooted
  · exact ht.child hn (List.mem_of_getElem? hk)
  · exact ht.child hn (List.mem_of_getElem? hk)

end Orderly

theorem Listens.child_unique (h : t.Listens l j) (h' : t.Listens l k) : j = k := by
  obtain ⟨n, _, hn, _, hj⟩ := h
  obtain ⟨m, _, hm, _, hk⟩ := h'
  obtain rfl : n = m := Option.some.inj (hn.symm.trans hm)
  exact Option.some.inj (hj.symm.trans hk)

theorem Listens.base (h : t.Listens l k) : t.Base k := .inr (.inl ⟨l, h⟩)

theorem PutsOff.base (h : t.PutsOff d k) : t.Base k := .inr (.inr ⟨d, h⟩)

theorem base_root : t.Base t.root := .inl rfl

end Tree

end BehaviorTree
