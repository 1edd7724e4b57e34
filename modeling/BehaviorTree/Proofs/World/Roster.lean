import BehaviorTree.Proofs.World.Ownership
import Mathlib.Data.List.Nodup

/-!
A table of subscriptions does what a plain list of them would do. The list has the live subscriptions in the order in
which they were made; who is removed is struck off, and the rest stays in its order. Whatever is done with a table and
with the list, both answer alike, the three ways in which the table files a subscription agree with each other, and
what is read off the table is what can be read off the list.
-/

namespace BehaviorTree
set_option autoImplicit false

open Std

/-- The live subscriptions with their ids, oldest first. -/
structure Roster (κ : Type) where
  nextIndex : Nat := 0
  members : List (SubscriptionId × Subscription κ) := []

namespace Subscriptions

variable {κ α : Type}

/-- What is done with subscriptions. -/
inductive Operation (κ : Type) where
  | add (key : EventKey) (tag : Tag) (callback : κ)
  | remove (id : SubscriptionId)
  /-- An owner takes back its subscriptions to an event. -/
  | removeEvent (event : String) (tag : Tag)
  | removeOwner (tag : Tag)

inductive Answer where
  | added (id : SubscriptionId)
  | removed (count : Nat)

def perform (s : Subscriptions κ) : Operation κ → Answer × Subscriptions κ
  | .add key tag callback =>
    let (id, s) := s.add key tag callback
    (.added id, s)
  | .remove id =>
    let (found, s) := s.remove id
    (.removed found.toNat, s)
  | .removeEvent event tag =>
    let (count, s) := s.removeEvent event tag
    (.removed count, s)
  | .removeOwner tag =>
    let (count, s) := s.removeOwner tag
    (.removed count, s)

def performAll (step : α → Operation κ → Answer × α) (a : α) : List (Operation κ) → List Answer × α
  | [] => ([], a)
  | op :: ops =>
    let (answer, a) := step a op
    let (answers, a) := performAll step a ops
    (answer :: answers, a)

end Subscriptions

namespace Roster

open Subscriptions (Operation Answer)

variable {κ : Type}

def strike (r : Roster κ) (gone : SubscriptionId × Subscription κ → Bool) : Answer × Roster κ :=
  (.removed (r.members.countP gone), { r with members := r.members.filter fun m => !gone m })

def perform (r : Roster κ) : Operation κ → Answer × Roster κ
  | .add key tag callback =>
    (.added ⟨r.nextIndex⟩,
      { nextIndex := r.nextIndex + 1, members := r.members ++ [(⟨r.nextIndex⟩, ⟨key, tag, callback⟩)] })
  | .remove id => r.strike fun m => m.1 = id
  | .removeEvent event tag => r.strike fun m => m.2.tag = tag ∧ m.2.key.name = event
  | .removeOwner tag => r.strike fun m => m.2.tag = tag

end Roster

theorem nodup_toList {ι : Type} [Ord ι] [TransOrd ι] (set : ExtTreeSet ι) : set.toList.Nodup := by
  apply ExtTreeSet.distinct_toList.imp
  rintro a b hab rfl
  exact hab ReflCmp.compare_self

/-- A set has as many elements as a list that names each of them once. -/
theorem size_of_mem_iff {ι : Type} [Ord ι] [TransOrd ι] [LawfulEqOrd ι] {set : ExtTreeSet ι} {ids : List ι}
    (hn : ids.Nodup) (h : ∀ id, id ∈ set ↔ id ∈ ids) : set.size = ids.length := by
  rw [← ExtTreeSet.length_toList]
  apply List.Perm.length_eq
  rw [List.perm_ext_iff_of_nodup (nodup_toList set) hn]
  intro id
  rw [ExtTreeSet.mem_toList, h]

/-- No owner gets an empty set when an id is taken out of one. -/
theorem unfile_kept {ι : Type} [Ord ι] [TransOrd ι] {byTag : ExtTreeMap Tag (ExtTreeSet ι)}
    (h : ∀ t : Tag, byTag[t]? ≠ some ∅) (tag : Tag) (id : ι) (t : Tag) : (unfile byTag tag id)[t]? ≠ some ∅ := by
  unfold unfile
  split
  · exact h t
  · dsimp only
    split
    · rw [ExtTreeMap.getElem?_erase]
      split
      · exact nofun
      · exact h t
    · rename_i ids _ hfull
      rw [ExtTreeMap.getElem?_insert]
      split
      · intro he
        apply hfull
        rw [Option.some.inj he, ExtTreeSet.isEmpty_empty]
      · exact h t

namespace Subscriptions

variable {κ : Type} {s : Subscriptions κ} {r : Roster κ} {key : EventKey} {tag : Tag} {id : SubscriptionId}
  {e : Subscription κ} {ids : List SubscriptionId}

section unfileKey

variable {byKey : ExtTreeMap EventKey (List SubscriptionId)}

theorem getD_unfileKey (byKey : ExtTreeMap EventKey (List SubscriptionId)) (key : EventKey) (id : SubscriptionId)
    (k : EventKey) :
    (unfileKey byKey key id).getD k [] =
      if k = key then (byKey.getD k []).filter (· != id) else byKey.getD k [] := by
  have hne : k ≠ key → compare key k ≠ .eq := fun hk he => hk (LawfulEqCmp.eq_of_compare he).symm
  unfold unfileKey
  by_cases hk : k = key
  · subst hk
    rw [if_pos rfl, ExtTreeMap.getD_eq_getD_getElem? (a := k)]
    cases hids : byKey[k]? with
    | none => simp [ExtTreeMap.getD_eq_getD_getElem?, hids]
    | some ids =>
      dsimp only
      split
      · rename_i hempty
        rw [ExtTreeMap.getElem?_erase_self, ExtTreeMap.getD_eq_getD_getElem?, hids, Option.getD_some,
          List.isEmpty_iff.mp hempty, Option.getD_none]
      · rw [ExtTreeMap.getElem?_insert_self, ExtTreeMap.getD_eq_getD_getElem?, hids, Option.getD_some, Option.getD_some]
  · rw [if_neg hk]
    split
    · rfl
    · dsimp only
      split
      · rw [ExtTreeMap.getD_erase, if_neg (hne hk)]
      · rw [ExtTreeMap.getD_insert, if_neg (hne hk)]

theorem unfileKey_kept (h : ∀ k : EventKey, byKey[k]? ≠ some []) (key : EventKey) (id : SubscriptionId) (k : EventKey) :
    (unfileKey byKey key id)[k]? ≠ some [] := by
  unfold unfileKey
  split
  · exact h k
  · dsimp only
    split
    · rw [ExtTreeMap.getElem?_erase]
      split
      · exact nofun
      · exact h k
    · rename_i hfull
      rw [ExtTreeMap.getElem?_insert]
      split
      · intro he
        apply hfull
        rw [Option.some.inj he, List.isEmpty_nil]
      · exact h k

end unfileKey

/-- A table files exactly the subscriptions of a list: each key has the ids of its own in their order, and neither a
key nor an owner without subscriptions is kept. -/
structure Lists (s : Subscriptions κ) (r : Roster κ) : Prop extends s.Exact where
  nextIndex : s.nextIndex = r.nextIndex
  distinct : (r.members.map (·.1)).Nodup
  entries {id : SubscriptionId} {e : Subscription κ} : s.entries[id]? = some e ↔ (id, e) ∈ r.members
  byKey (key : EventKey) : s.byKey.getD key [] = (r.members.filter (·.2.key = key)).map (·.1)
  keysKept (key : EventKey) : s.byKey[key]? ≠ some []
  tagsKept (tag : Tag) : s.byTag[tag]? ≠ some ∅

theorem lists_empty : (∅ : Subscriptions κ).Lists {} where
  toExact := exact_empty
  nextIndex := rfl
  distinct := .nil
  entries {id e} := by
    change (∅ : ExtTreeMap SubscriptionId (Subscription κ))[id]? = some e ↔ (id, e) ∈ []
    rw [ExtTreeMap.getElem?_empty]
    simp
  byKey key := by
    change (∅ : ExtTreeMap EventKey (List SubscriptionId)).getD key [] = []
    rw [ExtTreeMap.getD_empty]
  keysKept key := by
    change (∅ : ExtTreeMap EventKey (List SubscriptionId))[key]? ≠ some []
    rw [ExtTreeMap.getElem?_empty]
    exact nofun
  tagsKept tag := by
    change (∅ : ExtTreeMap Tag (ExtTreeSet SubscriptionId))[tag]? ≠ some ∅
    rw [ExtTreeMap.getElem?_empty]
    exact nofun

theorem Lists.next_ne (h : s.Lists r) {m : SubscriptionId × Subscription κ} (hm : m ∈ r.members) :
    m.1 ≠ ⟨r.nextIndex⟩ := by
  intro he
  have hlt := h.given (h.entries.mpr hm)
  rw [h.nextIndex, he] at hlt
  exact Nat.lt_irrefl _ hlt

theorem Lists.mem_ownedBy_iff (h : s.Lists r) : id ∈ s.ownedBy tag ↔ ∃ e, (id, e) ∈ r.members ∧ e.tag = tag := by
  constructor
  · intro hid
    have howner := h.names tag id (ExtTreeSet.mem_toList.mp hid)
    rw [owner?, Option.map_eq_some_iff] at howner
    obtain ⟨e, he, ht⟩ := howner
    exact ⟨e, h.entries.mp he, ht⟩
  · rintro ⟨e, he, rfl⟩
    exact h.owned (h.entries.mpr he)

theorem Lists.mem_byKey (h : s.Lists r) (hid : id ∈ s.byKey.getD key []) :
    ∃ e, s.entries[id]? = some e ∧ e.key = key := by
  rw [h.byKey] at hid
  obtain ⟨⟨x, e⟩, hm, rfl⟩ := List.mem_map.mp hid
  obtain ⟨hm, hk⟩ := List.mem_filter.mp hm
  exact ⟨e, h.entries.mpr hm, of_decide_eq_true hk⟩

theorem Lists.entries_add (h : s.Lists r) (key : EventKey) (tag : Tag) (callback : κ) {id : SubscriptionId}
    {e : Subscription κ} :
    (s.add key tag callback).2.entries[id]? = some e ↔ (id, e) ∈ (r.perform (.add key tag callback)).2.members := by
  rw [Subscriptions.entries_add, Roster.perform, h.nextIndex, List.mem_append, List.mem_singleton, Prod.mk.injEq]
  split
  · rename_i hid
    constructor
    · intro he
      exact .inr ⟨hid.symm, (Option.some.inj he).symm⟩
    · rintro (hm | ⟨_, he⟩)
      · exact absurd hid.symm (h.next_ne hm)
      · rw [he]
  · rename_i hid
    rw [h.entries, or_iff_left]
    exact fun he => hid he.1.symm

theorem Lists.byKey_add (h : s.Lists r) (key : EventKey) (tag : Tag) (callback : κ) (k : EventKey) :
    (s.add key tag callback).2.byKey.getD k [] =
      ((r.perform (.add key tag callback)).2.members.filter (·.2.key = k)).map (·.1) := by
  change (s.byKey.insert key (s.byKey.getD key [] ++ [⟨s.nextIndex⟩])).getD k [] = _
  rw [ExtTreeMap.getD_insert, h.nextIndex, Roster.perform, List.filter_append, List.map_append, ← h.byKey]
  split
  · rename_i hk
    obtain rfl := LawfulEqCmp.eq_of_compare hk
    rw [List.filter_cons_of_pos (by simp)]
    rfl
  · rename_i hk
    have hne : key ≠ k := by
      rintro rfl
      exact hk ReflCmp.compare_self
    rw [List.filter_cons_of_neg (by simpa using hne), List.filter_nil, List.map_nil, List.append_nil]

theorem Lists.add (h : s.Lists r) (key : EventKey) (tag : Tag) (callback : κ) :
    (s.perform (.add key tag callback)).1 = (r.perform (.add key tag callback)).1 ∧
      (s.perform (.add key tag callback)).2.Lists (r.perform (.add key tag callback)).2 := by
  have hindex := h.nextIndex
  refine ⟨by rw [perform, Roster.perform, Subscriptions.add, hindex], ?_⟩
  constructor
  · exact h.toExact.add key tag callback
  · exact congrArg (· + 1) hindex
  · rw [Roster.perform, List.map_append]
    apply List.Nodup.append h.distinct (List.nodup_singleton _)
    intro id hid hlast
    obtain ⟨m, hm, rfl⟩ := List.mem_map.mp hid
    exact h.next_ne hm (List.mem_singleton.mp hlast)
  · exact h.entries_add key tag callback
  · exact h.byKey_add key tag callback
  · intro k
    change (s.byKey.insert key (s.byKey.getD key [] ++ [⟨s.nextIndex⟩]))[k]? ≠ _
    rw [ExtTreeMap.getElem?_insert]
    split
    · simp
    · exact h.keysKept k
  · intro t
    change (s.byTag.insert tag ((s.byTag.getD tag ∅).insert ⟨s.nextIndex⟩))[t]? ≠ _
    rw [ExtTreeMap.getElem?_insert]
    split
    · intro he
      have hmem : (⟨s.nextIndex⟩ : SubscriptionId) ∈ (s.byTag.getD tag ∅).insert ⟨s.nextIndex⟩ := by simp
      rw [Option.some.inj he] at hmem
      exact ExtTreeSet.not_mem_empty hmem
    · exact h.tagsKept t

/-- A subscription is found if the list has one of its id. -/
theorem Lists.found (h : s.Lists r) (id : SubscriptionId) :
    (s.remove id).1.toNat = r.members.countP (·.1 = id) := by
  have hcount : r.members.countP (·.1 = id) = (r.members.map (·.1)).count id := by
    rw [List.count_eq_countP, List.countP_map]
    apply List.countP_congr
    intro m _
    simp
  rw [hcount, Subscriptions.remove]
  cases he : s.entries[id]? with
  | none =>
    symm
    apply List.count_eq_zero_of_not_mem
    intro hid
    obtain ⟨m, hm, rfl⟩ := List.mem_map.mp hid
    cases he.symm.trans (h.entries.mpr hm)
  | some e => exact (List.count_eq_one_of_mem h.distinct (List.mem_map.mpr ⟨_, h.entries.mp he, rfl⟩)).symm

/-- Whoever is removed is taken out of the one list of a key that has it. -/
theorem Lists.byKey_remove (h : s.Lists r) (id : SubscriptionId) (k : EventKey) :
    (s.remove id).2.byKey.getD k [] = (s.byKey.getD k []).filter (· != id) := by
  have hother : id ∉ s.byKey.getD k [] → s.byKey.getD k [] = (s.byKey.getD k []).filter (· != id) := by
    intro hid
    symm
    rw [List.filter_eq_self]
    intro x hx
    rw [bne_iff_ne]
    rintro rfl
    exact hid hx
  rw [Subscriptions.remove]
  split
  · rename_i he
    apply hother
    intro hid
    obtain ⟨e, he', _⟩ := h.mem_byKey hid
    cases he.symm.trans he'
  · rename_i e he
    rw [getD_unfileKey]
    split
    · rfl
    · rename_i hk
      apply hother
      intro hid
      obtain ⟨e', he', hk'⟩ := h.mem_byKey hid
      obtain rfl := Option.some.inj (he.symm.trans he')
      exact hk hk'.symm

theorem Lists.remove (h : s.Lists r) (id : SubscriptionId) :
    (s.remove id).2.Lists { r with members := r.members.filter (·.1 ≠ id) } := by
  constructor
  · exact h.toExact.remove id
  · exact nextIndex_remove.trans h.nextIndex
  · exact h.distinct.sublist (List.filter_sublist.map _)
  · intro x e
    rw [entries_remove]
    split
    · rename_i hx
      simp [hx]
    · rename_i hx
      rw [h.entries, List.mem_filter]
      simp [Ne.symm hx]
  · intro k
    rw [h.byKey_remove, h.byKey, List.filter_map, List.filter_filter, List.filter_filter]
    congr 1
    apply List.filter_congr
    intro m _
    rw [Bool.and_comm]
    simp [bne, beq_eq_decide]
  · intro k
    rw [Subscriptions.remove]
    split
    · exact h.keysKept k
    · exact unfileKey_kept h.keysKept _ _ k
  · intro t
    rw [Subscriptions.remove]
    split
    · exact h.tagsKept t
    · rw [unfileTag_eq]
      exact unfile_kept h.tagsKept _ _ t

/-- Removing ids one after the other strikes off the subscriptions of these ids, and counts them. -/
theorem Lists.removeEach (h : s.Lists r) (hn : ids.Nodup) {gone : SubscriptionId × Subscription κ → Bool}
    (hgone : ∀ m ∈ r.members, gone m = true ↔ m.1 ∈ ids) :
    .removed (s.removeEach ids).1 = (r.strike gone).1 ∧ (s.removeEach ids).2.Lists (r.strike gone).2 := by
  induction ids generalizing s r with
  | nil =>
    have hnone : ∀ m ∈ r.members, ¬gone m = true := fun m hm hg => List.not_mem_nil ((hgone m hm).mp hg)
    have hall : r.members.filter (fun m => !gone m) = r.members := by
      rw [List.filter_eq_self]
      intro m hm
      simpa using hnone m hm
    refine ⟨?_, ?_⟩
    · rw [Roster.strike, List.countP_eq_zero.mpr hnone, Subscriptions.removeEach]
    · rw [Roster.strike, hall]
      exact h
  | cons id ids ih =>
    obtain ⟨_, hn⟩ := List.nodup_cons.mp hn
    obtain ⟨hcount, hlists⟩ := ih (h.remove id) hn (by
      intro m hm
      obtain ⟨hm, hne⟩ := List.mem_filter.mp hm
      rw [hgone m hm, List.mem_cons, or_iff_right (of_decide_eq_true hne)])
    constructor
    · have hfirst : (r.members.filter (·.1 = id)).countP gone = (s.remove id).1.toNat := by
        rw [h.found, List.countP_filter]
        apply List.countP_congr
        intro m hm
        rw [Bool.and_eq_true, and_iff_right_iff_imp]
        intro he
        exact (hgone m hm).mpr (of_decide_eq_true he ▸ List.mem_cons_self)
      have hrest : (r.members.filter fun m => !decide (m.1 = id)).countP gone =
          ((s.remove id).2.removeEach ids).1 := by
        simp only [← decide_not]
        exact (Answer.removed.inj hcount).symm
      have hsum : (s.removeEach (id :: ids)).1 = (s.remove id).1.toNat + ((s.remove id).2.removeEach ids).1 := by
        change (if (s.remove id).1 = true then _ else _) = _
        cases (s.remove id).1 with
        | true => exact Nat.add_comm _ 1
        | false => exact (Nat.zero_add _).symm
      rw [Roster.strike, List.countP_eq_countP_filter_add r.members gone (·.1 = id), hfirst, hrest, hsum]
    · have hkept : (r.members.filter (·.1 ≠ id)).filter (fun m => !gone m) = r.members.filter fun m => !gone m := by
        rw [List.filter_filter]
        apply List.filter_congr
        intro m hm
        by_cases he : m.1 = id
        · simp [he, (hgone m hm).mpr (he ▸ List.mem_cons_self)]
        · simp [he]
      rw [Roster.strike, hkept] at hlists
      exact hlists

theorem Lists.removeEvent (h : s.Lists r) (event : String) (tag : Tag) :
    (s.perform (.removeEvent event tag)).1 = (r.perform (.removeEvent event tag)).1 ∧
      (s.perform (.removeEvent event tag)).2.Lists (r.perform (.removeEvent event tag)).2 := by
  have hids : (s.ownedBy tag).Nodup := nodup_toList _
  apply h.removeEach (hids.filter _)
  rintro ⟨id, e⟩ hm
  have hentry := h.entries.mpr hm
  rw [List.mem_filter, h.mem_ownedBy_iff, hentry]
  simp only [Option.any_some, beq_iff_eq, decide_eq_true_eq]
  constructor
  · rintro ⟨ht, hname⟩
    exact ⟨⟨e, hm, ht⟩, hname⟩
  · rintro ⟨⟨e', hm', ht⟩, hname⟩
    obtain rfl := Option.some.inj (hentry.symm.trans (h.entries.mpr hm'))
    exact ⟨ht, hname⟩

theorem Lists.byTag_eq_none (h : s.Lists r) (hnone : ∀ m ∈ r.members, m.2.tag ≠ tag) : s.byTag[tag]? = none := by
  cases hids : s.byTag[tag]? with
  | none => rfl
  | some ids =>
    exfalso
    apply h.tagsKept tag
    rw [hids]
    congr 1
    apply ExtTreeSet.ext_mem
    intro id
    refine ⟨fun hid => ?_, fun hid => absurd hid ExtTreeSet.not_mem_empty⟩
    obtain ⟨e, hm, ht⟩ := h.mem_ownedBy_iff.mp (mem_ownedBy.mpr ⟨ids, hids, hid⟩)
    exact absurd ht (hnone _ hm)

theorem getElem?_unfileTag_of_ne {byTag : ExtTreeMap Tag (ExtTreeSet SubscriptionId)} {t : Tag} (hne : tag ≠ t) :
    (unfileTag byTag tag id)[t]? = byTag[t]? := by
  rw [unfileTag]
  split
  · rfl
  · dsimp only
    split
    · simp [ExtTreeMap.getElem?_erase, hne]
    · simp [ExtTreeMap.getElem?_insert, hne]

theorem byTag_removeEach {t : Tag} (hne : tag ≠ t) (hmine : ∀ id ∈ ids, ∀ e, s.entries[id]? = some e → e.tag = tag) :
    (s.removeEach ids).2.byTag[t]? = s.byTag[t]? := by
  induction ids generalizing s with
  | nil => rfl
  | cons id ids ih =>
    have hrest : ∀ x ∈ ids, ∀ e, (s.remove id).2.entries[x]? = some e → e.tag = tag :=
      fun x hx e he => hmine x (List.mem_cons_of_mem _ hx) e (entries_of_remove he)
    refine (ih hrest).trans ?_
    rw [Subscriptions.remove]
    split
    · rfl
    · rename_i e he
      rw [hmine id List.mem_cons_self e he]
      exact getElem?_unfileTag_of_ne hne

/-- When all subscriptions of an owner are removed one by one, its set is gone with the last. -/
theorem Lists.removeOwner (h : s.Lists r) (tag : Tag) :
    (s.perform (.removeOwner tag)).1 = (r.perform (.removeOwner tag)).1 ∧
      (s.perform (.removeOwner tag)).2.Lists (r.perform (.removeOwner tag)).2 := by
  have hgone : ∀ m ∈ r.members, decide (m.2.tag = tag) = true ↔ m.1 ∈ s.ownedBy tag := by
    rintro ⟨id, e⟩ hm
    rw [decide_eq_true_eq, h.mem_ownedBy_iff]
    constructor
    · intro ht
      exact ⟨e, hm, ht⟩
    · rintro ⟨e', hm', ht⟩
      obtain rfl := Option.some.inj ((h.entries.mpr hm).symm.trans (h.entries.mpr hm'))
      exact ht
  obtain ⟨hcount, hlists⟩ := h.removeEach (nodup_toList _) hgone
  have hbare : (s.removeEach (s.ownedBy tag)).2.byTag[tag]? = none := by
    apply hlists.byTag_eq_none
    intro m hm ht
    obtain ⟨_, hm⟩ := List.mem_filter.mp hm
    simp [ht] at hm
  have hmine : ∀ id ∈ s.ownedBy tag, ∀ e, s.entries[id]? = some e → e.tag = tag := by
    intro id hid e he
    obtain ⟨e', hm, ht⟩ := h.mem_ownedBy_iff.mp hid
    obtain rfl := Option.some.inj (he.symm.trans (h.entries.mpr hm))
    exact ht
  have hsame : (s.removeOwner tag).2 = (s.removeEach (s.ownedBy tag)).2 := by
    have hsets : s.byTag.erase tag = (s.removeEach (s.ownedBy tag)).2.byTag := by
      apply ExtTreeMap.ext_getElem?
      intro t
      rw [ExtTreeMap.getElem?_erase]
      split
      · rename_i ht
        rw [← LawfulEqCmp.eq_of_compare ht, hbare]
      · rename_i ht
        have hne : tag ≠ t := fun hs => ht (LawfulEqCmp.compare_eq_iff_eq.mpr hs)
        exact (byTag_removeEach hne hmine).symm
    rw [removeOwner_eq, hsets]
  refine ⟨?_, ?_⟩
  · have hfound : (s.removeOwner tag).1 = (s.removeEach (s.ownedBy tag)).1 := by rw [removeOwner_eq]
    exact (congrArg Answer.removed hfound).trans hcount
  · change (s.removeOwner tag).2.Lists _
    rw [hsame]
    exact hlists

theorem Lists.perform (h : s.Lists r) (op : Operation κ) :
    (s.perform op).1 = (r.perform op).1 ∧ (s.perform op).2.Lists (r.perform op).2 := by
  cases op with
  | add key tag callback => exact h.add key tag callback
  | remove id =>
    have hstruck := h.remove id
    simp only [decide_not] at hstruck
    exact ⟨congrArg Answer.removed (h.found id), hstruck⟩
  | removeEvent event tag => exact h.removeEvent event tag
  | removeOwner tag => exact h.removeOwner tag

theorem Lists.performAll (h : s.Lists r) (ops : List (Operation κ)) :
    (Subscriptions.performAll Subscriptions.perform s ops).1 = (Subscriptions.performAll Roster.perform r ops).1 ∧
      (Subscriptions.performAll Subscriptions.perform s ops).2.Lists
        (Subscriptions.performAll Roster.perform r ops).2 := by
  induction ops generalizing s r with
  | nil => exact ⟨rfl, h⟩
  | cons op ops ih =>
    obtain ⟨hanswer, hnext⟩ := h.perform op
    obtain ⟨hanswers, hlast⟩ := ih hnext
    exact ⟨congr (congrArg List.cons hanswer) hanswers, hlast⟩

/-- The three ways in which a table files its subscriptions agree. A live id stands once in the list of its key and in
the set of its owner, lists and sets have no other ids, and none is kept empty. -/
structure Indexed (s : Subscriptions κ) : Prop where
  keyed {id : SubscriptionId} {e : Subscription κ} : s.entries[id]? = some e → (s.byKey.getD e.key []).count id = 1
  tagged {id : SubscriptionId} {e : Subscription κ} : s.entries[id]? = some e → id ∈ s.byTag.getD e.tag ∅
  live_of_key {key : EventKey} {id : SubscriptionId} :
    id ∈ s.byKey.getD key [] → ∃ e, s.entries[id]? = some e ∧ e.key = key
  live_of_tag {tag : Tag} {id : SubscriptionId} : id ∈ s.byTag.getD tag ∅ → ∃ e, s.entries[id]? = some e ∧ e.tag = tag
  keysKept (key : EventKey) : s.byKey[key]? ≠ some []
  tagsKept (tag : Tag) : s.byTag[tag]? ≠ some ∅

theorem Lists.indexed (h : s.Lists r) : s.Indexed where
  keyed {id e} he := by
    have hm := h.entries.mp he
    rw [h.byKey]
    apply List.count_eq_one_of_mem
    · exact h.distinct.sublist (List.filter_sublist.map _)
    · exact List.mem_map.mpr ⟨_, List.mem_filter.mpr ⟨hm, by simp⟩, rfl⟩
  tagged he := ExtTreeSet.mem_toList.mp (h.owned he)
  live_of_key := h.mem_byKey
  live_of_tag {tag id} hid := by
    obtain ⟨e, hm, ht⟩ := h.mem_ownedBy_iff.mp (ExtTreeSet.mem_toList.mpr hid)
    exact ⟨e, h.entries.mpr hm, ht⟩
  keysKept := h.keysKept
  tagsKept := h.tagsKept

theorem Lists.callbacks (h : s.Lists r) (key : EventKey) :
    s.callbacks key = (r.members.filter (·.2.key = key)).map (·.2.callback) := by
  have hlive : ∀ m ∈ r.members.filter (·.2.key = key), s.entries[m.1]? = some m.2 :=
    fun m hm => h.entries.mpr (List.mem_of_mem_filter hm)
  rw [Subscriptions.callbacks, h.byKey, List.filterMap_map, ← List.filterMap_eq_map]
  apply List.filterMap_congr
  intro m hm
  simp [hlive m hm]

theorem Lists.count (h : s.Lists r) (tag : Tag) : s.count tag = r.members.countP (·.2.tag = tag) := by
  rw [Subscriptions.count, List.countP_eq_length_filter, ← List.length_map (fun m => m.1)]
  apply size_of_mem_iff
  · exact h.distinct.sublist (List.filter_sublist.map _)
  · intro id
    rw [← ExtTreeSet.mem_toList]
    change id ∈ s.ownedBy tag ↔ _
    rw [h.mem_ownedBy_iff]
    simp

/-- A table of subscriptions is as good as a plain list of them. Whatever is done, table and list answer alike, the
indexes of the table agree, the live subscriptions are those on the list, those who hear an event are the ones on the
list with its name and target, oldest first, and an owner has as many subscriptions as the list has of it. -/
theorem performAll_eq_roster (ops : List (Operation κ)) :
    let done := performAll perform (∅ : Subscriptions κ) ops
    let listed := performAll Roster.perform ({} : Roster κ) ops
    done.1 = listed.1 ∧ done.2.Indexed ∧
    (∀ id e, done.2.entries[id]? = some e ↔ (id, e) ∈ listed.2.members) ∧
    (∀ key, done.2.callbacks key = (listed.2.members.filter (·.2.key = key)).map (·.2.callback)) ∧
    ∀ tag, done.2.count tag = listed.2.members.countP (·.2.tag = tag) := by
  obtain ⟨hanswers, hlists⟩ := lists_empty.performAll ops
  exact ⟨hanswers, hlists.indexed, fun _ _ => hlists.entries, hlists.callbacks, hlists.count⟩

end Subscriptions

end BehaviorTree
