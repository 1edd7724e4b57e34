import BehaviorTree.Proofs.World.Filing

/-!
Owners and what is filed under them, read the other way round: the set of an owner names only entries of that owner. So
what is removed for an owner, or cancelled, is its own, and what belongs to others stays as it was, in the order it had.
-/

namespace BehaviorTree
set_option autoImplicit false

open Std

section Names

variable {ι : Type} [Ord ι] [TransOrd ι] {byTag : ExtTreeMap Tag (ExtTreeSet ι)} {owner? owner'? : ι → Option Tag}
  {tag : Tag} {id : ι}

/-- The sets of owners name only what is theirs. -/
def Names (owner? : ι → Option Tag) (byTag : ExtTreeMap Tag (ExtTreeSet ι)) : Prop :=
  ∀ (tag : Tag) (id : ι), id ∈ byTag.getD tag ∅ → owner? id = some tag

/-- Takes an id out of the set of its owner; an empty set is not kept. -/
def unfile (byTag : ExtTreeMap Tag (ExtTreeSet ι)) (tag : Tag) (id : ι) : ExtTreeMap Tag (ExtTreeSet ι) :=
  match byTag[tag]? with
  | none => byTag
  | some ids =>
    let ids := ids.erase id
    if ids.isEmpty then byTag.erase tag else byTag.insert tag ids

theorem getD_unfile (byTag : ExtTreeMap Tag (ExtTreeSet ι)) (tag : Tag) (id : ι) (t : Tag) :
    (unfile byTag tag id).getD t ∅ = if t = tag then (byTag.getD t ∅).erase id else byTag.getD t ∅ := by
  have hne : t ≠ tag → compare tag t ≠ .eq := fun ht he => ht (LawfulEqCmp.eq_of_compare he).symm
  by_cases ht : t = tag
  · subst ht
    rw [unfile, if_pos rfl, ExtTreeMap.getD_eq_getD_getElem? (a := t)]
    cases hids : byTag[t]? with
    | none => simp [ExtTreeMap.getD_eq_getD_getElem?, hids]
    | some ids =>
      dsimp only
      split
      · rename_i hempty
        rw [ExtTreeMap.getElem?_erase_self, ExtTreeMap.getD_eq_getD_getElem?, hids, Option.getD_some,
          ExtTreeSet.isEmpty_iff.mp hempty, Option.getD_none]
      · rw [ExtTreeMap.getElem?_insert_self, ExtTreeMap.getD_eq_getD_getElem?, hids, Option.getD_some, Option.getD_some]
  · rw [if_neg ht, unfile]
    split
    · rfl
    · dsimp only
      split
      · rw [ExtTreeMap.getD_erase, if_neg (hne ht)]
      · rw [ExtTreeMap.getD_insert, if_neg (hne ht)]

theorem names_empty : Names owner? ∅ := by
  intro tag id h
  simp [ExtTreeMap.getD_eq_getD_getElem?] at h

theorem Names.erase (h : Names owner? byTag) (tag : Tag) : Names owner? (byTag.erase tag) := by
  intro t x hx
  rw [ExtTreeMap.getD_erase] at hx
  split at hx
  · simp at hx
  · exact h t x hx

variable [LawfulEqOrd ι] [DecidableEq ι]

theorem Names.file (h : Names owner? byTag) (hnone : owner? id = none)
    (hnew : ∀ x, owner'? x = if id = x then some tag else owner? x) :
    Names owner'? (byTag.insert tag ((byTag.getD tag ∅).insert id)) := by
  have hold : ∀ t x, x ∈ byTag.getD t ∅ → owner'? x = some t := by
    intro t x hx
    rw [hnew, if_neg, h t x hx]
    rintro rfl
    cases hnone.symm.trans (h t _ hx)
  intro t x hx
  rw [ExtTreeMap.getD_insert] at hx
  split at hx
  · rename_i ht
    obtain rfl := LawfulEqCmp.eq_of_compare ht
    rw [ExtTreeSet.mem_insert] at hx
    obtain hid | hx := hx
    · rw [hnew, if_pos (LawfulEqCmp.eq_of_compare hid)]
    · exact hold _ x hx
  · exact hold t x hx

theorem Names.unfile (h : Names owner? byTag) (hid : owner? id = some tag)
    (hnew : ∀ x, owner'? x = if id = x then none else owner? x) : Names owner'? (unfile byTag tag id) := by
  intro t x hx
  rw [getD_unfile] at hx
  have hmem : x ∈ byTag.getD t ∅ ∧ id ≠ x := by
    split at hx
    · rw [ExtTreeSet.mem_erase] at hx
      exact ⟨hx.2, fun he => hx.1 (LawfulEqCmp.compare_eq_iff_eq.mpr he)⟩
    · rename_i ht
      refine ⟨hx, ?_⟩
      rintro rfl
      exact ht (Option.some.inj ((h t _ hx).symm.trans hid))
  rw [hnew, if_neg hmem.2, h t x hmem.1]

end Names

namespace Subscriptions

variable {κ : Type} {s : Subscriptions κ} {tag owner : Tag} {id x : SubscriptionId} {e : Subscription κ}
  {ids : List SubscriptionId}

/-- Whose a subscription is. -/
def owner? (s : Subscriptions κ) (id : SubscriptionId) : Option Tag := (s.entries[id]?).map (·.tag)

/-- Every entry is in the set of its owner, and the sets name nothing else. -/
structure Exact (s : Subscriptions κ) : Prop extends s.Filed where
  names : Names s.owner? s.byTag

theorem exact_empty : (∅ : Subscriptions κ).Exact := ⟨filed_empty, names_empty⟩

theorem Exact.add (h : s.Exact) (key : EventKey) (tag : Tag) (callback : κ) : (s.add key tag callback).2.Exact := by
  refine ⟨h.toFiled.add key tag callback, h.names.file ?_ fun x => ?_⟩
  · cases he : s.entries[(⟨s.nextIndex⟩ : SubscriptionId)]? with
    | none => rw [owner?, he, Option.map_none]
    | some e => exact absurd (h.given he) (Nat.lt_irrefl _)
  · rw [owner?, entries_add]
    split <;> rfl

theorem unfileTag_eq (byTag : ExtTreeMap Tag (ExtTreeSet SubscriptionId)) (tag : Tag) (id : SubscriptionId) :
    unfileTag byTag tag id = unfile byTag tag id := by
  rw [unfileTag, unfile]
  cases byTag[tag]? with
  | none | some => rfl

theorem Exact.remove (h : s.Exact) (id : SubscriptionId) : (s.remove id).2.Exact := by
  refine ⟨h.toFiled.remove id, ?_⟩
  cases he : s.entries[id]? with
  | none =>
    rw [Subscriptions.remove, he]
    exact h.names
  | some e =>
    have hsets : (s.remove id).2.byTag = unfile s.byTag e.tag id := by
      rw [Subscriptions.remove, he]
      exact unfileTag_eq _ _ _
    have howner : s.owner? id = some e.tag := by rw [owner?, he, Option.map_some]
    rw [hsets]
    refine h.names.unfile howner fun x => ?_
    rw [owner?, entries_remove]
    split <;> rfl

theorem Exact.removeEach (h : s.Exact) (ids : List SubscriptionId) : (s.removeEach ids).2.Exact := by
  induction ids generalizing s with
  | nil => exact h
  | cons id ids ih => exact ih (h.remove id)

theorem Exact.removeEvent (h : s.Exact) (event : String) (tag : Tag) : (s.removeEvent event tag).2.Exact :=
  h.removeEach _

/-- What the set of an owner names is gone with it, and nothing else. -/
theorem Exact.entries_removeOwner (h : s.Exact) (tag : Tag) (x : SubscriptionId) :
    (s.removeOwner tag).2.entries[x]? = (s.entries[x]?).filter fun e => e.tag ≠ tag := by
  rw [entries_removeOwner_eq, entries_removeEach]
  cases he : s.entries[x]? with
  | none => rw [ite_self, Option.filter_none]
  | some e =>
    have hmem : x ∈ s.ownedBy tag ↔ e.tag = tag := by
      refine ⟨fun hx => ?_, ?_⟩
      · have howner := h.names tag x (ExtTreeSet.mem_toList.mp hx)
        rw [owner?, he] at howner
        exact Option.some.inj howner
      · rintro rfl
        exact h.owned he
    by_cases ht : e.tag = tag
    · rw [if_pos (hmem.mpr ht), Option.filter_some_neg (by simp [ht])]
    · rw [if_neg (fun hx => ht (hmem.mp hx)), Option.filter_some_pos (by simp [ht])]

theorem Exact.removeOwner (h : s.Exact) (tag : Tag) : (s.removeOwner tag).2.Exact := by
  refine ⟨h.toFiled.removeOwner tag, fun t x hx => ?_⟩
  rw [byTag_removeOwner, ExtTreeMap.getD_erase] at hx
  split at hx
  · exact absurd hx ExtTreeSet.not_mem_empty
  · rename_i ht
    obtain ⟨e, he, rfl⟩ := Option.map_eq_some_iff.mp (h.names t x hx)
    have hne : e.tag ≠ tag := fun hs => ht (LawfulEqCmp.compare_eq_iff_eq.mpr hs.symm)
    rw [owner?, h.entries_removeOwner, he, Option.filter_some_pos (by simp [hne]), Option.map_some]

theorem filterMap_byKey_remove {β : Type} {f : SubscriptionId → Option β} (hf : f id = none) (key : EventKey) :
    ((s.remove id).2.byKey.getD key []).filterMap f = (s.byKey.getD key []).filterMap f := by
  have hfilter : ∀ ids : List SubscriptionId, (ids.filter (· != id)).filterMap f = ids.filterMap f := by
    intro ids
    induction ids with
    | nil => rfl
    | cons x ids ih =>
      by_cases hx : x = id
      · rw [List.filter_cons_of_neg (by simp [hx]), List.filterMap_cons_none (hx ▸ hf), ih]
      · rw [List.filter_cons_of_pos (by simp [hx]), List.filterMap_cons, List.filterMap_cons, ih]
  cases he : s.entries[id]? with
  | none => rw [remove, he]
  | some e =>
    have hkeys : (s.remove id).2.byKey = unfileKey s.byKey e.key id := by rw [remove, he]
    rw [hkeys, unfileKey]
    cases hids : s.byKey[e.key]? with
    | none => rfl
    | some ids =>
      by_cases hk : e.key = key
      · subst hk
        rw [ExtTreeMap.getD_eq_getD_getElem?, ExtTreeMap.getD_eq_getD_getElem?, hids, Option.getD_some, ← hfilter ids]
        dsimp only
        split
        · rename_i hempty
          rw [List.isEmpty_iff.mp hempty]
          simp
        · simp
      · dsimp only
        split
        · simp [ExtTreeMap.getD_eq_getD_getElem?, ExtTreeMap.getElem?_erase, hk]
        · simp [ExtTreeMap.getD_eq_getD_getElem?, ExtTreeMap.getElem?_insert, hk]

theorem filterMap_byKey_removeEach {β : Type} {f : SubscriptionId → Option β} (hf : ∀ id ∈ ids, f id = none)
    (key : EventKey) :
    ((s.removeEach ids).2.byKey.getD key []).filterMap f = (s.byKey.getD key []).filterMap f := by
  induction ids generalizing s with
  | nil => rfl
  | cons id ids ih =>
    have hrest : ∀ x ∈ ids, f x = none := fun x hx => hf x (List.mem_cons_of_mem _ hx)
    exact (ih hrest).trans (filterMap_byKey_remove (hf id List.mem_cons_self) key)

/-- Those who hear an event and are not of an owner, oldest first. -/
def callbacksBut (s : Subscriptions κ) (tag : Tag) (key : EventKey) : List κ :=
  (s.byKey.getD key []).filterMap fun id => ((s.entries[id]?).filter fun e => e.tag ≠ tag).map (·.callback)

theorem Exact.callbacks_removeOwner (h : s.Exact) (tag : Tag) (key : EventKey) :
    (s.removeOwner tag).2.callbacks key = s.callbacksBut tag key := by
  have hentries := h.entries_removeOwner tag
  have hgone : ∀ id ∈ s.ownedBy tag,
      (((s.entries[id]?).filter fun e => e.tag ≠ tag).map (·.callback) : Option κ) = none := by
    intro id hid
    rw [← hentries id, Option.map_eq_none_iff]
    rw [entries_removeOwner_eq, entries_removeEach, if_pos hid]
  have hkeys : (s.removeOwner tag).2.byKey = (s.removeEach (s.ownedBy tag)).2.byKey := by rw [removeOwner_eq]
  rw [callbacks, hkeys]
  simp only [hentries]
  exact filterMap_byKey_removeEach hgone key

end Subscriptions

namespace Delays

variable {κ : Type} {d : Delays κ} {tag : Tag} {id x : DelayId} {e : PendingDelay κ} {ids : List DelayId}

/-- Whose a delay is. -/
def owner? (d : Delays κ) (id : DelayId) : Option Tag := (d.pending[id]?).map (·.tag)

/-- Every pending delay is in the set of its owner, and the sets name nothing else. -/
structure Exact (d : Delays κ) : Prop extends d.Filed where
  names : Names d.owner? d.byTag

theorem exact_empty : (∅ : Delays κ).Exact := ⟨filed_empty, names_empty⟩

theorem Exact.schedule (h : d.Exact) (expiry : Float) (tag : Tag) (callback : κ) :
    (d.schedule expiry tag callback).2.Exact := by
  refine ⟨h.toFiled.schedule expiry tag callback, h.names.file ?_ fun x => ?_⟩
  · cases he : d.pending[(⟨d.nextIndex⟩ : DelayId)]? with
    | none => rw [owner?, he, Option.map_none]
    | some e => exact absurd (h.given he) (Nat.lt_irrefl _)
  · rw [owner?, pending_schedule]
    split <;> rfl

theorem unfileTag_eq (byTag : ExtTreeMap Tag (ExtTreeSet DelayId)) (tag : Tag) (id : DelayId) :
    unfileTag byTag tag id = unfile byTag tag id := by
  rw [unfileTag, unfile]
  cases byTag[tag]? with
  | none | some => rfl

theorem Exact.take (h : d.Exact) (id : DelayId) : (d.take id).2.Exact := by
  refine ⟨h.toFiled.take id, ?_⟩
  cases he : d.pending[id]? with
  | none =>
    rw [Delays.take, he]
    exact h.names
  | some e =>
    have hsets : (d.take id).2.byTag = unfile d.byTag e.tag id := by
      rw [Delays.take, he]
      exact unfileTag_eq _ _ _
    have howner : d.owner? id = some e.tag := by rw [owner?, he, Option.map_some]
    rw [hsets]
    refine h.names.unfile howner fun x => ?_
    rw [owner?, pending_take]
    split <;> rfl

theorem Exact.cancel (h : d.Exact) (id : DelayId) : (d.cancel id).2.Exact := h.take id

theorem Exact.takeEach (h : d.Exact) (ids : List DelayId) : (d.takeEach ids).2.Exact := by
  induction ids generalizing d with
  | nil => exact h
  | cons id ids ih => exact ih (h.take id)

/-- What the set of an owner names is gone with it, and nothing else. -/
theorem Exact.pending_cancelOwner (h : d.Exact) (tag : Tag) (x : DelayId) :
    (d.cancelOwner tag).2.pending[x]? = (d.pending[x]?).filter fun e => e.tag ≠ tag := by
  rw [pending_cancelOwner_eq, pending_takeEach]
  cases he : d.pending[x]? with
  | none => rw [ite_self, Option.filter_none]
  | some e =>
    have hmem : x ∈ (d.byTag.getD tag ∅).toList ↔ e.tag = tag := by
      refine ⟨fun hx => ?_, ?_⟩
      · have howner := h.names tag x (ExtTreeSet.mem_toList.mp hx)
        rw [owner?, he] at howner
        exact Option.some.inj howner
      · rintro rfl
        exact h.owned he
    by_cases ht : e.tag = tag
    · rw [if_pos (hmem.mpr ht), Option.filter_some_neg (by simp [ht])]
    · rw [if_neg (fun hx => ht (hmem.mp hx)), Option.filter_some_pos (by simp [ht])]

theorem Exact.cancelOwner (h : d.Exact) (tag : Tag) : (d.cancelOwner tag).2.Exact := by
  refine ⟨h.toFiled.cancelOwner tag, fun t x hx => ?_⟩
  rw [byTag_cancelOwner, ExtTreeMap.getD_erase] at hx
  split at hx
  · exact absurd hx ExtTreeSet.not_mem_empty
  · rename_i ht
    obtain ⟨e, he, rfl⟩ := Option.map_eq_some_iff.mp (h.names t x hx)
    have hne : e.tag ≠ tag := fun hs => ht (LawfulEqCmp.compare_eq_iff_eq.mpr hs.symm)
    rw [owner?, h.pending_cancelOwner, he, Option.filter_some_pos (by simp [hne]), Option.map_some]

end Delays

variable {σ : Type} {w : World σ}

/-- Subscriptions and delays are filed under their owners, and nothing else is. -/
structure World.Exact (w : World σ) : Prop where
  subscriptions : w.subscriptions.Exact
  delays : w.delays.Exact

theorem World.subscriptions_releaseTag (w : World σ) (tag : Tag) :
    (w.releaseTag tag).subscriptions = (w.subscriptions.removeOwner tag).2 := by
  rw [releaseTag]
  simp only
  split <;> rfl

theorem World.delays_releaseTag (w : World σ) (tag : Tag) :
    (w.releaseTag tag).delays = (w.delays.cancelOwner tag).2 := by
  rw [releaseTag]
  simp only
  split <;> rfl

theorem World.Exact.releaseTag (h : w.Exact) (tag : Tag) : (w.releaseTag tag).Exact :=
  ⟨(subscriptions_releaseTag w tag).symm ▸ h.subscriptions.removeOwner tag,
    (delays_releaseTag w tag).symm ▸ h.delays.cancelOwner tag⟩

end BehaviorTree
