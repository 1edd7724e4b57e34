import BehaviorTree.Proofs.World.Watch

/-!
Owners and what they have filed: every subscription and every pending delay is in the set of its owner. So removing
what the set of an owner names leaves the owner nothing.
-/

namespace BehaviorTree
set_option autoImplicit false

open Std

namespace Subscriptions

variable {κ : Type} {s : Subscriptions κ} {tag owner : Tag} {id x : SubscriptionId} {e : Subscription κ}
  {ids : List SubscriptionId}

/-- Every entry has an id that was given out, and is in the set of its owner. -/
structure Filed (s : Subscriptions κ) : Prop where
  given {id : SubscriptionId} {e : Subscription κ} : s.entries[id]? = some e → id.index < s.nextIndex
  owned {id : SubscriptionId} {e : Subscription κ} : s.entries[id]? = some e → id ∈ s.ownedBy e.tag

theorem mem_ownedBy : id ∈ s.ownedBy tag ↔ ∃ ids, s.byTag[tag]? = some ids ∧ id ∈ ids := by
  rw [ownedBy, ExtTreeMap.getD_eq_getD_getElem?, ExtTreeSet.mem_toList]
  cases s.byTag[tag]? <;> simp

theorem filed_empty : (∅ : Subscriptions κ).Filed := by
  have hnone : ∀ (id : SubscriptionId) (e : Subscription κ),
      (∅ : ExtTreeMap SubscriptionId (Subscription κ))[id]? ≠ some e := by simp
  exact ⟨fun h => absurd h (hnone _ _), fun h => absurd h (hnone _ _)⟩

theorem entries_add {key : EventKey} {callback : κ} :
    (s.add key tag callback).2.entries[x]? =
      if (⟨s.nextIndex⟩ : SubscriptionId) = x then some ⟨key, tag, callback⟩ else s.entries[x]? := by
  simp [add, ExtTreeMap.getElem?_insert]

theorem Filed.add (h : s.Filed) (key : EventKey) (tag : Tag) (callback : κ) :
    (s.add key tag callback).2.Filed := by
  refine ⟨?_, ?_⟩
  · intro x e hx
    rw [entries_add] at hx
    change x.index < s.nextIndex + 1
    split at hx
    · rename_i he
      rw [← he]
      exact Nat.lt_succ_self _
    · exact Nat.lt_succ_of_lt (h.given hx)
  · intro x e hx
    rw [entries_add] at hx
    rw [mem_ownedBy]
    simp only [Subscriptions.add, ExtTreeMap.getElem?_insert]
    split at hx
    · rename_i he
      obtain rfl := Option.some.inj hx
      exact ⟨_, by simp; rfl, by simp [he]⟩
    · obtain ⟨ids, hids, hmem⟩ := mem_ownedBy.mp (h.owned hx)
      by_cases ht : tag = e.tag
      · refine ⟨_, by simp [ht]; rfl, ?_⟩
        simp [ExtTreeMap.getD_eq_getD_getElem?, hids, hmem]
      · exact ⟨ids, by simp [ht, hids], hmem⟩

theorem entries_remove : (s.remove id).2.entries[x]? = if id = x then none else s.entries[x]? := by
  rw [remove]
  split
  · rename_i hn
    split
    · rename_i he
      rw [← he, hn]
    · rfl
  · simp [ExtTreeMap.getElem?_erase]

theorem entries_of_remove (he : (s.remove id).2.entries[x]? = some e) : s.entries[x]? = some e := by
  rw [entries_remove] at he
  split at he
  · cases he
  · exact he

theorem nextIndex_remove : (s.remove id).2.nextIndex = s.nextIndex := by
  rw [remove]
  split <;> rfl

theorem mem_unfileTag {byTag : ExtTreeMap Tag (ExtTreeSet SubscriptionId)} {ids : ExtTreeSet SubscriptionId}
    (h : byTag[owner]? = some ids) (hx : x ∈ ids) (hne : x ≠ id) :
    ∃ ids, (unfileTag byTag tag id)[owner]? = some ids ∧ x ∈ ids := by
  rw [unfileTag]
  split
  · exact ⟨ids, h, hx⟩
  · rename_i ids' hids
    by_cases ht : tag = owner
    · subst ht
      obtain rfl : ids = ids' := Option.some.inj (h.symm.trans hids)
      have hmem : x ∈ ids.erase id := by simp [hx, hne.symm]
      have hne' : (ids.erase id).isEmpty = false := by
        rw [Bool.eq_false_iff]
        intro hempty
        simp [ExtTreeSet.isEmpty_iff.mp hempty] at hmem
      exact ⟨_, by simp [hne'], hmem⟩
    · refine ⟨ids, ?_, hx⟩
      simp only
      split
      · simpa [ExtTreeMap.getElem?_erase, ht] using h
      · simpa [ExtTreeMap.getElem?_insert, ht] using h

theorem Filed.remove (h : s.Filed) (id : SubscriptionId) : (s.remove id).2.Filed := by
  refine ⟨?_, ?_⟩
  · intro x e hx
    rw [nextIndex_remove]
    exact h.given (entries_of_remove hx)
  · intro x e hx
    rw [entries_remove] at hx
    split at hx
    · cases hx
    · rename_i hne
      obtain ⟨ids, hids, hmem⟩ := mem_ownedBy.mp (h.owned hx)
      rw [mem_ownedBy, Subscriptions.remove]
      split
      · exact ⟨ids, hids, hmem⟩
      · exact mem_unfileTag hids hmem (Ne.symm hne)

theorem entries_removeEach : (s.removeEach ids).2.entries[x]? = if x ∈ ids then none else s.entries[x]? := by
  induction ids generalizing s with
  | nil => simp [removeEach]
  | cons id ids ih =>
    simp only [removeEach, ih, entries_remove, List.mem_cons]
    by_cases hx : id = x
    · simp [hx]
    · simp [hx, Ne.symm hx]

theorem entries_of_removeEach (he : (s.removeEach ids).2.entries[x]? = some e) : s.entries[x]? = some e := by
  rw [entries_removeEach] at he
  split at he
  · cases he
  · exact he

theorem nextIndex_removeEach : (s.removeEach ids).2.nextIndex = s.nextIndex := by
  induction ids generalizing s with
  | nil => rfl
  | cons id ids ih => exact ih.trans nextIndex_remove

theorem Filed.removeEach (h : s.Filed) (ids : List SubscriptionId) : (s.removeEach ids).2.Filed := by
  induction ids generalizing s with
  | nil => exact h
  | cons id ids ih => exact ih (h.remove id)

/-- The sets of the owners apart, subscriptions are struck out as they are removed. -/
theorem strikeEach_eq (s : Subscriptions κ) (byTag : ExtTreeMap Tag (ExtTreeSet SubscriptionId))
    (ids : List SubscriptionId) :
    strikeEach { s with byTag } ids = ((s.removeEach ids).1, { (s.removeEach ids).2 with byTag }) := by
  induction ids generalizing s with
  | nil => rfl
  | cons id ids ih =>
    cases he : s.entries[id]? with
    | none =>
      simp only [strikeEach, removeEach, Subscriptions.remove, he]
      exact ih s
    | some entry =>
      simp only [strikeEach, removeEach, Subscriptions.remove, he]
      have hrest := ih { s with
        entries := s.entries.erase id
        byKey := unfileKey s.byKey entry.key id
        byTag := unfileTag s.byTag entry.tag id }
      dsimp only at hrest
      rw [hrest]
      rfl

theorem removeOwner_eq (s : Subscriptions κ) (tag : Tag) :
    s.removeOwner tag =
      ((s.removeEach (s.ownedBy tag)).1,
        { (s.removeEach (s.ownedBy tag)).2 with byTag := s.byTag.erase tag }) :=
  strikeEach_eq s _ _

theorem entries_removeOwner_eq (s : Subscriptions κ) (tag : Tag) :
    (s.removeOwner tag).2.entries = (s.removeEach (s.ownedBy tag)).2.entries := by rw [removeOwner_eq]

theorem byTag_removeOwner (s : Subscriptions κ) (tag : Tag) :
    (s.removeOwner tag).2.byTag = s.byTag.erase tag := by rw [removeOwner_eq]

theorem nextIndex_removeOwner (s : Subscriptions κ) (tag : Tag) :
    (s.removeOwner tag).2.nextIndex = s.nextIndex := by
  rw [removeOwner_eq]
  exact nextIndex_removeEach

/-- What is left when an owner is removed was there before, and belongs to others. -/
theorem entries_removeOwner (h : s.Filed) (he : (s.removeOwner tag).2.entries[x]? = some e) :
    s.entries[x]? = some e ∧ e.tag ≠ tag := by
  rw [entries_removeOwner_eq, entries_removeEach] at he
  split at he
  · cases he
  · rename_i hx
    refine ⟨he, ?_⟩
    rintro rfl
    exact hx (h.owned he)

theorem Filed.removeOwner (h : s.Filed) (tag : Tag) : (s.removeOwner tag).2.Filed := by
  refine ⟨fun he => ?_, ?_⟩
  · rw [nextIndex_removeOwner]
    exact h.given (entries_removeOwner h he).1
  · intro x e he
    obtain ⟨he, hne⟩ := entries_removeOwner h he
    obtain ⟨ids, hids, hmem⟩ := mem_ownedBy.mp (h.owned he)
    refine mem_ownedBy.mpr ⟨ids, ?_, hmem⟩
    simpa [byTag_removeOwner, ExtTreeMap.getElem?_erase, Ne.symm hne] using hids

theorem Filed.removeEvent (h : s.Filed) (event : String) (tag : Tag) : (s.removeEvent event tag).2.Filed :=
  h.removeEach _

theorem count_removeOwner (s : Subscriptions κ) (tag : Tag) : (s.removeOwner tag).2.count tag = 0 := by
  simp [count, byTag_removeOwner, ExtTreeMap.getD_eq_getD_getElem?]

theorem mem_callbacks {key : EventKey} {callback : κ} (h : callback ∈ s.callbacks key) :
    ∃ (id : SubscriptionId) (e : Subscription κ), s.entries[id]? = some e ∧ e.callback = callback := by
  obtain ⟨id, _, h⟩ := List.mem_filterMap.mp h
  obtain ⟨e, he, hc⟩ := Option.map_eq_some_iff.mp h
  exact ⟨id, e, he, hc⟩

end Subscriptions

namespace Delays

variable {κ : Type} {d : Delays κ} {tag owner : Tag} {id x : DelayId} {e : PendingDelay κ} {ids : List DelayId}

/-- Every pending delay has an id that was given out, and is in the set of its owner. -/
structure Filed (d : Delays κ) : Prop where
  given {id : DelayId} {e : PendingDelay κ} : d.pending[id]? = some e → id.index < d.nextIndex
  owned {id : DelayId} {e : PendingDelay κ} : d.pending[id]? = some e → id ∈ (d.byTag.getD e.tag ∅).toList

theorem mem_owned : id ∈ (d.byTag.getD tag ∅).toList ↔ ∃ ids, d.byTag[tag]? = some ids ∧ id ∈ ids := by
  rw [ExtTreeMap.getD_eq_getD_getElem?, ExtTreeSet.mem_toList]
  cases d.byTag[tag]? <;> simp

theorem filed_empty : (∅ : Delays κ).Filed := by
  have hnone : ∀ (id : DelayId) (e : PendingDelay κ), (∅ : ExtTreeMap DelayId (PendingDelay κ))[id]? ≠ some e := by
    simp
  exact ⟨fun h => absurd h (hnone _ _), fun h => absurd h (hnone _ _)⟩

theorem pending_schedule {expiry : Float} {callback : κ} :
    (d.schedule expiry tag callback).2.pending[x]? =
      if (⟨d.nextIndex⟩ : DelayId) = x then some ⟨expiry, tag, callback⟩ else d.pending[x]? := by
  simp [schedule, ExtTreeMap.getElem?_insert]

theorem Filed.schedule (h : d.Filed) (expiry : Float) (tag : Tag) (callback : κ) :
    (d.schedule expiry tag callback).2.Filed := by
  refine ⟨?_, ?_⟩
  · intro x e hx
    rw [pending_schedule] at hx
    change x.index < d.nextIndex + 1
    split at hx
    · rename_i he
      rw [← he]
      exact Nat.lt_succ_self _
    · exact Nat.lt_succ_of_lt (h.given hx)
  · intro x e hx
    rw [pending_schedule] at hx
    rw [mem_owned]
    simp only [Delays.schedule, ExtTreeMap.getElem?_insert]
    split at hx
    · rename_i he
      obtain rfl := Option.some.inj hx
      exact ⟨_, by simp; rfl, by simp [he]⟩
    · obtain ⟨ids, hids, hmem⟩ := mem_owned.mp (h.owned hx)
      by_cases ht : tag = e.tag
      · refine ⟨_, by simp [ht]; rfl, ?_⟩
        simp [ExtTreeMap.getD_eq_getD_getElem?, hids, hmem]
      · exact ⟨ids, by simp [ht, hids], hmem⟩

theorem pending_take : (d.take id).2.pending[x]? = if id = x then none else d.pending[x]? := by
  rw [take]
  split
  · rename_i hn
    split
    · rename_i he
      rw [← he, hn]
    · rfl
  · simp [ExtTreeMap.getElem?_erase]

theorem pending_of_take (he : (d.take id).2.pending[x]? = some e) : d.pending[x]? = some e := by
  rw [pending_take] at he
  split at he
  · cases he
  · exact he

theorem nextIndex_take : (d.take id).2.nextIndex = d.nextIndex := by
  rw [take]
  split <;> rfl

theorem mem_unfileTag {byTag : ExtTreeMap Tag (ExtTreeSet DelayId)} {ids : ExtTreeSet DelayId}
    (h : byTag[owner]? = some ids) (hx : x ∈ ids) (hne : x ≠ id) :
    ∃ ids, (unfileTag byTag tag id)[owner]? = some ids ∧ x ∈ ids := by
  rw [unfileTag]
  split
  · exact ⟨ids, h, hx⟩
  · rename_i ids' hids
    by_cases ht : tag = owner
    · subst ht
      obtain rfl : ids = ids' := Option.some.inj (h.symm.trans hids)
      have hmem : x ∈ ids.erase id := by simp [hx, hne.symm]
      have hne' : (ids.erase id).isEmpty = false := by
        rw [Bool.eq_false_iff]
        intro hempty
        simp [ExtTreeSet.isEmpty_iff.mp hempty] at hmem
      exact ⟨_, by simp [hne'], hmem⟩
    · refine ⟨ids, ?_, hx⟩
      simp only
      split
      · simpa [ExtTreeMap.getElem?_erase, ht] using h
      · simpa [ExtTreeMap.getElem?_insert, ht] using h

theorem Filed.take (h : d.Filed) (id : DelayId) : (d.take id).2.Filed := by
  refine ⟨?_, ?_⟩
  · intro x e hx
    rw [nextIndex_take]
    exact h.given (pending_of_take hx)
  · intro x e hx
    rw [pending_take] at hx
    split at hx
    · cases hx
    · rename_i hne
      obtain ⟨ids, hids, hmem⟩ := mem_owned.mp (h.owned hx)
      rw [mem_owned, Delays.take]
      split
      · exact ⟨ids, hids, hmem⟩
      · exact mem_unfileTag hids hmem (Ne.symm hne)

theorem Filed.cancel (h : d.Filed) (id : DelayId) : (d.cancel id).2.Filed := h.take id

theorem pending_takeEach : (d.takeEach ids).2.pending[x]? = if x ∈ ids then none else d.pending[x]? := by
  induction ids generalizing d with
  | nil => simp [takeEach]
  | cons id ids ih =>
    simp only [takeEach, ih, pending_take, List.mem_cons]
    by_cases hx : id = x
    · simp [hx]
    · simp [hx, Ne.symm hx]

theorem pending_of_takeEach (he : (d.takeEach ids).2.pending[x]? = some e) : d.pending[x]? = some e := by
  rw [pending_takeEach] at he
  split at he
  · cases he
  · exact he

theorem nextIndex_takeEach : (d.takeEach ids).2.nextIndex = d.nextIndex := by
  induction ids generalizing d with
  | nil => rfl
  | cons id ids ih => exact ih.trans nextIndex_take

theorem Filed.takeEach (h : d.Filed) (ids : List DelayId) : (d.takeEach ids).2.Filed := by
  induction ids generalizing d with
  | nil => exact h
  | cons id ids ih => exact ih (h.take id)

theorem mem_takeEach {callback : κ} (h : callback ∈ (d.takeEach ids).1) :
    ∃ (id : DelayId) (e : PendingDelay κ), d.pending[id]? = some e ∧ e.callback = callback := by
  induction ids generalizing d with
  | nil => simp [takeEach] at h
  | cons id ids ih =>
    simp only [takeEach, List.mem_append, Option.mem_toList] at h
    rcases h with h | h
    · rw [take] at h
      split at h
      · cases h
      · rename_i e he
        exact ⟨id, e, he, Option.some.inj h⟩
    · obtain ⟨x, e, hx, he⟩ := ih h
      exact ⟨x, e, pending_of_take hx, he⟩

/-- The sets of the owners apart, delays are dropped as they are taken out. -/
theorem dropEach_eq (d : Delays κ) (byTag : ExtTreeMap Tag (ExtTreeSet DelayId)) (ids : List DelayId) :
    dropEach { d with byTag } ids = ((d.takeEach ids).1.length, { (d.takeEach ids).2 with byTag }) := by
  induction ids generalizing d with
  | nil => rfl
  | cons id ids ih =>
    cases he : d.pending[id]? with
    | none =>
      simp only [dropEach, takeEach, Delays.take, he]
      exact ih d
    | some entry =>
      simp only [dropEach, takeEach, Delays.take, he]
      have hrest := ih { d with
        pending := d.pending.erase id
        byTag := unfileTag d.byTag entry.tag id }
      dsimp only at hrest
      rw [hrest]
      rfl

theorem cancelOwner_eq (d : Delays κ) (tag : Tag) :
    d.cancelOwner tag =
      ((d.takeEach (d.byTag.getD tag ∅).toList).1.length,
        { (d.takeEach (d.byTag.getD tag ∅).toList).2 with byTag := d.byTag.erase tag }) :=
  dropEach_eq d _ _

theorem pending_cancelOwner_eq (d : Delays κ) (tag : Tag) :
    (d.cancelOwner tag).2.pending = (d.takeEach (d.byTag.getD tag ∅).toList).2.pending := by rw [cancelOwner_eq]

theorem byTag_cancelOwner (d : Delays κ) (tag : Tag) : (d.cancelOwner tag).2.byTag = d.byTag.erase tag := by
  rw [cancelOwner_eq]

theorem nextIndex_cancelOwner (d : Delays κ) (tag : Tag) : (d.cancelOwner tag).2.nextIndex = d.nextIndex := by
  rw [cancelOwner_eq]
  exact nextIndex_takeEach

/-- What is left when the delays of an owner are cancelled was there before, and belongs to others. -/
theorem pending_cancelOwner (h : d.Filed) (he : (d.cancelOwner tag).2.pending[x]? = some e) :
    d.pending[x]? = some e ∧ e.tag ≠ tag := by
  rw [pending_cancelOwner_eq, pending_takeEach] at he
  split at he
  · cases he
  · rename_i hx
    refine ⟨he, ?_⟩
    rintro rfl
    exact hx (h.owned he)

theorem Filed.cancelOwner (h : d.Filed) (tag : Tag) : (d.cancelOwner tag).2.Filed := by
  refine ⟨fun he => ?_, ?_⟩
  · rw [nextIndex_cancelOwner]
    exact h.given (pending_cancelOwner h he).1
  · intro x e he
    obtain ⟨he, hne⟩ := pending_cancelOwner h he
    obtain ⟨ids, hids, hmem⟩ := mem_owned.mp (h.owned he)
    refine mem_owned.mpr ⟨ids, ?_, hmem⟩
    simpa [byTag_cancelOwner, ExtTreeMap.getElem?_erase, Ne.symm hne] using hids

theorem count_cancelOwner (d : Delays κ) (tag : Tag) : (d.cancelOwner tag).2.count tag = 0 := by
  simp [count, byTag_cancelOwner, ExtTreeMap.getD_eq_getD_getElem?]

end Delays

variable {σ : Type} {w w' : World σ}

structure World.OwnsNothing (w : World σ) (tag : Tag) : Prop where
  subscriptions (id : SubscriptionId) (e : Subscription (Listener σ)) :
    w.subscriptions.entries[id]? = some e → e.tag ≠ tag
  delays (id : DelayId) (e : PendingDelay (Alarm σ)) : w.delays.pending[id]? = some e → e.tag ≠ tag
  countSubscriptions : w.subscriptions.count tag = 0
  countDelays : w.delays.count tag = 0

namespace World

theorem OwnsNothing.of_eq {tag : Tag} (h : w.OwnsNothing tag) (hs : w'.subscriptions = w.subscriptions)
    (hd : w'.delays = w.delays) : w'.OwnsNothing tag :=
  ⟨hs ▸ h.subscriptions, hd ▸ h.delays, hs ▸ h.countSubscriptions, hd ▸ h.countDelays⟩

theorem ownsNothing_releaseTag (hs : w.subscriptions.Filed) (hd : w.delays.Filed) (tag : Tag) :
    (w.releaseTag tag).OwnsNothing tag := by
  have hown : ({ w with
      subscriptions := (w.subscriptions.removeOwner tag).2
      delays := (w.delays.cancelOwner tag).2 } : World σ).OwnsNothing tag :=
    ⟨fun _ _ he => (Subscriptions.entries_removeOwner hs he).2, fun _ _ he => (Delays.pending_cancelOwner hd he).2,
      Subscriptions.count_removeOwner _ _, Delays.count_cancelOwner _ _⟩
  rw [releaseTag]
  simp only
  split
  · exact ⟨hown.subscriptions, hown.delays, hown.countSubscriptions, hown.countDelays⟩
  · exact hown

@[simp] theorem instances_releaseTag (w : World σ) (tag : Tag) : (w.releaseTag tag).instances = w.instances := by
  rw [releaseTag]
  simp only
  split <;> rfl

@[simp] theorem instanceOf_releaseTag (w : World σ) (tag o : Tag) : (w.releaseTag tag).instanceOf o = w.instanceOf o := by
  unfold instanceOf
  rw [instances_releaseTag]

@[simp] theorem acts_releaseTag (w : World σ) (tag o : Tag) : (w.releaseTag tag).acts o = w.acts o := by
  rw [releaseTag]
  simp only
  split
  · exact acts_report _ _ _
  · rfl

@[simp] theorem nextTag_releaseTag (w : World σ) (tag : Tag) : (w.releaseTag tag).nextTag = w.nextTag := by
  rw [releaseTag]
  simp only
  split <;> rfl

/-- Nothing of an instance is left, in it or in the world, but its variables. -/
structure Bare (owner : Tag) (i : Instance) (w : World σ) : Prop where
  interrupted : i.interrupted = false
  pending : i.pending = []
  stack : i.env.stack = ∅
  temps : i.env.temps = ∅
  detached : i.env.detached = ∅
  owns : w.OwnsNothing owner
  spilled : w.spilled owner i.tree = false

theorem spilled_of_unwound {owner : Tag} {t : Tree} (acts : List Activity) (h : w.acts owner = acts ++ [.unwound]) :
    w.spilled owner t = false := by
  rw [spilled, watch, h, List.foldl_append]
  rfl

theorem Bare.report {owner : Tag} {i : Instance} (h : w.Bare owner i) (r : Report) : (w.report r).Bare owner i := by
  refine ⟨h.interrupted, h.pending, h.stack, h.temps, h.detached, h.owns.of_eq rfl rfl, ?_⟩
  rw [World.spilled, World.watch, acts_report]
  exact h.spilled

end World

end BehaviorTree
