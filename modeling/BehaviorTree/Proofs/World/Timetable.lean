import BehaviorTree.Proofs.World.Agenda
import BehaviorTree.Proofs.World.Roster

/-!
A table of delays is as good as an agenda. It files those who wait there and nobody else, and it counts them by their
owners; whom it takes out when the clock advances are those who are due, in their order.
-/

namespace BehaviorTree
set_option autoImplicit false

open Std

/-- Elements that are all images are the image of a list. -/
theorem exists_map_eq {α β : Type} {f : α → β} {p : α → Prop} {bs : List β} (h : ∀ b ∈ bs, ∃ a, p a ∧ f a = b) :
    ∃ as : List α, as.map f = bs ∧ ∀ a ∈ as, p a := by
  induction bs with
  | nil => exact ⟨[], rfl, nofun⟩
  | cons b bs ih =>
    obtain ⟨a, ha, rfl⟩ := h b List.mem_cons_self
    obtain ⟨as, rfl, has⟩ := ih fun b hb => h b (List.mem_cons_of_mem _ hb)
    exact ⟨a :: as, rfl, List.forall_mem_cons.mpr ⟨ha, has⟩⟩

namespace Delays

variable {κ : Type} {d : Delays κ} {a : Agenda κ} {id : DelayId} {tag : Tag} {now : Float} {ids : List DelayId}

theorem comesBefore_iff {x y : Float × DelayId} :
    comesBefore x y = true ↔ Binary64.orderKey x.1 < Binary64.orderKey y.1 ∨
      Binary64.orderKey x.1 = Binary64.orderKey y.1 ∧ x.2.index ≤ y.2.index := by
  unfold comesBefore
  cases hc : compare (Binary64.orderKey x.1) (Binary64.orderKey y.1) with
  | lt => simp [Int.compare_eq_lt.mp hc]
  | eq =>
    have he := Int.compare_eq_eq.mp hc
    simp [he]
  | gt =>
    have hgt := Int.compare_eq_gt.mp hc
    simp only [Bool.false_eq_true, false_iff]
    omega

def ready (d : Delays κ) (now : Float) : List (Float × DelayId) :=
  d.pending.toList.filterMap fun (id, entry) => if entry.expiry ≤ now then some (entry.expiry, id) else none

theorem mem_ready {p : Float × DelayId} :
    p ∈ d.ready now ↔ ∃ e, d.pending[p.2]? = some e ∧ e.expiry = p.1 ∧ p.1 ≤ now := by
  unfold ready
  rw [List.mem_filterMap]
  constructor
  · rintro ⟨⟨id, e⟩, he, hp⟩
    rw [ExtTreeMap.mem_toList_iff_getElem?_eq_some] at he
    dsimp only at hp
    split at hp
    · rename_i hdue
      obtain rfl := Option.some.inj hp
      exact ⟨e, he, rfl, hdue⟩
    · cases hp
  · rintro ⟨e, he, hx, hdue⟩
    refine ⟨(p.2, e), ExtTreeMap.mem_toList_iff_getElem?_eq_some.mpr he, ?_⟩
    simp [hx, hdue]

theorem nodup_ready (d : Delays κ) (now : Float) : ((d.ready now).map (·.2)).Nodup := by
  rw [List.nodup_iff_pairwise_ne, List.pairwise_map]
  unfold ready
  rw [List.pairwise_filterMap]
  apply ExtTreeMap.distinct_keys_toList.imp
  rintro ⟨id, e⟩ ⟨id', e'⟩ hne x hx y hy he
  dsimp only at hx hy
  split at hx
  · split at hy
    · obtain rfl := Option.some.inj hx
      obtain rfl := Option.some.inj hy
      exact hne (LawfulEqCmp.compare_eq_iff_eq.mpr he)
    · cases hy
  · cases hx

def sorted (d : Delays κ) (now : Float) : List (Float × DelayId) := (d.ready now).mergeSort comesBefore

theorem due_eq (d : Delays κ) (now : Float) : d.due now = (d.sorted now).map (·.2) := rfl

theorem mem_sorted {p : Float × DelayId} :
    p ∈ d.sorted now ↔ ∃ e, d.pending[p.2]? = some e ∧ e.expiry = p.1 ∧ p.1 ≤ now := by
  unfold sorted
  rw [(List.mergeSort_perm _ _).mem_iff, mem_ready]

theorem mem_due : id ∈ d.due now ↔ ∃ e, d.pending[id]? = some e ∧ e.expiry ≤ now := by
  rw [due_eq, List.mem_map]
  constructor
  · rintro ⟨p, hp, rfl⟩
    obtain ⟨e, he, hx, hdue⟩ := mem_sorted.mp hp
    exact ⟨e, he, hx ▸ hdue⟩
  · rintro ⟨e, he, hdue⟩
    exact ⟨(e.expiry, id), mem_sorted.mpr ⟨e, he, rfl, hdue⟩, rfl⟩

theorem nodup_due (d : Delays κ) (now : Float) : (d.due now).Nodup :=
  ((List.mergeSort_perm _ _).map _).nodup_iff.mpr (nodup_ready d now)

theorem pairwise_sorted (d : Delays κ) (now : Float) :
    (d.sorted now).Pairwise fun x y => comesBefore x y = true ∧ x.2 ≠ y.2 := by
  have hle : (d.sorted now).Pairwise fun x y => comesBefore x y = true := by
    apply List.pairwise_mergeSort
    · intro x y z hxy hyz
      rw [comesBefore_iff] at *
      omega
    · intro x y
      rw [Bool.or_eq_true, comesBefore_iff, comesBefore_iff]
      omega
  exact hle.and (List.pairwise_map.mp (List.nodup_iff_pairwise_ne.mp (nodup_due d now)))

/-- A table files exactly those who wait on an agenda, under their owners. -/
structure Lists (d : Delays κ) (a : Agenda κ) : Prop extends d.Exact where
  nextIndex : d.nextIndex = a.nextIndex
  distinct : (a.pending.map (·.id)).Nodup
  pending (x : Appointment κ) : x ∈ a.pending ↔ d.pending[x.id]? = some ⟨x.expiry, x.tag, x.callback⟩

theorem lists_empty : (∅ : Delays κ).Lists {} where
  toExact := exact_empty
  nextIndex := rfl
  distinct := .nil
  pending x := by
    change x ∈ [] ↔ (∅ : ExtTreeMap DelayId (PendingDelay κ))[x.id]? = some (PendingDelay.mk x.expiry x.tag x.callback)
    rw [ExtTreeMap.getElem?_empty]
    simp

theorem Lists.exists_mem (h : d.Lists a) {e : PendingDelay κ} (he : d.pending[id]? = some e) :
    (⟨id, e.expiry, e.tag, e.callback⟩ : Appointment κ) ∈ a.pending := (h.pending _).mpr he

theorem Lists.batches (h : d.Lists a) (batches : List (List (Appointment κ))) : d.Lists { a with batches } :=
  ⟨h.toExact, h.nextIndex, h.distinct, h.pending⟩

theorem Lists.unique (h : d.Lists a) {x y : Appointment κ} (hx : x ∈ a.pending) (hy : y ∈ a.pending)
    (he : x.id = y.id) : x = y := List.inj_on_of_nodup_map h.distinct hx hy he

theorem Lists.schedule (h : d.Lists a) (expiry : Float) (tag : Tag) (callback : κ) :
    (d.schedule expiry tag callback).1 = ⟨a.nextIndex⟩ ∧
      (d.schedule expiry tag callback).2.Lists
        { a with nextIndex := a.nextIndex + 1, pending := a.pending ++ [⟨⟨a.nextIndex⟩, expiry, tag, callback⟩] } := by
  have hindex := h.nextIndex
  have hnew : ∀ x ∈ a.pending, x.id ≠ ⟨a.nextIndex⟩ := by
    intro x hx he
    have hlt := h.given ((h.pending x).mp hx)
    rw [he, hindex] at hlt
    exact Nat.lt_irrefl _ hlt
  refine ⟨congrArg DelayId.mk hindex, ?_⟩
  constructor
  · exact h.toExact.schedule expiry tag callback
  · exact congrArg (· + 1) hindex
  · rw [List.map_append]
    apply List.Nodup.append h.distinct
    · simp
    · intro id hid hlast
      obtain ⟨x, hx, rfl⟩ := List.mem_map.mp hid
      exact hnew x hx (by simpa using hlast)
  · intro x
    rw [pending_schedule, hindex, List.mem_append, List.mem_singleton]
    split
    · rename_i hx
      constructor
      · rintro (hmem | rfl)
        · exact absurd hx.symm (hnew x hmem)
        · rfl
      · intro he
        obtain ⟨rfl, rfl, rfl⟩ := PendingDelay.mk.inj (Option.some.inj he)
        exact .inr (by rw [hx])
    · rename_i hx
      rw [← h.pending, or_iff_left]
      rintro rfl
      exact hx rfl

theorem Lists.of_taken (h : d.Lists a) {d' : Delays κ} (hd : d'.Exact) (hindex : d'.nextIndex = d.nextIndex)
    {keep : Appointment κ → Bool}
    (hkeep : ∀ x ∈ a.pending, d'.pending[x.id]? = if keep x = true then d.pending[x.id]? else none)
    (hless : ∀ (id : DelayId) (e : PendingDelay κ), d'.pending[id]? = some e → d.pending[id]? = some e) :
    d'.Lists { a with pending := a.pending.filter keep } := by
  constructor
  · exact hd
  · exact hindex.trans h.nextIndex
  · exact h.distinct.sublist (List.filter_sublist.map _)
  · intro x
    rw [List.mem_filter]
    constructor
    · rintro ⟨hx, hk⟩
      rw [hkeep x hx, if_pos hk]
      exact (h.pending x).mp hx
    · intro he
      have hx := (h.pending x).mpr (hless _ _ he)
      rw [hkeep x hx] at he
      split at he
      · rename_i hk
        exact ⟨hx, hk⟩
      · cases he

theorem Lists.cancel (h : d.Lists a) (id : DelayId) :
    (d.cancel id).1 = a.pending.any (·.id = id) ∧
      (d.cancel id).2.Lists { a with pending := a.pending.filter (·.id ≠ id) } := by
  constructor
  · rw [Bool.eq_iff_iff]
    change (d.take id).1.isSome = true ↔ _
    rw [Delays.take]
    simp only [List.any_eq_true, decide_eq_true_eq]
    cases he : d.pending[id]? with
    | none =>
      simp only [Option.isSome_none, Bool.false_eq_true, false_iff]
      rintro ⟨x, hx, rfl⟩
      exact Option.some_ne_none _ (((h.pending x).mp hx).symm.trans he)
    | some e =>
      simp only [Option.isSome_some, true_iff]
      exact ⟨_, h.exists_mem he, rfl⟩
  · apply h.of_taken (h.toExact.cancel id) nextIndex_take
    · intro x _
      change (d.take id).2.pending[x.id]? = _
      rw [pending_take]
      by_cases hx : id = x.id
      · simp [hx]
      · simp [hx, Ne.symm hx]
    · exact fun x e he => pending_of_take he

theorem Lists.cancelOwner (h : d.Lists a) (tag : Tag) :
    (d.cancelOwner tag).2.Lists { a with pending := a.pending.filter (·.tag ≠ tag) } := by
  apply h.of_taken (h.toExact.cancelOwner tag) (nextIndex_cancelOwner d tag)
  · intro x hx
    rw [h.toExact.pending_cancelOwner, (h.pending x).mp hx]
    by_cases ht : x.tag = tag
    · simp [ht]
    · simp [ht]
  · intro x e he
    exact (pending_cancelOwner h.toFiled he).1

theorem callbacks_takeEach (hn : ids.Nodup) :
    (d.takeEach ids).1 = ids.filterMap fun id => d.pending[id]?.map (·.callback) := by
  induction ids generalizing d with
  | nil => rfl
  | cons id ids ih =>
    obtain ⟨hid, hn⟩ := List.nodup_cons.mp hn
    have hfirst : (d.take id).1 = d.pending[id]?.map (·.callback) := by
      rw [Delays.take]
      cases d.pending[id]? <;> rfl
    have hrest : (ids.filterMap fun x => (d.take id).2.pending[x]?.map (·.callback)) =
        ids.filterMap fun x => d.pending[x]?.map (·.callback) := by
      apply List.filterMap_congr
      intro x hx
      rw [pending_take, if_neg]
      rintro rfl
      exact hid hx
    change (d.take id).1.toList ++ ((d.take id).2.takeEach ids).1 = _
    rw [ih hn, hrest, hfirst, List.filterMap_cons]
    cases d.pending[id]? <;> rfl

theorem length_takeDue (d : Delays κ) (now : Float) : (d.takeDue now).1.length = (d.due now).length := by
  rw [takeDue, callbacks_takeEach (nodup_due d now), List.filterMap_length_eq_length]
  intro id hid
  obtain ⟨e, he, _⟩ := mem_due.mp hid
  rw [he]
  rfl

theorem Lists.mem_sorted (h : d.Lists a) {x : Appointment κ} (hx : x ∈ a.pending) :
    (x.expiry, x.id) ∈ d.sorted now ↔ x.expiry ≤ now := by
  rw [Delays.mem_sorted]
  constructor
  · rintro ⟨_, _, _, hdue⟩
    exact hdue
  · exact fun hdue => ⟨_, (h.pending x).mp hx, rfl, hdue⟩

theorem Lists.mem_due (h : d.Lists a) {x : Appointment κ} (hx : x ∈ a.pending) :
    x.id ∈ d.due now ↔ x.expiry ≤ now := by
  rw [Delays.mem_due, (h.pending x).mp hx]
  simp

theorem Lists.exists_batch (h : d.Lists a) (now : Float) :
    ∃ batch, Batch a.pending now batch ∧ d.due now = batch.map (·.id) := by
  have hwaits : ∀ p ∈ d.sorted now, ∃ x : Appointment κ, x ∈ a.pending ∧ (x.expiry, x.id) = p := by
    rintro ⟨expiry, id⟩ hp
    obtain ⟨e, he, rfl, _⟩ := Delays.mem_sorted.mp hp
    exact ⟨_, h.exists_mem he, rfl⟩
  obtain ⟨batch, hbatch, hpending⟩ := exists_map_eq hwaits
  refine ⟨batch, ⟨?_, fun x => ⟨fun hx => ?_, fun hx => ?_⟩⟩, ?_⟩
  · have hpairs := pairwise_sorted d now
    rw [← hbatch, List.pairwise_map] at hpairs
    apply hpairs.imp
    rintro x y ⟨hbefore, hne⟩
    rw [comesBefore_iff] at hbefore
    apply hbefore.imp_right
    rintro ⟨he, hle⟩
    have hindex : x.id.index ≠ y.id.index := fun heq => hne (congrArg DelayId.mk heq)
    exact ⟨he, Nat.lt_of_le_of_ne hle hindex⟩
  · have hsorted : (x.expiry, x.id) ∈ d.sorted now := hbatch ▸ List.mem_map.mpr ⟨x, hx, rfl⟩
    exact ⟨hpending x hx, (h.mem_sorted (hpending x hx)).mp hsorted⟩
  · obtain ⟨hx, hready⟩ := hx
    have hsorted : (x.expiry, x.id) ∈ d.sorted now := (h.mem_sorted hx).mpr hready
    rw [← hbatch] at hsorted
    obtain ⟨y, hy, he⟩ := List.mem_map.mp hsorted
    obtain rfl := h.unique (hpending y hy) hx (Prod.mk.inj he).2
    exact hy
  · rw [due_eq, ← hbatch, List.map_map]
    rfl

/-- When the clock advances, those who are due are taken out, in their order. -/
theorem Lists.takeDue (h : d.Lists a) (now : Float) :
    ∃ batch, Batch a.pending now batch ∧ d.due now = batch.map (·.id) ∧ (d.takeDue now).1 = batch.map (·.callback) ∧
      (d.takeDue now).2.Lists { a with pending := a.pending.filter (¬·.expiry ≤ now) } := by
  obtain ⟨batch, hbatch, hids⟩ := h.exists_batch now
  refine ⟨batch, hbatch, hids, ?_, ?_⟩
  · rw [Delays.takeDue, callbacks_takeEach (nodup_due d now), hids, List.filterMap_map, ← List.filterMap_eq_map]
    apply List.filterMap_congr
    intro x hx
    rw [Function.comp_apply, (h.pending x).mp ((hbatch.mem_iff x).mp hx).1]
    rfl
  · apply h.of_taken (h.toExact.takeEach _) nextIndex_takeEach
    · intro x hx
      rw [pending_takeEach]
      by_cases hdue : x.expiry ≤ now
      · simp [h.mem_due hx, hdue]
      · simp [h.mem_due hx, hdue]
    · exact fun x e he => pending_of_takeEach he

theorem Lists.count (h : d.Lists a) (tag : Tag) : d.count tag = a.pending.countP (·.tag = tag) := by
  rw [Delays.count, List.countP_eq_length_filter, ← List.length_map (fun x => x.id)]
  apply size_of_mem_iff
  · exact h.distinct.sublist (List.filter_sublist.map _)
  · intro id
    rw [List.mem_map]
    constructor
    · intro hid
      have howner := h.names tag id hid
      rw [owner?, Option.map_eq_some_iff] at howner
      obtain ⟨e, he, ht⟩ := howner
      exact ⟨_, List.mem_filter.mpr ⟨h.exists_mem he, by simpa using ht⟩, rfl⟩
    · rintro ⟨x, hx, rfl⟩
      obtain ⟨hx, ht⟩ := List.mem_filter.mp hx
      rw [← of_decide_eq_true ht]
      exact ExtTreeSet.mem_toList.mp (h.owned ((h.pending x).mp hx))

end Delays

end BehaviorTree
