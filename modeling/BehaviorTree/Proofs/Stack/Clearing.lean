import BehaviorTree.Payload

/-!
What clearing a stack forgets: the payloads of its frames and of all frames that these lead to through the stacks
saved in payloads. Nothing is assumed about the stacks, which may share frames or lead back to each other.
-/

namespace BehaviorTree
set_option autoImplicit false

theorem Temps.get_insert (temps : Temps) (id k : NodeId) (p : Payload) :
    (temps.insert id p)[k]? = if id = k then some p else temps[k]? := by
  rw [Std.ExtTreeMap.getElem?_insert]
  simp only [Std.LawfulEqCmp.compare_eq_iff_eq]

theorem Temps.get_erase (temps : Temps) (id k : NodeId) :
    (temps.erase id)[k]? = if id = k then none else temps[k]? := by
  rw [Std.ExtTreeMap.getElem?_erase]
  simp only [Std.LawfulEqCmp.compare_eq_iff_eq]

theorem Temps.erase_of_none {temps : Temps} {id : NodeId} (h : temps[id]? = none) : temps.erase id = temps := by
  refine Std.ExtTreeMap.ext_getElem? fun k => ?_
  by_cases hk : id = k
  · rw [get_erase, if_pos hk, ← hk, h]
  · rw [get_erase, if_neg hk]

/-- The nodes that frames lead to: those of the frames themselves, and on through the stacks saved in payloads. -/
inductive Temps.Leads (temps : Temps) (frames : List NodeId) : NodeId → Prop where
  | frame {id : NodeId} : id ∈ frames → Leads temps frames id
  | saved {id x : NodeId} {p : Payload} :
      Leads temps frames x → temps[x]? = some p → id ∈ p.nestedFrames → Leads temps frames id

namespace Temps.Leads

variable {temps temps' : Temps} {frames frames' : List NodeId} {x : NodeId}

theorem mono (hf : ∀ y ∈ frames, temps'.Leads frames' y)
    (hs : ∀ y p, temps.Leads frames y → temps[y]? = some p → temps'[y]? = some p)
    (h : temps.Leads frames x) : temps'.Leads frames' x := by
  induction h with
  | frame hx => exact hf _ hx
  | saved hy hp hx ih => exact .saved ih (hs _ _ hy hp) hx

theorem of_subset (hf : ∀ y ∈ frames, y ∈ frames') (h : temps.Leads frames x) : temps.Leads frames' x :=
  h.mono (fun y hy => .frame (hf y hy)) fun _ _ _ hp => hp

/-- Frames lead nowhere else than to what holds of them and is passed on by payloads. -/
theorem closed {F : NodeId → Prop} (hf : ∀ y ∈ frames, F y)
    (hs : ∀ y p, F y → temps[y]? = some p → ∀ z ∈ p.nestedFrames, F z) (h : temps.Leads frames x) : F x := by
  induction h with
  | frame hx => exact hf _ hx
  | saved _ hp hx ih => exact hs _ _ ih hp _ hx

end Temps.Leads

namespace Stack

theorem firstLive?_eq_none {temps : Temps} {frames : List NodeId} (h : firstLive? temps frames = none) :
    ∀ x ∈ frames, temps[x]? = none := by
  induction frames with
  | nil => simp
  | cons y rest ih =>
    rw [firstLive?] at h
    split at h
    · simp at h
    · intro x hx
      rcases List.mem_cons.mp hx with rfl | hx
      · assumption
      · exact ih h x hx

theorem firstLive?_eq_some {temps : Temps} {frames rest : List NodeId} {id : NodeId} {p : Payload}
    (h : firstLive? temps frames = some (id, p, rest)) :
    ∃ dead, frames = dead ++ id :: rest ∧ (∀ x ∈ dead, temps[x]? = none) ∧ temps[id]? = some p := by
  induction frames with
  | nil => simp [firstLive?] at h
  | cons y tail ih =>
    rw [firstLive?] at h
    split at h
    · rename_i q hq
      obtain ⟨rfl, rfl, rfl⟩ : y = id ∧ q = p ∧ tail = rest := by simpa using h
      exact ⟨[], rfl, by simp, hq⟩
    · rename_i hy
      obtain ⟨dead, rfl, hd, hp⟩ := ih h
      refine ⟨y :: dead, rfl, ?_, hp⟩
      intro x hx
      rcases List.mem_cons.mp hx with rfl | hx
      · exact hy
      · exact hd x hx

theorem leads_of_dead {temps : Temps} {frames : List NodeId} {x : NodeId} (hd : ∀ y ∈ frames, temps[y]? = none)
    (h : temps.Leads frames x) : x ∈ frames := by
  refine h.closed (fun _ hy => hy) ?_
  intro y p hy hp
  rw [hd y hy] at hp
  cases hp

/-- One round of a sweep: what the frames led to is the payload that goes, or is led to afterwards. -/
theorem leads_round {temps : Temps} {dead rest : List NodeId} {id x : NodeId} {p : Payload}
    (hd : ∀ y ∈ dead, temps[y]? = none) (hp : temps[id]? = some p) :
    temps.Leads (dead ++ id :: rest) x ↔
      x ∈ dead ∨ x = id ∨ Temps.Leads (temps.erase id) (p.nestedFrames ++ rest) x := by
  constructor
  · intro h
    induction h with
    | @frame y hy =>
      rcases List.mem_append.mp hy with hy | hy
      · exact .inl hy
      · rcases List.mem_cons.mp hy with rfl | hy
        · exact .inr (.inl rfl)
        · exact .inr (.inr (.frame (List.mem_append_right _ hy)))
    | @saved z y q _ hq hz ih =>
      refine .inr (.inr ?_)
      by_cases hy : y = id
      · subst y
        obtain rfl : p = q := Option.some.inj (hp.symm.trans hq)
        exact .frame (List.mem_append_left _ hz)
      · rcases ih with ih | ih | ih
        · rw [hd y ih] at hq
          cases hq
        · exact absurd ih hy
        · refine .saved ih ?_ hz
          simpa [Std.ExtTreeMap.getElem?_erase, Ne.symm hy] using hq
  · rintro (h | rfl | h)
    · exact .frame (List.mem_append_left _ h)
    · exact .frame (List.mem_append_right _ List.mem_cons_self)
    · refine h.mono ?_ ?_
      · intro y hy
        rcases List.mem_append.mp hy with hy | hy
        · exact .saved (.frame (List.mem_append_right _ List.mem_cons_self)) hp hy
        · exact .frame (List.mem_append_right _ (List.mem_cons_of_mem _ hy))
      · intro y q _ hq
        rw [Std.ExtTreeMap.getElem?_erase] at hq
        split at hq
        · cases hq
        · exact hq

/-- A sweep with enough rounds forgets the payloads that the frames lead to, and no others. -/
theorem getElem?_sweep {rounds : Nat} {frames : List NodeId} {temps : Temps} (hr : temps.size ≤ rounds)
    (x : NodeId) :
    (temps.Leads frames x → (sweep rounds frames temps)[x]? = none) ∧
      (¬ temps.Leads frames x → (sweep rounds frames temps)[x]? = temps[x]?) := by
  induction rounds generalizing frames temps with
  | zero =>
    have he : temps = ∅ := Std.ExtTreeMap.eq_empty_iff_size_eq_zero.mpr (Nat.le_zero.mp hr)
    subst he
    simp [sweep]
  | succ rounds ih =>
    rw [sweep]
    split
    · rename_i hn
      have hd := firstLive?_eq_none hn
      exact ⟨fun h => hd x (leads_of_dead hd h), fun _ => rfl⟩
    · rename_i id p rest hs
      obtain ⟨dead, rfl, hd, hp⟩ := firstLive?_eq_some hs
      have hmem : temps.contains id = true := by simp [Std.ExtTreeMap.contains_eq_isSome_getElem?, hp]
      have hsize : (temps.erase id).size ≤ rounds := by
        rw [Std.ExtTreeMap.size_erase, if_pos hmem]
        omega
      obtain ⟨hgone, hkept⟩ := @ih (p.nestedFrames ++ rest) _ hsize
      have herase : (temps.erase id)[x]? = if id = x then none else temps[x]? := by
        simp [Std.ExtTreeMap.getElem?_erase]
      rw [leads_round hd hp]
      by_cases hl : Temps.Leads (temps.erase id) (p.nestedFrames ++ rest) x
      · exact ⟨fun _ => hgone hl, fun h => absurd (.inr (.inr hl)) h⟩
      · rw [hkept hl, herase]
        constructor
        · rintro (h | rfl | h)
          · simp [hd x h]
          · simp
          · exact absurd h hl
        · intro h
          rw [if_neg fun hx => h (.inr (.inl hx.symm))]

theorem getElem?_clear_of_leads {s : Stack} {temps : Temps} {x : NodeId} (h : temps.Leads s.frames x) :
    (s.clear temps)[x]? = none := (getElem?_sweep (Nat.le_refl _) x).1 h

theorem getElem?_clear_of_not_leads {s : Stack} {temps : Temps} {x : NodeId} (h : ¬ temps.Leads s.frames x) :
    (s.clear temps)[x]? = temps[x]? := (getElem?_sweep (Nat.le_refl _) x).2 h

/-- A payload that is there after clearing was there before. -/
theorem getElem?_of_clear {s : Stack} {temps : Temps} {x : NodeId} {p : Payload}
    (h : (s.clear temps)[x]? = some p) : temps[x]? = some p := by
  by_cases hl : temps.Leads s.frames x
  · rw [getElem?_clear_of_leads hl] at h
    cases h
  · rwa [getElem?_clear_of_not_leads hl] at h

end Stack

end BehaviorTree
