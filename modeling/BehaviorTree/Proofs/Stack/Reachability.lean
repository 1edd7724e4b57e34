import BehaviorTree.Proofs.Stack.Clearing

/-!
Clearing a stack as a search through the payloads it destroys: pop the deepest frame, take its payload away, clear the
stacks saved inside one after the other, and go on with the frames below. The recursion goes through lookups in the
payloads, so neither the frames nor the saved stacks become smaller on the way; what does become smaller is the number
of payloads. `Stack.clear` computes the same in rounds.
-/

namespace BehaviorTree
set_option autoImplicit false

namespace Temps.Leads

variable {temps : Temps} {xs ys : List NodeId} {x : NodeId}

theorem append_iff : temps.Leads (xs ++ ys) x ↔ temps.Leads xs x ∨ temps.Leads ys x := by
  constructor
  · intro h
    induction h with
    | frame hx => exact (List.mem_append.mp hx).imp .frame .frame
    | saved _ hp hx ih => exact ih.imp (fun h => .saved h hp hx) fun h => .saved h hp hx
  · rintro (h | h)
    · exact h.of_subset fun _ hy => List.mem_append_left _ hy
    · exact h.of_subset fun _ hy => List.mem_append_right _ hy

end Temps.Leads

namespace Stack

variable {temps : Temps} {id : NodeId} {p : Payload} {xs ys rest : List NodeId} {x : NodeId}

/-! ### Clearing one part of the frames after the other -/

/-- What clearing the frames in front leaves reachable from the others is what these reach and those in front do not. -/
theorem leads_clear_iff :
    Temps.Leads (clear ⟨xs⟩ temps) ys x ∧ ¬ temps.Leads xs x ↔ temps.Leads ys x ∧ ¬ temps.Leads xs x := by
  refine and_congr_left fun hx => ⟨fun h => ?_, fun h => ?_⟩
  · exact h.mono (fun y hy => .frame hy) fun _ _ _ => getElem?_of_clear
  · induction h with
    | frame hy => exact .frame hy
    | @saved z y q _ hq hz ih =>
      -- A frame before `z` that those in front led to would lead to `z` as well.
      have hy : ¬ temps.Leads xs y := fun hy => hx (.saved hy hq hz)
      refine .saved (ih hy) ?_ hz
      rwa [getElem?_clear_of_not_leads hy]

theorem clear_append : clear ⟨xs ++ ys⟩ temps = clear ⟨ys⟩ (clear ⟨xs⟩ temps) := by
  refine Std.ExtTreeMap.ext_getElem? fun k => ?_
  by_cases hx : temps.Leads xs k
  · rw [getElem?_clear_of_leads (Temps.Leads.append_iff.mpr (.inl hx))]
    cases hk : (clear ⟨ys⟩ (clear ⟨xs⟩ temps))[k]? with
    | none => rfl
    | some q =>
      have hq := getElem?_of_clear hk
      rw [getElem?_clear_of_leads hx] at hq
      cases hq
  · by_cases hy : temps.Leads ys k
    · rw [getElem?_clear_of_leads (Temps.Leads.append_iff.mpr (.inr hy)),
        getElem?_clear_of_leads (leads_clear_iff.mpr ⟨hy, hx⟩).1]
    · have hxy : ¬ temps.Leads (xs ++ ys) k := fun h => (Temps.Leads.append_iff.mp h).elim hx hy
      have hy' : ¬ Temps.Leads (clear ⟨xs⟩ temps) ys k := fun h => hy (leads_clear_iff.mp ⟨h, hx⟩).1
      rw [getElem?_clear_of_not_leads hxy, getElem?_clear_of_not_leads hy', getElem?_clear_of_not_leads hx]

@[simp] theorem clear_nil : clear ⟨[]⟩ temps = temps := by
  refine Std.ExtTreeMap.ext_getElem? fun k => getElem?_clear_of_not_leads fun h => ?_
  exact List.not_mem_nil (leads_of_dead (fun _ hy => absurd hy List.not_mem_nil) h)

theorem clear_cons_of_none (hid : temps[id]? = none) : clear ⟨id :: rest⟩ temps = clear ⟨rest⟩ temps := by
  have hdead : ∀ y ∈ [id], temps[y]? = none := by simpa using hid
  have hone : clear ⟨[id]⟩ temps = temps := by
    refine Std.ExtTreeMap.ext_getElem? fun k => ?_
    by_cases hk : temps.Leads [id] k
    · rw [getElem?_clear_of_leads hk, hdead k (leads_of_dead hdead hk)]
    · exact getElem?_clear_of_not_leads hk
  rw [← List.singleton_append, clear_append, hone]

theorem clear_cons_of_some (hid : temps[id]? = some p) :
    clear ⟨id :: rest⟩ temps = clear ⟨p.nestedFrames ++ rest⟩ (temps.erase id) := by
  have hround (k : NodeId) : temps.Leads (id :: rest) k ↔
      k = id ∨ Temps.Leads (temps.erase id) (p.nestedFrames ++ rest) k := by
    have hdead : ∀ y ∈ ([] : List NodeId), temps[y]? = none := by simp
    simpa using leads_round hdead hid
  refine Std.ExtTreeMap.ext_getElem? fun k => ?_
  by_cases hk : Temps.Leads (temps.erase id) (p.nestedFrames ++ rest) k
  · rw [getElem?_clear_of_leads ((hround k).mpr (.inr hk)), getElem?_clear_of_leads hk]
  · rw [getElem?_clear_of_not_leads hk, Temps.get_erase]
    split
    · rename_i hik
      exact getElem?_clear_of_leads ((hround k).mpr (.inl hik.symm))
    · rename_i hik
      exact getElem?_clear_of_not_leads fun h => ((hround k).mp h).elim (Ne.symm hik) hk

theorem size_erase_lt (hid : temps[id]? = some p) : (temps.erase id).size < temps.size := by
  have hmem : temps.contains id = true := by simp [Std.ExtTreeMap.contains_eq_isSome_getElem?, hid]
  have hpos : temps.size ≠ 0 := fun h => by simp [Std.ExtTreeMap.eq_empty_iff_size_eq_zero.mpr h] at hid
  rw [Std.ExtTreeMap.size_erase, if_pos hmem]
  omega

/-! ### The search -/

abbrev Left (temps : Temps) : Type := { left : Temps // left.size ≤ temps.size }

mutual

/-- Pops every frame, deepest first, along with every stack saved in their payloads. -/
def unwind (s : Stack) (temps : Temps) : Stack × Left temps :=
  match s with
  | ⟨[]⟩ => (∅, ⟨temps, Nat.le_refl _⟩)
  | ⟨id :: rest⟩ =>
    match h : temps[id]? with
    | none => unwind ⟨rest⟩ temps
    | some payload =>
      let nested := unwindAll payload.nested (temps.erase id)
      have fewer : nested.1.size < temps.size := Nat.lt_of_le_of_lt nested.2 (size_erase_lt h)
      let below := unwind ⟨rest⟩ nested.1
      (below.1, ⟨below.2, Nat.le_trans below.2.2 (Nat.le_of_lt fewer)⟩)
termination_by (temps.size, 0, s.frames.length)
decreasing_by
  · exact .right _ (.right _ (Nat.lt_succ_self _))
  · exact .left _ _ (size_erase_lt h)
  · exact .left _ _ fewer

def unwindAll (saved : List Stack) (temps : Temps) : Left temps :=
  match saved with
  | [] => ⟨temps, Nat.le_refl _⟩
  | s :: saved =>
    let first := (unwind s temps).2
    let others := unwindAll saved first.1
    ⟨others.1, Nat.le_trans others.2 first.2⟩
termination_by (temps.size, 1, saved.length)
decreasing_by
  · exact .right _ (.left _ _ Nat.zero_lt_one)
  · exact Prod.Lex.right' _ first.2 (.right _ (Nat.lt_succ_self _))

end

theorem unwind_computes :
    (∀ (s : Stack) (temps : Temps), (s.unwind temps).1 = ∅ ∧ (s.unwind temps).2.1 = s.clear temps) ∧
      ∀ (saved : List Stack) (temps : Temps),
        (unwindAll saved temps).1 = clear ⟨saved.flatMap Stack.frames⟩ temps := by
  refine unwind.mutual_induct (fun s temps => (s.unwind temps).1 = ∅ ∧ (s.unwind temps).2.1 = s.clear temps)
    (fun saved temps => (unwindAll saved temps).1 = clear ⟨saved.flatMap Stack.frames⟩ temps) ?_ ?_ ?_ ?_ ?_
  · intro temps
    rw [unwind, clear_nil]
    exact ⟨rfl, rfl⟩
  · intro temps id rest hid below
    rw [unwind, clear_cons_of_none hid]
    split
    · exact below
    · rename_i p hp
      rw [hid] at hp
      cases hp
  · intro temps id rest payload hid nested fewer inner below _
    rw [unwind, clear_cons_of_some hid, Payload.nestedFrames, clear_append, ← inner]
    split
    · rename_i hp
      rw [hid] at hp
      cases hp
    · rename_i p hp
      obtain rfl : payload = p := Option.some.inj (hid.symm.trans hp)
      exact below
  · intro temps
    rw [unwindAll, List.flatMap_nil, clear_nil]
  · intro temps s saved first front others _
    rw [unwindAll, List.flatMap_cons, clear_append, ← front.2]
    exact others

/-- Unwinding a stack leaves it empty, and takes away precisely the payloads of the nodes that its frames lead to
through the stacks saved in payloads. This is what `clear` computes. -/
theorem unwind_removes_reachable (s : Stack) (temps : Temps) :
    ((s.unwind temps).1 = ∅ ∧ (s.unwind temps).2.1 = s.clear temps) ∧
      ∀ id, (temps.Leads s.frames id → (s.clear temps)[id]? = none) ∧
        (¬ temps.Leads s.frames id → (s.clear temps)[id]? = temps[id]?) :=
  ⟨unwind_computes.1 s temps, fun _ => ⟨getElem?_clear_of_leads, getElem?_clear_of_not_leads⟩⟩

end Stack

end BehaviorTree
