import BehaviorTree.Delays
import Mathlib.Data.List.Induction
import Mathlib.Data.List.Nodup
import Mathlib.Data.List.Perm.Subperm

/-!
What is to happen with delays, told without tables: a list of those who wait, in the order in which they were
scheduled, and for each update under way a list of those whom it has still to set off. A history that goes by this
sets everyone off at most once and in time, and each update sets off whoever was due when it began.
-/

namespace BehaviorTree
set_option autoImplicit false

/-- What happens to delays with callbacks in `κ`, as those who use them see it. -/
inductive Happening (κ : Type) where
  | scheduled (id : DelayId) (expiry : Float) (tag : Tag) (callback : κ)
  | cancelled (id : DelayId) (found : Bool)
  | released (tag : Tag)
  /-- Someone looks how many delays of each owner are pending. -/
  | counted (count : Tag → Nat)
  /-- An update begins with a new time on the clock. -/
  | began (now : Float)
  /-- The update under way sets a delay off. -/
  | fired (id : DelayId) (callback : κ)
  | ended

structure Appointment (κ : Type) where
  id : DelayId
  expiry : Float
  tag : Tag
  callback : κ

variable {κ : Type}

/-- Earlier expiry first, then whoever was scheduled first. -/
def Appointment.Before (x y : Appointment κ) : Prop :=
  Binary64.orderKey x.expiry < Binary64.orderKey y.expiry ∨
    Binary64.orderKey x.expiry = Binary64.orderKey y.expiry ∧ x.id.index < y.id.index

namespace Happening

def keep (pending : List (Appointment κ)) : Happening κ → List (Appointment κ)
  | scheduled id expiry tag callback => pending ++ [⟨id, expiry, tag, callback⟩]
  | cancelled id _ => pending.filter (·.id ≠ id)
  | released tag => pending.filter (·.tag ≠ tag)
  | began now => pending.filter (¬·.expiry ≤ now)
  | counted _ | fired .. | ended => pending

/-- Who waits after a history. -/
def waiting (log : List (Happening κ)) : List (Appointment κ) := log.foldl keep []

def fresh : Happening κ → List DelayId
  | scheduled id .. => [id]
  | _ => []

def setOff : Happening κ → List DelayId
  | fired id _ => [id]
  | _ => []

/-- Whom the update under way sets off until it ends; `depth` is the number of updates under way within it. -/
def firings (depth : Nat) : List (Happening κ) → List DelayId
  | [] => []
  | began _ :: log => firings (depth + 1) log
  | ended :: log =>
    match depth with
    | 0 => []
    | depth + 1 => firings depth log
  | fired id _ :: log => if depth = 0 then id :: firings depth log else firings depth log
  | scheduled .. :: log | cancelled .. :: log | released _ :: log | counted _ :: log => firings depth log

end Happening

/-- Whom an update sets off: those who are due, in their order. -/
structure Batch (pending : List (Appointment κ)) (now : Float) (batch : List (Appointment κ)) : Prop where
  ordered : batch.Pairwise Appointment.Before
  mem_iff (x : Appointment κ) : x ∈ batch ↔ x ∈ pending ∧ x.expiry ≤ now

/-- Who waits, and whom each update under way has still to set off, the innermost first. -/
structure Agenda (κ : Type) where
  nextIndex : Nat := 0
  pending : List (Appointment κ) := []
  batches : List (List (Appointment κ)) := []

namespace Agenda

open Happening

/-- What may happen, and what it does to the agenda. -/
inductive Step (a : Agenda κ) : Happening κ → Agenda κ → Prop
  | scheduled (expiry : Float) (tag : Tag) (callback : κ) :
      Step a (.scheduled ⟨a.nextIndex⟩ expiry tag callback)
        { a with nextIndex := a.nextIndex + 1, pending := a.pending ++ [⟨⟨a.nextIndex⟩, expiry, tag, callback⟩] }
  | cancelled (id : DelayId) :
      Step a (.cancelled id (a.pending.any (·.id = id))) { a with pending := a.pending.filter (·.id ≠ id) }
  | released (tag : Tag) : Step a (.released tag) { a with pending := a.pending.filter (·.tag ≠ tag) }
  | counted : Step a (.counted fun tag => a.pending.countP (·.tag = tag)) a
  | began {now : Float} {batch : List (Appointment κ)} (h : Batch a.pending now batch) :
      Step a (.began now) { a with pending := a.pending.filter (¬·.expiry ≤ now), batches := batch :: a.batches }
  | fired {x : Appointment κ} {rest : List (Appointment κ)} {outer : List (List (Appointment κ))}
      (h : a.batches = (x :: rest) :: outer) : Step a (.fired x.id x.callback) { a with batches := rest :: outer }
  | ended {outer : List (List (Appointment κ))} (h : a.batches = [] :: outer) :
      Step a .ended { a with batches := outer }

inductive Path : Agenda κ → List (Happening κ) → Agenda κ → Prop
  | nil (a : Agenda κ) : Path a [] a
  | cons {a b c : Agenda κ} {h : Happening κ} {log : List (Happening κ)} :
      Step a h b → Path b log c → Path a (h :: log) c

variable {a b c : Agenda κ} {h : Happening κ} {log log' : List (Happening κ)} {id : DelayId}

namespace Path

theorem append (hab : Path a log b) (hbc : Path b log' c) : Path a (log ++ log') c := by
  induction hab with
  | nil => exact hbc
  | cons hs _ ih => exact .cons hs (ih hbc)

theorem single (hs : Step a h b) : Path a [h] b := .cons hs (.nil b)

theorem split (hp : Path a (log ++ log') c) : ∃ b, Path a log b ∧ Path b log' c := by
  induction log generalizing a with
  | nil => exact ⟨a, .nil a, hp⟩
  | cons x log ih =>
    cases hp with
    | cons hs hrest =>
      obtain ⟨b, hab, hbc⟩ := ih hrest
      exact ⟨b, .cons hs hab, hbc⟩

theorem exists_step (hp : Path a (log ++ h :: log') c) : ∃ b b', Path a log b ∧ Step b h b' ∧ Path b' log' c := by
  obtain ⟨b, hab, hrest⟩ := hp.split
  cases hrest with
  | cons hs hbc => exact ⟨b, _, hab, hs, hbc⟩

end Path

theorem Step.pending (hs : Step a h b) : b.pending = keep a.pending h := by
  cases hs <;> rfl

theorem Path.foldl_keep (hp : Path a log b) : b.pending = log.foldl keep a.pending := by
  induction hp with
  | nil => rfl
  | cons hs _ ih => rw [ih, hs.pending, List.foldl_cons]

theorem Path.pending (hp : Path {} log b) : b.pending = waiting log := hp.foldl_keep

def booked (a : Agenda κ) : List DelayId := a.batches.flatten.map (·.id) ++ a.pending.map (·.id)

/-- Whoever was set off or is to be has an id of its own, which was given out. -/
structure Sound (gone : List DelayId) (a : Agenda κ) : Prop where
  distinct : (gone ++ a.booked).Nodup
  given : ∀ id ∈ gone ++ a.booked, id.index < a.nextIndex

theorem sound_empty : Sound [] ({} : Agenda κ) := ⟨.nil, nofun⟩

variable {gone : List DelayId}

theorem Sound.lt (hs : Sound gone a) (hid : id ∈ a.pending.map (·.id)) : id.index < a.nextIndex :=
  hs.given _ (List.mem_append_right _ (List.mem_append_right _ hid))

theorem Sound.waiters (hs : Sound gone a) : (a.pending.map (·.id)).Nodup :=
  (List.nodup_append.mp (List.nodup_append.mp hs.distinct).2.1).2.1

theorem Sound.fewer (hs : Sound gone a) {pending : List (Appointment κ)} (hp : pending.Sublist a.pending) :
    Sound gone { a with pending } := by
  have hsub : (gone ++ Agenda.booked { a with pending }).Sublist (gone ++ a.booked) :=
    (List.Sublist.refl _).append ((List.Sublist.refl _).append (hp.map _))
  exact ⟨hs.distinct.sublist hsub, fun id hid => hs.given id (hsub.subset hid)⟩

theorem before_ne {x y : Appointment κ} (h : x.Before y) : x ≠ y := by
  rintro rfl
  rcases h with h | ⟨_, h⟩
  · exact Int.lt_irrefl _ h
  · exact Nat.lt_irrefl _ h

/-- Whom an update sets off and whom it leaves are together those who wait. -/
theorem perm_of_batch {pending batch : List (Appointment κ)} {now : Float} (hn : (pending.map (·.id)).Nodup)
    (hb : Batch pending now batch) : (batch ++ pending.filter (¬·.expiry ≤ now)).Perm pending := by
  have hdue : batch.Perm (pending.filter (·.expiry ≤ now)) := by
    rw [List.perm_ext_iff_of_nodup]
    · intro x
      rw [hb.mem_iff, List.mem_filter, decide_eq_true_eq]
    · exact hb.ordered.imp before_ne
    · exact (List.Nodup.of_map _ hn).sublist List.filter_sublist
  have hsplit := List.filter_append_perm (fun x : Appointment κ => decide (x.expiry ≤ now)) pending
  simp only [decide_not]
  exact (hdue.append_right _).trans hsplit

theorem Step.nextIndex (hs : Step a h b) :
    b.nextIndex = a.nextIndex + (fresh h).length ∧ ∀ id ∈ fresh h, id = ⟨a.nextIndex⟩ := by
  cases hs <;> simp [fresh]

/-- Who is set off or is still to be was to be before, or is new. -/
theorem Step.booked (hs : Step a h b) (hn : (a.pending.map (·.id)).Nodup) :
    List.Subperm (setOff h ++ b.booked) (a.booked ++ fresh h) := by
  cases hs with
  | scheduled expiry tag =>
    apply List.Perm.subperm
    simp [setOff, fresh, Agenda.booked]
  | cancelled id | released tag =>
    apply List.Sublist.subperm
    simp only [setOff, fresh, List.nil_append, List.append_nil]
    exact (List.Sublist.refl _).append (List.filter_sublist.map _)
  | counted =>
    apply List.Perm.subperm
    simp [setOff, fresh]
  | @began now batch hb =>
    apply List.Perm.subperm
    have hwaiters := (perm_of_batch hn hb).map (·.id)
    rw [List.map_append] at hwaiters
    simp only [setOff, fresh, List.nil_append, List.append_nil, Agenda.booked, List.flatten_cons]
    rw [List.map_append, List.append_assoc]
    exact (List.perm_append_comm_assoc ..).trans (hwaiters.append_left _)
  | fired hb | ended hb =>
    apply List.Perm.subperm
    simp [setOff, fresh, Agenda.booked, hb]

theorem Step.sound (hs : Step a h b) (ha : Sound gone a) : Sound (gone ++ setOff h) b := by
  obtain ⟨hnext, hfresh⟩ := hs.nextIndex
  have hbooked : List.Subperm (gone ++ setOff h ++ b.booked) (gone ++ a.booked ++ fresh h) := by
    rw [List.append_assoc, List.append_assoc]
    exact (List.subperm_append_left gone).mpr (hs.booked ha.waiters)
  have hnew : ∀ id ∈ fresh h, id ∉ gone ++ a.booked := by
    intro id hid hold
    have hlt := ha.given id hold
    rw [hfresh id hid] at hlt
    exact Nat.lt_irrefl _ hlt
  have hdistinct : (gone ++ a.booked ++ fresh h).Nodup := by
    apply List.Nodup.append ha.distinct
    · cases h <;> simp [fresh]
    · exact fun id hold hid => hnew id hid hold
  constructor
  · obtain ⟨ids, hperm, hsub⟩ := hbooked
    exact hperm.nodup_iff.mp (hdistinct.sublist hsub)
  · intro id hid
    rcases List.mem_append.mp (hbooked.subset hid) with hid | hid
    · have hlt := ha.given id hid
      omega
    · rw [hfresh id hid, hnext]
      have hpos := List.length_pos_of_mem hid
      exact Nat.lt_add_of_pos_right hpos

theorem Path.sound (hp : Path a log b) (ha : Sound gone a) : Sound (gone ++ log.flatMap setOff) b := by
  induction hp generalizing gone with
  | nil => simpa using ha
  | @cons a b c h log hs _ ih =>
    have hrest := ih (hs.sound ha)
    rwa [List.append_assoc, ← List.flatMap_cons] at hrest

theorem Path.later (hp : Path a log b) {expiry : Float} {tag : Tag} {callback : κ}
    (h : .scheduled id expiry tag callback ∈ log) :
    a.nextIndex ≤ id.index := by
  induction hp with
  | nil => cases h
  | @cons a b c h' log hs _ ih =>
    rcases List.mem_cons.mp h with h | h
    · subst h
      cases hs
      exact Nat.le_refl _
    · exact Nat.le_trans (by have := hs.nextIndex.1; omega) (ih h)

/-- Whoever was scheduled and is not to be set off any more is never set off. -/
theorem Path.not_fired (hp : Path a log b) (ha : Sound gone a) (hlt : id.index < a.nextIndex) (hid : id ∉ a.booked) :
    id ∉ log.flatMap setOff := by
  induction hp generalizing gone with
  | nil => exact List.not_mem_nil
  | @cons a b c h log hs _ ih =>
    obtain ⟨hnext, hfresh⟩ := hs.nextIndex
    have hout : id ∉ setOff h ++ b.booked := by
      intro hmem
      rcases List.mem_append.mp ((hs.booked ha.waiters).subset hmem) with hold | hnew
      · exact hid hold
      · rw [hfresh id hnew] at hlt
        exact Nat.lt_irrefl _ hlt
    rw [List.mem_append, not_or] at hout
    rw [List.flatMap_cons, List.mem_append, not_or]
    exact ⟨hout.1, ih (hs.sound ha) (by omega) hout.2⟩

theorem Path.firings (hp : Path a log b) {inner outer : List (List (Appointment κ))} {batch : List (Appointment κ)}
    (ha : a.batches = inner ++ batch :: outer) (hb : b.batches.length ≤ outer.length) :
    firings inner.length log = batch.map (·.id) := by
  induction hp generalizing inner batch with
  | nil a =>
    rw [ha, List.length_append, List.length_cons] at hb
    omega
  | @cons a b c h log hs _ ih =>
    cases hs with
    | scheduled | cancelled | released | counted => exact ih ha hb
    | @began now due _ =>
      have hopen : due :: a.batches = (due :: inner) ++ batch :: outer := by
        rw [ha, List.cons_append]
      exact ih hopen hb
    | @fired x rest below hf =>
      cases inner with
      | nil =>
        obtain ⟨rfl, rfl⟩ := List.cons.inj (ha.symm.trans hf)
        have hopen : rest :: outer = [] ++ rest :: outer := rfl
        exact congrArg (List.cons x.id) (ih hopen hb)
      | cons first inner =>
        obtain ⟨rfl, rfl⟩ := List.cons.inj (ha.symm.trans hf)
        have hopen : rest :: (inner ++ batch :: outer) = (rest :: inner) ++ batch :: outer := rfl
        have hrest := ih hopen hb
        exact hrest
    | ended hf =>
      cases inner with
      | nil =>
        obtain ⟨rfl, _⟩ := List.cons.inj (ha.symm.trans hf)
        rfl
      | cons first inner =>
        obtain ⟨_, rfl⟩ := List.cons.inj (ha.symm.trans hf)
        exact ih rfl hb

theorem Path.own (hp : Path a log b) {outer : List (List (Appointment κ))} {batch : List (Appointment κ)}
    (ha : a.batches = batch :: outer) (hb : b.batches.length ≤ outer.length) :
    Happening.firings 0 log = batch.map (·.id) :=
  hp.firings (show a.batches = [] ++ batch :: outer from ha) hb

/-- An update that has still to set off the `rest` is under way, within the `outer` ones: it began at some moment of the
history, and had to set them off then. -/
def UnderWay (log : List (Happening κ)) (b : Agenda κ) (rest : List (Appointment κ))
    (outer : List (List (Appointment κ))) : Prop :=
  ∃ pre now post a batch, log = pre ++ .began now :: post ∧ Path {} pre a ∧ Batch a.pending now batch ∧
    Path { a with pending := a.pending.filter (¬·.expiry ≤ now), batches := batch :: a.batches } post b ∧
    a.batches = outer ∧ rest ⊆ batch

theorem UnderWay.step {all rest : List (Appointment κ)} {outer : List (List (Appointment κ))}
    (hu : UnderWay log a all outer) (hs : Step a h b) (hsub : rest ⊆ all) : UnderWay (log ++ [h]) b rest outer := by
  obtain ⟨pre, now, post, a', batch, rfl, hpre, hbatch, hpost, houter, hall⟩ := hu
  refine ⟨pre, now, post ++ [h], a', batch, ?_, hpre, hbatch, ?_, houter, List.Subset.trans hsub hall⟩
  · rw [List.append_assoc, List.cons_append]
  · exact hpost.append (.single hs)

/-- Whatever is still to be set off belongs to an update that is under way. -/
theorem Path.underWay (hp : Path {} log b) {inner outer : List (List (Appointment κ))} {rest : List (Appointment κ)}
    (hb : b.batches = inner ++ rest :: outer) : UnderWay log b rest outer := by
  induction log using List.reverseRecOn generalizing b inner rest with
  | nil =>
    cases hp
    simp at hb
  | append_singleton log h ih =>
    obtain ⟨a, _, hpre, hs, hnil⟩ := hp.exists_step
    cases hnil
    cases hs with
    | scheduled expiry tag callback => exact (ih hpre hb).step (.scheduled expiry tag callback) (List.Subset.refl _)
    | cancelled id => exact (ih hpre hb).step (.cancelled id) (List.Subset.refl _)
    | released tag => exact (ih hpre hb).step (.released tag) (List.Subset.refl _)
    | counted => exact (ih hpre hb).step .counted (List.Subset.refl _)
    | @began now batch hbatch =>
      cases inner with
      | nil =>
        obtain ⟨rfl, rfl⟩ := List.cons.inj hb
        exact ⟨log, now, [], a, batch, rfl, hpre, hbatch, .nil _, rfl, List.Subset.refl _⟩
      | cons first inner => exact (ih hpre (List.cons.inj hb).2).step (.began hbatch) (List.Subset.refl _)
    | @fired x left below hf =>
      cases inner with
      | nil =>
        obtain ⟨rfl, rfl⟩ := List.cons.inj hb
        have hopen : a.batches = [] ++ (x :: left) :: below := hf
        exact (ih hpre hopen).step (.fired hf) (List.subset_cons_self _ _)
      | cons first inner =>
        obtain ⟨_, rfl⟩ := List.cons.inj hb
        have hopen : a.batches = ((x :: left) :: inner) ++ rest :: outer := hf
        exact (ih hpre hopen).step (.fired hf) (List.Subset.refl _)
    | ended hf =>
      have hopen : a.batches = ([] :: inner) ++ rest :: outer := hf.trans (congrArg _ hb)
      exact (ih hpre hopen).step (.ended hf) (List.Subset.refl _)

end Agenda

open Happening in
/-- A history of delays as it should be. -/
structure Punctual (log : List (Happening κ)) : Prop where
  /-- No delay is set off twice. -/
  once : (log.flatMap setOff).Nodup
  /-- Who is set off waited when an update began that is still under way, and was due by its clock. -/
  due {pre post : List (Happening κ)} {id : DelayId} {callback : κ} : log = pre ++ .fired id callback :: post →
    ∃ before now within, pre = before ++ .began now :: within ∧
      id ∈ firings 0 (within ++ .fired id callback :: post) ∧
      ∃ x ∈ waiting before, x.id = id ∧ x.callback = callback ∧ x.expiry ≤ now
  /-- Cancelling tells whether a delay waited, and then it is not set off any more. -/
  cancelled {pre post : List (Happening κ)} {id : DelayId} {found : Bool} : log = pre ++ .cancelled id found :: post →
    (found = true ↔ ∃ x ∈ waiting pre, x.id = id) ∧ (found = true → id ∉ post.flatMap setOff)
  /-- Who waits when its owner is released is not set off any more. -/
  released {pre post : List (Happening κ)} {tag : Tag} : log = pre ++ .released tag :: post →
    ∀ x ∈ waiting pre, x.tag = tag → x.id ∉ post.flatMap setOff
  /-- An update sets off whoever waited when it began and was due, in order, and nobody else. -/
  complete {pre post : List (Happening κ)} {now : Float} : log = pre ++ .began now :: post →
    ∃ batch, Batch (waiting pre) now batch ∧ firings 0 post = batch.map (·.id)
  /-- Who is scheduled while an update is under way, it leaves to another. -/
  later {pre post : List (Happening κ)} {now : Float} : log = pre ++ .began now :: post →
    ∀ id expiry tag callback, .scheduled id expiry tag callback ∈ post → id ∉ firings 0 post
  /-- As many delays of an owner are pending as wait. -/
  counted {pre post : List (Happening κ)} {count : Tag → Nat} : log = pre ++ .counted count :: post →
    ∀ tag, count tag = (waiting pre).countP (·.tag = tag)

namespace Agenda

open Happening

variable {a b : Agenda κ} {log : List (Happening κ)}

/-- Who waits and is taken off the list is not set off any more. -/
theorem Path.silent {pending : List (Appointment κ)} {x : Appointment κ} {gone : List DelayId}
    (hp : Path { a with pending } log b) (ha : Sound gone a) (hsub : pending.Sublist a.pending) (hx : x ∈ a.pending)
    (hout : ∀ y ∈ pending, y.id ≠ x.id) : x.id ∉ log.flatMap setOff := by
  have hmem : x.id ∈ a.pending.map (·.id) := List.mem_map.mpr ⟨x, hx, rfl⟩
  apply hp.not_fired (ha.fewer hsub) (ha.lt hmem)
  · intro hid
    rcases List.mem_append.mp hid with hid | hid
    · exact (List.nodup_append.mp (List.nodup_append.mp ha.distinct).2.1).2.2 _ hid _ hmem rfl
    · obtain ⟨y, hy, he⟩ := List.mem_map.mp hid
      exact hout y hy he

/-- A history that goes by the agenda, and in which all updates end, is as it should be. -/
theorem Path.punctual_log (hp : Path {} log b) (hb : b.batches = []) : Punctual log := by
  have hend : ∀ outer : List (List (Appointment κ)), b.batches.length ≤ outer.length := by
    intro outer
    rw [hb]
    exact Nat.zero_le _
  constructor
  case once =>
    have hs := hp.sound sound_empty
    rw [List.nil_append] at hs
    exact (List.nodup_append.mp hs.distinct).1
  case due =>
    rintro pre post id callback rfl
    obtain ⟨a, _, hpre, hs, hpost⟩ := hp.exists_step
    have hafter := Path.cons hs hpost
    cases hs with
    | @fired x rest outer hf =>
      have hopen : a.batches = [] ++ (x :: rest) :: outer := hf
      obtain ⟨before, now, within, a', batch, rfl, hbefore, hbatch, hwithin, _, hsub⟩ := hpre.underWay hopen
      have hx : x ∈ batch := hsub List.mem_cons_self
      obtain ⟨hwaits, hdue⟩ := (hbatch.mem_iff x).mp hx
      refine ⟨before, now, within, rfl, ?_, x, hbefore.pending ▸ hwaits, rfl, rfl, hdue⟩
      rw [(hwithin.append hafter).own rfl (hend _)]
      exact List.mem_map.mpr ⟨x, hx, rfl⟩
  case cancelled =>
    rintro pre post id found rfl
    obtain ⟨a, _, hpre, hs, hpost⟩ := hp.exists_step
    have hwaiting : a.pending = waiting pre := hpre.pending
    cases hs
    have hfound : (a.pending.any (·.id = id)) = true ↔ ∃ x ∈ waiting pre, x.id = id := by
      simp [hwaiting]
    refine ⟨hfound, fun hany => ?_⟩
    obtain ⟨x, hx, rfl⟩ := hfound.mp hany
    apply hpost.silent (hpre.sound sound_empty) List.filter_sublist (hwaiting ▸ hx)
    intro y hy
    exact of_decide_eq_true (List.mem_filter.mp hy).2
  case released =>
    rintro pre post tag rfl x hx rfl
    obtain ⟨a, _, hpre, hs, hpost⟩ := hp.exists_step
    have hsound := hpre.sound sound_empty
    have hx' : x ∈ a.pending := hpre.pending ▸ hx
    cases hs
    apply hpost.silent hsound List.filter_sublist hx'
    intro y hy he
    obtain ⟨hy, hne⟩ := List.mem_filter.mp hy
    obtain rfl := List.inj_on_of_nodup_map hsound.waiters hy hx' he
    exact of_decide_eq_true hne rfl
  case complete =>
    rintro pre post now rfl
    obtain ⟨a, _, hpre, hs, hpost⟩ := hp.exists_step
    cases hs with
    | began hbatch => exact ⟨_, hpre.pending ▸ hbatch, hpost.own rfl (hend _)⟩
  case later =>
    rintro pre post now rfl id expiry tag callback hlater hid
    obtain ⟨a, _, hpre, hs, hpost⟩ := hp.exists_step
    cases hs with
    | @began _ batch hbatch =>
      rw [hpost.own rfl (hend _)] at hid
      obtain ⟨x, hx, rfl⟩ := List.mem_map.mp hid
      have hwaits : x.id ∈ a.pending.map (·.id) := List.mem_map.mpr ⟨x, ((hbatch.mem_iff x).mp hx).1, rfl⟩
      have hold : x.id.index < a.nextIndex := (hpre.sound sound_empty).lt hwaits
      have hnew : a.nextIndex ≤ x.id.index := hpost.later hlater
      omega
  case counted =>
    rintro pre post count rfl tag
    obtain ⟨a, _, hpre, hs, _⟩ := hp.exists_step
    cases hs
    rw [← hpre.pending]

end Agenda

end BehaviorTree
