import BehaviorTree.Proofs.Steps.Behaviors

/-!
Loops play their readings: pass after pass over the children, each pass a sequence. A pass that was cut short goes on
where its payload says, and the passes after it follow.
-/

namespace BehaviorTree
set_option autoImplicit false

open TickM

variable {σ : Type} {S : Script} {o : Tag} {e : Engine σ} {t u : Tick σ} {n : Node} {base ids : List NodeId}

theorem Tick.Wrote.set {name : String} (h : S.tree.Writes name) (t : Tick σ) (value : Option Value) :
    t.Wrote S o { t with env := t.env.set name value } := by
  refine ⟨⟨⟨t.world.journal, rfl⟩, fun {key} hkey => ?_, rfl, rfl⟩, rfl, rfl, rfl⟩
  have hne : name ≠ key := fun heq => hkey (heq ▸ h)
  exact (Variables.getElem?_assign t.env.vars name key value).trans (if_neg hne)

theorem TickM.wrote_writeSlot {name : Option String} (h : ∀ key, name = some key → S.tree.Writes key)
    (value : Option Value) {c : Activation} :
    (Engine.writeSlot name value c t).Gives fun _ u => t.Wrote S o u := by
  cases name with
  | none => exact .refl t
  | some key => exact .set (h key rfl) t value

namespace Script

/-- The readings of a number of passes over the children. -/
def repeats (S : Script) (n : Node) (count : Nat) : List Reading := (List.replicate count (S.readings n)).flatten

theorem repeats_succ (n : Node) (count : Nat) : S.repeats n (count + 1) = S.readings n ++ S.repeats n count := by
  rw [repeats, List.replicate_succ, List.flatten_cons]
  rfl

structure Loops (S : Script) (n : Node) : Prop where
  started : S.tree.started n = n.children
  reading : S.reading n.id = .chain .success (S.repeats n (n.rounds S.vars))
  rest (round i : Nat) : S.rest n (.cursor round i) =
    .goOn .success ((S.readings n).drop (i + 1) ++ S.repeats n (n.rounds S.vars - (round + 1)))
  saves {p : Payload} : S.Saves n p ↔ ∃ round i, p = .cursor round i ∧ round < n.rounds S.vars

theorem Loops.of_loop {count : Nat} (hn : S.tree.get? n.id = some n) (hb : n.behavior = .loop count) : S.Loops n := by
  refine ⟨by rw [Tree.started, hb], ?_, fun round i => ?_, fun {p} => ?_⟩
  · rw [reading_eq hn, hb]
    rfl
  · exact rest_eq hb
  · exact saves_rounds (.inr ⟨count, hb⟩)

theorem Loops.of_forEach (hn : S.tree.get? n.id = some n) (hb : n.behavior = .forEach) : S.Loops n := by
  refine ⟨by rw [Tree.started, hb], ?_, fun round i => ?_, fun {p} => ?_⟩
  · rw [reading_eq hn, hb]
    rfl
  · exact rest_eq hb
  · exact saves_rounds (.inl hb)

variable (hn : S.tree.get? n.id = some n) (he : ∀ x ∈ S.tree.started n, e.Performs S o x) (hl : S.Loops n)
include hn he hl

theorem plays_pass {round i : Nat} {k : Engine.PassEnd → TickM σ Status} (hround : round < n.rounds S.vars)
    (hfailed : k .failed = pure .failure) (hsuspended : k .suspended = pure .running)
    (hpassed : ∀ u : Tick σ, u.Active S o n base →
      (k .passed ⟨o, S.tree⟩ u).Gives
        (S.Acts o n base u (.chain .success (S.repeats n (n.rounds S.vars - (round + 1))))))
    (hids : ids = n.children.drop i) (h : t.Active S o n base) :
    ((e.pass n.toSite round i ids >>= k) ⟨o, S.tree⟩ t).Gives
      (S.Acts o n base t
        (.chain .success ((S.readings n).drop i ++ S.repeats n (n.rounds S.vars - (round + 1))))) := by
  induction ids generalizing i t with
  | nil =>
    rw [readings_of_started hl.started, ← List.map_drop, ← hids]
    exact hpassed t h
  | cons id ids ih =>
    obtain ⟨hmem, hnext, hcons⟩ := drop_readings hl.started hids
    rw [hcons, List.cons_append, Reading.chain_cons, ← hl.rest, Engine.pass, bind_assoc]
    refine (he id hmem).then hn hmem h (hl.saves.mpr ⟨round, i, rfl, hround⟩) (fun u => ?_) fun u hu hne => ?_
    · simp only [bind_assoc, pure_bind, hsuspended]
      rfl
    · rw [hl.rest]
      cases hs : (S.reading id).status with
      | running => exact absurd hs hne
      | success =>
        rw [Reading.goOn_self]
        exact ih hnext hu
      | failure =>
        simp only [pure_bind, hfailed]
        exact Plays.finished u _

theorem plays_passes {enter : Nat → TickM σ Unit} {count round : Nat}
    (henter : ∀ i < n.rounds S.vars, ∀ u : Tick σ, u.Active S o n base →
      (enter i ⟨o, S.tree⟩ u).Gives fun _ v => u.Wrote S o v)
    (hcount : round + count = n.rounds S.vars) (h : t.Active S o n base) :
    (e.passes n.toSite enter count round ⟨o, S.tree⟩ t).Gives
      (S.Acts o n base t (.chain .success (S.repeats n count))) := by
  induction count generalizing round t with
  | zero => exact Plays.finished t _
  | succ count ih =>
    rw [Engine.passes, gives_bind, repeats_succ]
    refine (henter round (by omega) t h).mono fun _ u hw => ?_
    refine (?_ : Outcome.Gives _ (S.Acts o n base u _)).mono fun _ _ hplays => .wrote hw hplays
    have hcount' : n.rounds S.vars - (round + 1) = count := by omega
    rw [← hcount']
    refine plays_pass hn he hl (i := 0) (by omega) rfl rfl (fun v hv => ?_) rfl (h.wrote hw)
    rw [hcount']
    exact ih (by omega) hv

theorem plays_iterate {enter : Nat → TickM σ Unit}
    (henter : ∀ i < n.rounds S.vars, ∀ u : Tick σ, u.Active S o n base →
      (enter i ⟨o, S.tree⟩ u).Gives fun _ v => u.Wrote S o v)
    (h : t.Enters S o n base) :
    (e.iterate n.toSite (n.rounds S.vars) enter ⟨o, S.tree⟩ t).Gives
      (S.Acts o n base t (S.due n t.env.temps[n.id]? t.env.lastStatus)) := by
  rw [Engine.iterate, gives_bind, gives_saved]
  cases hp : t.env.temps[n.id]? with
  | none =>
    rw [due, hl.reading]
    exact plays_passes hn he hl henter (Nat.zero_add _) h.toActive
  | some p =>
    obtain ⟨round, i, rfl, hround⟩ := hl.saves.mp (h.saves hp)
    simp only
    rw [due, hl.rest, gives_bind, gives_childStatus (h.ended hp)]
    cases hs : t.env.lastStatus with
    | running => exact absurd hs (h.ended hp)
    | success =>
      simp only
      rw [if_pos hround, Reading.goOn_self]
      refine plays_pass hn he hl hround rfl rfl (fun u hu => ?_) rfl h.toActive
      exact plays_passes hn he hl henter (by omega) hu
    | failure => exact Plays.finished t _

omit hl

theorem plays_loop {count : Nat} (hb : n.behavior = .loop count) (h : t.Enters S o n base) :
    (e.loop n.toSite count ⟨o, S.tree⟩ t).Gives (S.Acts o n base t (S.due n t.env.temps[n.id]? t.env.lastStatus)) := by
  have hrounds : n.rounds S.vars = count := by rw [Node.rounds, hb]
  rw [Engine.loop, ← hrounds]
  refine plays_iterate hn he (.of_loop hn hb) (fun i _ u _ => wrote_writeSlot (fun name hname => ?_) _) h
  exact ⟨n.id, n, hn, by rw [Node.Writes, hb]; exact hname⟩

theorem plays_forEach (hb : n.behavior = .forEach) (h : t.Enters S o n base) :
    (e.forEach n.toSite ⟨o, S.tree⟩ t).Gives (S.Acts o n base t (S.due n t.env.temps[n.id]? t.env.lastStatus)) := by
  obtain ⟨name, items, hname, hitems, hkept⟩ := S.scripted.array hn hb
  have hrounds : n.rounds S.vars = items.length := by
    rw [Node.rounds, hb]
    simp [Node.items, hname, hitems, Value.asArray?]
  have hinput : t.env.input? 0 = some (.array items) := by
    rw [Env.input?, h.input, List.getElem?_map, hname, Option.map_some, Option.join_some]
    exact (h.ready.vars hkept).trans hitems
  have hwrites : ∀ name, n.outputVar? 0 = some name ∨ n.outputVar? 1 = some name → S.tree.Writes name := fun name hname =>
    ⟨n.id, n, hn, by rw [Node.Writes, hb]; exact hname⟩
  rw [Engine.forEach, gives_bind, gives_env, hinput]
  simp only [← hrounds]
  refine plays_iterate hn he (.of_forEach hn hb) (fun i hi u _ => ?_) h
  rw [gives_bind, gives_element (List.getElem?_eq_getElem (hrounds ▸ hi)), gives_bind]
  refine (wrote_writeSlot (o := o) (fun name hname => hwrites name (.inl hname)) _).mono fun _ v hv => ?_
  exact (wrote_writeSlot (fun name hname => hwrites name (.inr hname)) _).mono fun _ w hw => hv.trans hw

end Script

end BehaviorTree
