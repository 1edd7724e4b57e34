import BehaviorTree.Proofs.World.Followed
import Mathlib.Logic.Hydra

/-!
Delays are punctual. However programs schedule, cancel, release and advance the clock, from within what they have
scheduled too, what happens goes by an agenda. Such programs end: an act that an update sets off is gone for good, and
all that it leaves behind are parts of it.
-/

namespace BehaviorTree
set_option autoImplicit false

open Relation

variable {σ : Type}

/-- A program that does nothing but keep its own state and deal with tags, delays and the clock. -/
inductive Program.Timed : Program σ → Prop
  | done : Timed .done
  | look {next : Overview σ → Program σ} : (∀ v, Timed (next v)) → Timed (.look next)
  | store {host : σ} {next : Program σ} : Timed next → Timed (.store host next)
  | note {v : Value} {next : Program σ} : Timed next → Timed (.note v next)
  | newTag {next : Tag → Program σ} : (∀ tag, Timed (next tag)) → Timed (.newTag next)
  | delay {span : Float} {tag : Tag} {callback : Program σ} {next : DelayId → Program σ} :
      Timed callback → (∀ id, Timed (next id)) → Timed (.delay span tag callback next)
  | cancel {id : DelayId} {next : Bool → Program σ} : (∀ found, Timed (next found)) → Timed (.cancel id next)
  | release {tag : Tag} {next : Program σ} : Timed next → Timed (.release tag next)
  | update {dt : Float} {next : Program σ} : Timed next → Timed (.update dt next)

inductive Alarm.Part : Alarm σ → Alarm σ → Prop
  | look (next : Overview σ → Program σ) (v : Overview σ) : Part (.host (next v)) (.host (.look next))
  | store (host : σ) (next : Program σ) : Part (.host next) (.host (.store host next))
  | note (v : Value) (next : Program σ) : Part (.host next) (.host (.note v next))
  | newTag (next : Tag → Program σ) (tag : Tag) : Part (.host (next tag)) (.host (.newTag next))
  | callback (span : Float) (tag : Tag) (callback : Program σ) (next : DelayId → Program σ) :
      Part (.host callback) (.host (.delay span tag callback next))
  | delay (span : Float) (tag : Tag) (callback : Program σ) (next : DelayId → Program σ) (id : DelayId) :
      Part (.host (next id)) (.host (.delay span tag callback next))
  | cancel (id : DelayId) (next : Bool → Program σ) (found : Bool) :
      Part (.host (next found)) (.host (.cancel id next))
  | release (tag : Tag) (next : Program σ) : Part (.host next) (.host (.release tag next))
  | update (dt : Float) (next : Program σ) : Part (.host next) (.host (.update dt next))

namespace Alarm

theorem wellFounded_part : WellFounded (@Part σ) := by
  have hhost : ∀ p : Program σ, Acc Part (.host p) := by
    intro p
    induction p with
    | look next ih | newTag next ih | cancel id next ih =>
      constructor
      rintro _ ⟨⟩
      exact ih _
    | store _ next ih | note _ next ih | release _ next ih | update _ next ih =>
      constructor
      rintro _ ⟨⟩
      exact ih
    | delay span tag callback next ihc ih =>
      constructor
      rintro _ (_ | _)
      · exact ihc
      · exact ih _
    | _ => exact ⟨_, nofun⟩
  constructor
  intro a
  cases a with
  | job => exact ⟨_, nofun⟩
  | host p => exact hhost p

abbrev Lighter (s t : Multiset (Alarm σ)) : Prop := TransGen (CutExpand Part) s t

abbrev NoHeavier (s t : Multiset (Alarm σ)) : Prop := ReflTransGen (CutExpand Part) s t

variable {s t : Multiset (Alarm σ)} {x y : Alarm σ}

theorem wellFounded_lighter : WellFounded (@Lighter σ) := wellFounded_part.cutExpand.transGen

theorem noHeavier_of_le (h : s ≤ t) : NoHeavier s t := by
  obtain ⟨u, rfl⟩ := Multiset.le_iff_exists_add.mp h
  induction u using Multiset.induction_on with
  | empty => rw [add_zero]
  | cons a u ih =>
    apply (ih (Multiset.le_add_right _ _)).tail
    have hcut : CutExpand Part (s + u + 0) (s + u + {a}) := (cutExpand_add_left _).mpr cutExpand_zero
    rwa [add_zero, add_assoc, add_comm u, Multiset.singleton_add] at hcut

theorem NoHeavier.add_left (h : NoHeavier s t) (u : Multiset (Alarm σ)) : NoHeavier (u + s) (u + t) :=
  h.lift (u + ·) fun _ _ hcut => (cutExpand_add_left u).mpr hcut

theorem lighter_add (s : Multiset (Alarm σ)) (x : Alarm σ) : Lighter s ({x} + s) := by
  have hcut : CutExpand Part (0 + s) ({x} + s) := (cutExpand_add_right s).mpr cutExpand_zero
  rw [zero_add] at hcut
  exact .single hcut

theorem Part.lighter (hp : Part x y) (h : NoHeavier s t) : Lighter ({x} + s) ({y} + t) :=
  TransGen.tail' (h.add_left {x}) (cutExpand_single_add hp t)

theorem Part.lighter_both {z : Alarm σ} (hx : Part x z) (hy : Part y z) (s : Multiset (Alarm σ)) :
    Lighter ({x} + (s + {y})) ({z} + s) := by
  have hcut : CutExpand Part ({x, y} + s) ({z} + s) := (cutExpand_add_right s).mpr (cutExpand_double hx hy)
  have hsum : {x, y} + s = {x} + (s + {y}) := by
    rw [Multiset.insert_eq_cons, ← Multiset.singleton_add, add_assoc, add_comm ({y} : Multiset (Alarm σ))]
  exact .single (hsum ▸ hcut)

end Alarm

namespace Agenda

variable {a : Agenda (Alarm σ)}

def work (a : Agenda (Alarm σ)) : Multiset (Alarm σ) := ↑(a.pending.map (·.callback))

theorem work_filter_le (a : Agenda (Alarm σ)) (keep : Appointment (Alarm σ) → Bool) :
    Agenda.work { a with pending := a.pending.filter keep } ≤ a.work := (List.filter_sublist.map _).subperm

end Agenda

def InDepth {α : Type} (f : Nat → Except Halt α) (r : α) : Prop :=
  ∃ depth, ∀ n, f n = if depth ≤ n then .ok r else .error .tooDeep

namespace InDepth

variable {α β : Type} {f : Nat → Except Halt α} {r : α}

theorem ok (r : α) : InDepth (fun _ => .ok r) r := ⟨0, fun n => (if_pos n.zero_le).symm⟩

theorem map (hf : InDepth f r) (g : α → β) : InDepth (fun n => (f n).map g) (g r) := by
  obtain ⟨depth, hf⟩ := hf
  refine ⟨depth, fun n => ?_⟩
  change (f n).map g = _
  rw [hf]
  split <;> rfl

theorem bind {g : α → Nat → Except Halt β} {r' : β} (hf : InDepth f r) (hg : InDepth (g r) r') :
    InDepth (fun n => (f n).bind fun a => g a n) r' := by
  obtain ⟨depth, hf⟩ := hf
  obtain ⟨depth', hg⟩ := hg
  refine ⟨max depth depth', fun n => ?_⟩
  change (f n).bind (fun a => g a n) = _
  rw [hf]
  by_cases hn : depth ≤ n
  · rw [if_pos hn]
    change g r n = _
    rw [hg]
    simp [hn]
  · rw [if_neg hn, if_neg (by omega)]
    rfl

theorem call {g : Nat → Except Halt α} (hf : InDepth f r) (hzero : g 0 = .error .tooDeep)
    (hsucc : ∀ n, g (n + 1) = f n) : InDepth g r := by
  obtain ⟨depth, hf⟩ := hf
  refine ⟨depth + 1, fun n => ?_⟩
  cases n with
  | zero => exact hzero
  | succ n => simp [hsucc, hf]

end InDepth

/-- A world whose delays are those of an agenda, and will be timed. -/
structure World.Attends (w : World σ) (a : Agenda (Alarm σ)) : Prop where
  lists : w.delays.Lists a
  timed : ∀ x ∈ a.pending, ∃ p : Program σ, x.callback = .host p ∧ p.Timed

/-- Given depth enough, this ends and goes by the agenda, and no more is left to be done than there was. -/
def Ends (f : Nat → Followed σ) (a : Agenda (Alarm σ)) (outer : List (List (Appointment (Alarm σ))))
    (bound : Multiset (Alarm σ)) : Prop :=
  ∃ log w b, InDepth f (log, w) ∧ Agenda.Path a log b ∧ w.Attends b ∧ b.batches = outer ∧ Alarm.NoHeavier b.work bound

section Ends

open Alarm

variable {f : Nat → Followed σ} {a b : Agenda (Alarm σ)} {w w' : World σ}
  {inner outer : List (List (Appointment (Alarm σ)))} {bound bound' : Multiset (Alarm σ)} {p : Program σ}
  {h : Happening (Alarm σ)}

theorem World.Attends.of_delays (ha : w.Attends a) (hd : w'.delays = w.delays) : w'.Attends a :=
  ⟨hd ▸ ha.lists, ha.timed⟩

theorem World.Attends.fewer (ha : w.Attends a) {keep : Appointment (Alarm σ) → Bool}
    (hl : w'.delays.Lists { a with pending := a.pending.filter keep }) :
    w'.Attends { a with pending := a.pending.filter keep } :=
  ⟨hl, fun x hx => ha.timed x (List.mem_filter.mp hx).1⟩

theorem World.Attends.delay (ha : w.Attends a) (span : Float) (tag : Tag) (hp : p.Timed) :
    ∃ b, a.Step (.scheduled (w.delay span tag (.host p)).1 (w.time + span) tag (.host p)) b ∧
      (w.delay span tag (.host p)).2.Attends b ∧ b.batches = a.batches ∧ b.work = a.work + {.host p} := by
  obtain ⟨hid, hlists⟩ := ha.lists.schedule (w.time + span) tag (.host p)
  refine ⟨_, ?_, ⟨hlists, fun x hx => ?_⟩, rfl, ?_⟩
  · have hgiven : (w.delay span tag (.host p)).1 = ⟨a.nextIndex⟩ := hid
    rw [hgiven]
    exact .scheduled (w.time + span) tag (Alarm.host p)
  · rcases List.mem_append.mp hx with hx | hx
    · exact ha.timed x hx
    · obtain rfl := List.mem_singleton.mp hx
      exact ⟨p, rfl, hp⟩
  · rw [Agenda.work, List.map_append, ← Multiset.coe_add]
    rfl

theorem World.Attends.cancel (ha : w.Attends a) (id : DelayId) :
    ∃ b, a.Step (.cancelled id (w.delays.cancel id).1) b ∧ World.Attends { w with delays := (w.delays.cancel id).2 } b ∧
      b.batches = a.batches ∧ b.work ≤ a.work := by
  obtain ⟨hfound, hlists⟩ := ha.lists.cancel id
  exact ⟨_, hfound ▸ .cancelled id, ha.fewer hlists, rfl, a.work_filter_le _⟩

theorem World.Attends.release (ha : w.Attends a) (tag : Tag) :
    ∃ b, a.Step (.released tag) b ∧ (w.releaseTag tag).Attends b ∧ b.batches = a.batches ∧ b.work ≤ a.work := by
  have hlists := ha.lists.cancelOwner tag
  rw [← World.delays_releaseTag] at hlists
  exact ⟨_, .released tag, ha.fewer hlists, rfl, a.work_filter_le _⟩

/-- When an update begins, those who are due wait no longer. -/
theorem World.Attends.advance (ha : w.Attends a) (now : Float) :
    ∃ b batch, a.Step (.began now) b ∧
      World.Attends { w with time := now, delays := (w.delays.takeDue now).2 } b ∧
      (w.delays.due now).zip (w.delays.takeDue now).1 = batch.map (fun x => (x.id, x.callback)) ∧
      (∀ x ∈ batch, ∃ p : Program σ, x.callback = .host p ∧ p.Timed) ∧
      b.batches = batch :: a.batches ∧ (↑(batch.map (·.callback)) + b.work : Multiset (Alarm σ)) = a.work := by
  obtain ⟨batch, hbatch, hids, hcallbacks, hlists⟩ := ha.lists.takeDue now
  refine ⟨_, batch, .began hbatch, ⟨hlists.batches _, ?_⟩, ?_, ?_, rfl, ?_⟩
  · exact fun x hx => ha.timed x (List.mem_filter.mp hx).1
  · rw [hids, hcallbacks, List.zip_map']
  · exact fun x hx => ha.timed x ((hbatch.mem_iff x).mp hx).1
  · have hperm := (Agenda.perm_of_batch ha.lists.distinct hbatch).map (·.callback)
    rw [List.map_append] at hperm
    exact Multiset.coe_eq_coe.mpr hperm

theorem Ends.mono (he : Ends f a outer bound) (hb : NoHeavier bound bound') : Ends f a outer bound' := by
  obtain ⟨log, w, b, hf, hp, hw, hbatches, hwork⟩ := he
  exact ⟨log, w, b, hf, hp, hw, hbatches, hwork.trans hb⟩

theorem Ends.after (hs : a.Step h b) (he : Ends f b outer bound) : Ends (fun n => (f n).after h) a outer bound := by
  obtain ⟨log, w, c, hf, hp, hw, hbatches, hwork⟩ := he
  exact ⟨h :: log, w, c, hf.map fun r => (h :: r.1, r.2), .cons hs hp, hw, hbatches, hwork⟩

theorem Ends.andThen {g : World σ → Nat → Followed σ} (hf : Ends f a inner bound)
    (hg : ∀ w b, w.Attends b → b.batches = inner → NoHeavier b.work bound → Ends (g w) b outer bound') :
    Ends (fun n => (f n).andThen fun w => g w n) a outer bound' := by
  obtain ⟨within, w, b, hf, hp, hw, hbatches, hwork⟩ := hf
  obtain ⟨log, w', c, hg, hp', hw', hbatches', hwork'⟩ := hg w b hw hbatches hwork
  refine ⟨within ++ log, w', c, ?_, hp.append hp', hw', hbatches', hwork'⟩
  exact hf.bind (g := fun r n => (g r.2 n).map fun s => (r.1 ++ s.1, s.2)) (hg.map fun s => (within ++ s.1, s.2))

/-- Those whom an update sets off act one after the other, if each of them ends. -/
theorem followDue_ends {batch : List (Appointment (Alarm σ))} {whole : Multiset (Alarm σ)}
    (hall : ∀ {q : Program σ} {w : World σ} {a : Agenda (Alarm σ)}, q.Timed → w.Attends a →
      Lighter ({.host q} + a.work) whole → Ends (fun n => World.follow n q w) a a.batches ({.host q} + a.work))
    (hbatch : ∀ x ∈ batch, ∃ p : Program σ, x.callback = .host p ∧ p.Timed) (ha : w.Attends a)
    (hb : a.batches = batch :: outer) (hwhole : Lighter (↑(batch.map (·.callback)) + a.work) whole) :
    Ends (fun n => Engine.followDue (Engine.followAlarm n) (batch.map fun x => (x.id, x.callback)) w) a ([] :: outer)
      (↑(batch.map (·.callback)) + a.work) := by
  induction batch generalizing w a with
  | nil => exact ⟨[], w, a, .ok _, .nil a, ha, hb, noHeavier_of_le (Multiset.le_add_left _ _)⟩
  | cons x batch ih =>
    obtain ⟨⟨q, hq, hqt⟩, hbatch⟩ := List.forall_mem_cons.mp hbatch
    have hwork : (↑((x :: batch).map (·.callback)) + a.work : Multiset (Alarm σ)) =
        ↑(batch.map (·.callback)) + ({.host q} + a.work) := by
      rw [List.map_cons, hq, ← Multiset.cons_coe, ← Multiset.singleton_add, add_assoc, add_left_comm]
    rw [hwork] at hwhole ⊢
    -- `x` is no longer to be set off, and acts
    have hfirst : Ends (fun n => Engine.followAlarm n x.callback w) { a with batches := batch :: outer }
        (batch :: outer) ({.host q} + a.work) := by
      have hlt : NoHeavier ({.host q} + a.work) (↑(batch.map (·.callback)) + ({.host q} + a.work)) :=
        noHeavier_of_le (Multiset.le_add_left _ _)
      obtain ⟨log, w', b, hf, hrest⟩ :=
        hall hqt (a := { a with batches := batch :: outer }) ⟨ha.lists.batches _, ha.timed⟩ (hwhole.trans_right hlt)
      exact ⟨log, w', b, hf.call rfl fun n => by rw [hq]; rfl, hrest⟩
    apply Ends.after (.fired hb)
    apply hfirst.andThen
    intro w' b hw' hbatches hless
    have hleft := hless.add_left ↑(batch.map (·.callback))
    exact (ih hbatch hw' hbatches (hwhole.trans_right hleft)).mono hleft

/-- Given depth enough, such a program ends, and goes by the agenda. -/
theorem Program.Timed.ends (hp : p.Timed) (ha : w.Attends a) :
    Ends (fun n => World.follow n p w) a a.batches ({.host p} + a.work) := by
  generalize hwhole : ({.host p} + a.work : Multiset (Alarm σ)) = whole
  -- what is left to be done gets less
  induction whole using wellFounded_lighter.induction generalizing p w a with
  | h whole ih =>
    subst hwhole
    have hnext : ∀ {q : Program σ} {b : Agenda (Alarm σ)} (w' : World σ), q.Timed → w'.Attends b →
        b.batches = a.batches → Lighter ({.host q} + b.work) ({.host p} + a.work) →
        Ends (fun n => World.follow n q w') b a.batches ({.host p} + a.work) := by
      intro q b w' hq hb hbatches hlt
      rw [← hbatches]
      exact (ih _ hlt hq hb rfl).mono hlt.to_reflTransGen
    cases hp with
    | done => exact ⟨[], w, a, .ok _, .nil a, ha, rfl, noHeavier_of_le (Multiset.le_add_left _ _)⟩
    | look hq =>
      have hcount : w.overview.delays = fun tag => a.pending.countP (·.tag = tag) := funext ha.lists.count
      exact (hnext w (hq _) ha rfl ((Part.look _ _).lighter .refl)).after (hcount ▸ .counted)
    | @store host _ hq => exact (hnext { w with host } hq (ha.of_delays rfl) rfl ((Part.store _ _).lighter .refl) :)
    | @note v _ hq => exact (hnext (w.record (.note v)) hq (ha.of_delays rfl) rfl ((Part.note _ _).lighter .refl) :)
    | newTag hq => exact (hnext w.newTag.2 (hq w.newTag.1) (ha.of_delays rfl) rfl ((Part.newTag _ _).lighter .refl) :)
    | @delay span tag callback next hc hq =>
      obtain ⟨b, hs, hb, hbatches, hwork⟩ := ha.delay span tag hc
      have hlt := (Part.delay span tag callback next (w.delay span tag (.host callback)).1).lighter_both
        (.callback span tag callback next) a.work
      exact ((hnext _ (hq _) hb hbatches (hwork ▸ hlt)).after hs :)
    | @cancel id next hq =>
      obtain ⟨b, hs, hb, hbatches, hwork⟩ := ha.cancel id
      exact ((hnext _ (hq _) hb hbatches ((Part.cancel _ _ _).lighter (noHeavier_of_le hwork))).after hs :)
    | @release tag next hq =>
      obtain ⟨b, hs, hb, hbatches, hwork⟩ := ha.release tag
      exact ((hnext _ hq hb hbatches ((Part.release _ _).lighter (noHeavier_of_le hwork))).after hs :)
    | @update dt next hq =>
      obtain ⟨b, batch, hs, hb, hdue, hbatch, hbatches, hwork⟩ := ha.advance (w.time + dt)
      have hacts := followDue_ends (fun hq hb hlt => ih _ hlt hq hb rfl) hbatch hb hbatches
        (hwork ▸ lighter_add a.work (.host (.update dt next)))
      rw [hwork, ← hdue] at hacts
      refine ((hacts.andThen fun w' c hc hopen hless => ?_).after hs :)
      have hrest := hnext (b := { c with batches := a.batches }) w' hq ⟨hc.lists.batches _, hc.timed⟩ rfl
        ((Part.update _ _).lighter hless)
      exact hrest.after (.ended hopen)

end Ends

open Happening in
/-- Delays are punctual, whatever a program schedules, cancels and releases, and however it advances the clock, also
from within what it has scheduled: given depth enough it ends, and with less depth it only halts; what happened to
delays is as it should be, and those who wait in the end are the pending ones, in number too. -/
theorem Program.Timed.punctual {p : Program σ} (hp : p.Timed) (registry : Registry) (host : σ) :
    ∃ log w depth,
      (∀ n, World.perform n p { registry, host } = if depth ≤ n then .ok w else .error .tooDeep) ∧
      (∀ n, World.follow n p { registry, host } = if depth ≤ n then .ok (log, w) else .error .tooDeep) ∧
      Punctual log ∧
      (∀ x, x ∈ waiting log ↔ w.delays.pending[x.id]? = some ⟨x.expiry, x.tag, x.callback⟩) ∧
      ∀ tag, w.delays.count tag = (waiting log).countP (·.tag = tag) := by
  have hstart : World.Attends { registry, host } ({} : Agenda (Alarm σ)) := ⟨Delays.lists_empty, nofun⟩
  obtain ⟨log, w, b, ⟨depth, hfollow⟩, hpath, hw, hbatches, _⟩ := hp.ends hstart
  refine ⟨log, w, depth, fun n => ?_, hfollow, hpath.punctual_log hbatches, ?_, ?_⟩
  · have hn := congrArg (Except.map (·.2)) (hfollow n)
    refine (World.map_follow n p { registry, host }).symm.trans (hn.trans ?_)
    split <;> rfl
  · rw [← hpath.pending]
    exact hw.lists.pending
  · rw [← hpath.pending]
    exact hw.lists.count

namespace Errands

/-- Someone who gives up the first errand at once. The third one schedules another and advances the clock further before
the fourth, and the last is released with its owner. -/
def program : Program Unit :=
  .newTag fun mine => .newTag fun yours =>
    .delay 1 mine .done fun id => .cancel id fun _ =>
      .delay 5 mine (.note (.string "late") .done) fun _ =>
        .delay 2 mine (.delay 0 yours (.look fun _ => .done) fun _ => .update 3 .done) fun _ =>
          .delay 2 yours (.note (.string "last") .done) fun _ =>
            .delay 9 mine .done fun _ =>
              .update 2 <| .release mine <| .update 10 <| .look fun _ => .done

theorem timed : program.Timed :=
  .newTag fun _ => .newTag fun _ =>
    .delay .done fun _ => .cancel fun _ =>
      .delay (.note .done) fun _ => .delay (.delay (.look fun _ => .done) fun _ => .update .done) fun _ =>
        .delay (.note .done) fun _ => .delay .done fun _ =>
          .update <| .release <| .update <| .look fun _ => .done

end Errands

open Errands Happening in
/-- Whatever the clock makes of the other errands, the first one is not done. -/
theorem punctual_errands : ∃ log w depth,
    (∀ n, World.follow n program { registry := ∅, host := () } = if depth ≤ n then .ok (log, w) else .error .tooDeep) ∧
      Punctual log ∧ ⟨0⟩ ∉ log.flatMap setOff := by
  obtain ⟨log, w, depth, _, hfollow, hpunctual, _⟩ := timed.punctual ∅ ()
  refine ⟨log, w, depth, hfollow, hpunctual, ?_⟩
  have hlog := hfollow depth
  rw [if_pos (Nat.le_refl depth)] at hlog
  obtain ⟨rest, hscheduled, hrest⟩ := Followed.after_eq_ok hlog
  obtain ⟨post, rfl, _⟩ := Followed.after_eq_ok hrest
  have hcancelled := @Punctual.cancelled _ _ hpunctual [_] _ _ _ hscheduled
  have hwaits := hcancelled.1.mpr ⟨_, List.mem_singleton_self _, rfl⟩
  rw [hscheduled]
  exact hcancelled.2 hwaits

end BehaviorTree
