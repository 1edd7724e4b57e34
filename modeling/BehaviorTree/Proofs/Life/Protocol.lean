import BehaviorTree.Proofs.Life.Requests

/-!
What a run tells of the life of an instance, in order. It tells that it begins; what it tells next depends on how its
tick ended, and on what was asked for before the tick ended, while those who listen for the end acted and the waiting
jobs ran, and before it comes to the clearing. Nothing is told twice.
-/

namespace BehaviorTree
set_option autoImplicit false

variable {σ α β : Type} {w w' w₁ : World σ} {o : Tag} {c d : Course} {b : Bool} {e : Engine σ} {n : Nat}

section Run

variable (w) (f : World σ → World σ)

/-- A computation in two parts gives what the second gives after the first. -/
theorem run_bind_eq_ok {m : WorldM σ β} {f : β → WorldM σ α} {r : α × World σ} :
    (m >>= f).run w = .ok r ↔ ∃ b w₁, m.run w = .ok (b, w₁) ∧ (f b).run w₁ = .ok r := by
  rw [StateT.run_bind]
  constructor
  · intro h
    cases hm : m.run w with
    | error err =>
      rw [hm] at h
      cases h
    | ok r' =>
      rw [hm] at h
      exact ⟨r'.1, r'.2, rfl, h⟩
  · rintro ⟨b, w₁, hm, hf⟩
    rw [hm]
    exact hf

theorem run_get_bind (m : World σ → WorldM σ α) : (get >>= m).run w = (m w).run w := rfl

theorem run_modify_bind (m : PUnit → WorldM σ α) : (modify f >>= m).run w = (m ⟨⟩).run (f w) := rfl

end Run

namespace Lifecycle

def ofStatus : Status → List Lifecycle
  | .success => [.afterRunSuccess]
  | .failure => [.afterRunFailure]
  | .running => []

/-- What is told after a tick, from how it ended: `early` and `late` say whether an interruption was asked for before it
ended or afterwards, and `due` whether a clearing is outstanding in the end. -/
def ofEnd (result : Except RunError Status) (early late due : Bool) : List (Lifecycle × List Value) :=
  match result with
  | .error _ => []
  | .ok status =>
    (if early then [(interrupted, [])]
      else (afterRun, [.string status.text]) ::
        ((ofStatus status).map (·, []) ++ if late then [(interrupted, [])] else [])) ++
      if due then [(cleaned, [])] else []

/-- What a run tells. -/
def ofRun (result : Except RunError Status) (early late due : Bool) : List (Lifecycle × List Value) :=
  (beforeRun, []) :: ofEnd result early late due

theorem nodup_ofRun (result : Except RunError Status) (early late due : Bool) :
    ((ofRun result early late due).map (·.1.name)).Nodup := by
  cases result with
  | error => simp [ofRun, ofEnd]
  | ok status => cases status <;> cases early <;> cases late <;> cases due <;> decide +kernel

end Lifecycle

namespace Activity

/-- An event of an instance's life that is told, with its arguments. -/
def told? : Activity → Option (String × List Value)
  | announced event args => some (event, args)
  | _ => none

def owes (due : Bool) : Activity → Bool
  | requested clear => due || clear
  | announced event _ => due && event != Lifecycle.cleaned.name
  | _ => due

def outstanding (acts : List Activity) : Bool := acts.foldl owes false

variable {a : Activity} {acts : List Activity}

theorem Mute.told? (h : a.Mute) : a.told? = none := by
  cases a with
  | announced => exact h.elim
  | _ => rfl

theorem told_of_mute (h : ∀ a ∈ acts, a.Mute) : acts.filterMap told? = [] :=
  List.filterMap_eq_nil_iff.mpr fun a ha => (h a ha).told?

theorem Inner.not_drops (h : a.Inner) : ¬ a.Drops := by
  cases a with
  | announced | unwound => exact h.elim
  | _ => exact id

theorem Within.calm {event : Lifecycle} (h : a.Within event) (he : event ≠ .cleaned) : ¬ a.Drops := by
  cases a with
  | announced name args => exact fun hd => he (Lifecycle.name_inj.mp (h.symm.trans hd))
  | unwound => exact h.elim
  | _ => exact id

end Activity

namespace Course

variable {a : Activity} {acts : List Activity}

theorem Next.due_eq (h : Next c a d) : d.due = a.owes c.due := by
  cases h with
  | cleaned => simp [Activity.owes, Course.cleared]
  | announced _ _ he => simp [Activity.owes, he]
  | _ => rfl

theorem Path.due_eq (h : Path c acts d) : d.due = acts.foldl Activity.owes c.due := by
  induction h with
  | nil => rfl
  | cons hn _ ih => rw [ih, hn.due_eq, List.foldl_cons]

end Course

namespace World

/-- What was told of the life of an instance. -/
def told (w : World σ) (o : Tag) : List (String × List Value) := (w.acts o).filterMap Activity.told?

theorem told_of_acts {acts : List Activity} (h : w'.acts o = w.acts o ++ acts) :
    w'.told o = w.told o ++ acts.filterMap Activity.told? := by
  rw [told, h, List.filterMap_append]
  rfl

theorem Turns.told {K : Activity → Prop} (h : w.Turns K b o c w' d) (hK : ∀ a, K a → a.Mute) :
    w'.told o = w.told o := by
  obtain ⟨acts, hacts, _, hk⟩ := h.path
  rw [told_of_acts hacts, Activity.told_of_mute fun a ha => hK a (hk a ha), List.append_nil]

/-- An instance of which a clearing is outstanding knows it. -/
theorem Stands.clearRequested (h : w.Stands o c) : (w.instanceOf o).clearRequested = Activity.outstanding (w.acts o) :=
  h.here.clearRequested.trans h.path.due_eq

end World

open World

namespace Engine

/-- What follows a tick that returned a status, until the waiting jobs have run. -/
def finish (e : Engine σ) (owner : Tag) (status : Status) : WorldM σ Unit := do
  e.announce owner .afterRun [.string status.text]
  e.announceSettled owner status
  modify (·.lock owner)
  e.runPending owner

/-- What it means that an interruption is asked for after a tick that returned a status, and that a clearing is
outstanding once the tick is settled. -/
structure Settled (e : Engine σ) (o : Tag) (status : Status) (w : World σ) (early late due : Bool) : Prop where
  late : early = false → ∃ w₁ acts, (e.finish o status).run w = .ok ((), w₁) ∧ w₁.acts o = w.acts o ++ acts ∧
    late = acts.any Activity.isRequest ∧ (late = false → (w₁.instanceOf o).pending = [])
  due : ∃ status' w₁, (e.settleTick o status).run w = .ok (status', w₁) ∧ due = Activity.outstanding (w₁.acts o)

namespace Civil

variable (he : e.Civil)
include he

theorem told_announce (event : Lifecycle) (h : w.Held true o c) (ha : c.active = false) (hev : event ≠ .cleaned)
    (args : List Value) :
    w.Then (e.announce o event args) fun _ w' => w'.told o = w.told o ++ [(event.name, args)] := by
  have hseen := Turns.announced event h ha hev args
  simp only [Engine.announce, then_bind, then_modify, then_pure]
  refine (he.told hseen.held _ _).mono fun _ w' hw' => ?_
  obtain ⟨d, hd, _⟩ := hw'
  rw [hd.told fun _ => Activity.Inner.mute]
  rw [World.told, acts_observe, if_pos rfl, List.filterMap_append]
  rfl

theorem told_openRun (h : w.Held b o c) (ha : c.active = false) :
    w.Then (e.openRun o) fun _ w' => w'.told o = w.told o ++ [(Lifecycle.beforeRun.name, [])] := by
  simp only [Engine.openRun, then_bind, then_modify]
  have hlock : w.Turns (Activity.Within .beforeRun) true o c (w.lock o) c := .lock h
  intro _ w₁ hr
  obtain ⟨c₁, h₁, hactive₁, _⟩ := he.announce .beforeRun hlock.held ha (by simp) [] _ w₁ hr
  have htold := he.told_announce .beforeRun hlock.held ha (by simp) [] _ w₁ hr
  refine (he.tick h₁.held hactive₁).mono fun _ w₂ hw₂ => ?_
  obtain ⟨_, h₂, _⟩ := hw₂
  rw [h₂.told fun _ => Activity.Inner.mute, htold, World.told, World.lock, acts_modifyInstance]
  rfl

theorem told_announceSettled (h : w.Held true o c) (ha : c.active = false) (status : Status) :
    w.Then (e.announceSettled o status) fun _ w' => ∃ d, w.Turns (fun a => ¬ a.Drops) true o c w' d ∧
      d.active = false ∧ d.closed = c.closed ∧
      w'.told o = w.told o ++ (Lifecycle.ofStatus status).map fun event => (event.name, []) := by
  have htold : ∀ event : Lifecycle, event ≠ .cleaned → event ≠ .beforeRun → w.Then (e.announce o event [])
      fun _ w' => ∃ d, w.Turns (fun a => ¬ a.Drops) true o c w' d ∧ d.active = false ∧ d.closed = c.closed ∧
        w'.told o = w.told o ++ [(event.name, [])] := by
    intro event hcleaned hbefore _ w' hr
    obtain ⟨d, hd, hactive, hclosed, _⟩ := he.announce event h ha hcleaned [] _ w' hr
    have htold := he.told_announce event h ha hcleaned [] _ w' hr
    exact ⟨d, hd.mono fun _ ha => ha.calm hcleaned, hactive, hclosed hbefore, htold⟩
  cases status with
  | success => exact htold .afterRunSuccess (by simp) (by simp)
  | failure => exact htold .afterRunFailure (by simp) (by simp)
  | running => exact (then_pure _).mpr ⟨c, .refl h, ha, rfl, (List.append_nil _).symm⟩

theorem told_finish (h : w.Held true o c) (ha : c.active = false) (hasked : c.asked = false) (status : Status) :
    w.Then (e.finish o status) fun _ w' => ∃ d, w.Turns (fun a => ¬ a.Drops) true o c w' d ∧ d.active = false ∧
      (d.asked = false → d.waiting = []) ∧
      w'.told o = w.told o ++ (Lifecycle.afterRun.name, [.string status.text]) ::
        (Lifecycle.ofStatus status).map fun event => (event.name, []) := by
  simp only [Engine.finish, then_bind, then_modify]
  intro _ w₁ hr₁
  obtain ⟨c₁, h₁, hactive₁, hclosed₁, _⟩ := he.announce .afterRun h ha (by simp) _ _ w₁ hr₁
  have htold₁ := he.told_announce .afterRun h ha (by simp) _ _ w₁ hr₁
  refine (he.told_announceSettled h₁.held hactive₁ status).mono fun _ w₂ hw₂ => ?_
  obtain ⟨c₂, h₂, hactive₂, hclosed₂, htold₂⟩ := hw₂
  -- the queue is still open, whatever those who hear the events ask for
  have hopen : c₂.closed = false := hclosed₂.trans ((hclosed₁ (by simp)).trans (h.stands.here.opened hasked))
  have hlock : w₂.Turns (fun a => ¬ a.Drops) true o c₂ (w₂.lock o) c₂ := .lock h₂.held
  refine (he.runPending hlock.held hactive₂ hopen).mono fun _ w₃ hw₃ => ?_
  obtain ⟨c₃, h₃, hactive₃, hempty⟩ := hw₃
  refine ⟨c₃, ?_, hactive₃, hempty, ?_⟩
  · have hfirst := h₁.mono (L := fun a => ¬ a.Drops) fun _ ha => ha.calm (by simp)
    exact ((hfirst.trans h₂).trans hlock).trans (h₃.mono fun _ ha => ha.not_drops)
  · have hlocked : (w₂.lock o).told o = w₂.told o := by rw [World.told, World.lock, acts_modifyInstance]; rfl
    rw [h₃.told fun _ => Activity.Inner.mute, hlocked, htold₂, htold₁, List.append_assoc]
    rfl

theorem told_interruptNow (h : w.Held true o c) (ha : c.active = false) :
    w.Then (e.interruptNow o) fun _ w' => w'.told o = w.told o ++ [(Lifecycle.interrupted.name, [])] := by
  refine (he.cutShort h ha).mono fun _ w' hw' => ?_
  obtain ⟨_, _, _, _, acts, hmute, hacts⟩ := hw'
  have hrest : acts.filterMap Activity.told? = [] := Activity.told_of_mute hmute
  have htold := told_of_acts hacts
  change w'.told o = w.told o ++ (Lifecycle.interrupted.name, []) :: acts.filterMap Activity.told? at htold
  rwa [hrest] at htold

omit he in
/-- How a tick is settled that was not interrupted: with what follows it, and with an interruption if one is asked for
by then. -/
theorem settleTick_eq_ok {status status' : Status} (hb : (w.instanceOf o).interrupted = false)
    (hr : (e.settleTick o status).run w = .ok (status', w')) :
    status' = status ∧ ∃ w₁ w₂, (e.finish o status).run w = .ok ((), w₁) ∧ w'.told o = w₂.told o ∧
      (if (w₁.instanceOf o).interrupted then e.interruptNow o else pure ()).run w₁ = .ok ((), w₂) := by
  simp only [Engine.settleTick, run_get_bind] at hr
  rw [hb, if_neg Bool.false_ne_true] at hr
  obtain ⟨_, wa, hannounce, hr⟩ := (run_bind_eq_ok w).mp hr
  obtain ⟨_, wb, hsettled, hr⟩ := (run_bind_eq_ok wa).mp hr
  obtain ⟨_, wc, hdrain, hr⟩ := (run_bind_eq_ok wb).mp hr
  cases hr
  simp only [Engine.drain, whileExecuting, run_get_bind, run_modify_bind] at hdrain
  obtain ⟨_, w₂, hserve, hend⟩ := (run_bind_eq_ok _).mp hdrain
  obtain ⟨_, w₁, hpending, hserve⟩ := (run_bind_eq_ok _).mp hserve
  cases hend
  have hfinish : (e.finish o status).run w = .ok ((), w₁) :=
    (run_bind_eq_ok w).mpr ⟨_, wa, hannounce, (run_bind_eq_ok wa).mpr ⟨_, wb, hsettled, hpending⟩⟩
  exact ⟨rfl, w₁, w₂, hfinish, rfl, hserve⟩

theorem run_settleTick (h : w.Held true o c) (ha : c.active = false) {status status' : Status}
    (hr : (e.settleTick o status).run w = .ok (status', w')) :
    (c.asked = true → status' = .failure ∧ w'.told o = w.told o ++ [(Lifecycle.interrupted.name, [])]) ∧
      (c.asked = false → status' = status ∧ ∃ w₁ acts, (e.finish o status).run w = .ok ((), w₁) ∧
        w₁.acts o = w.acts o ++ acts ∧ (acts.any Activity.isRequest = false → (w₁.instanceOf o).pending = []) ∧
        w'.told o = w.told o ++ (Lifecycle.afterRun.name, [.string status.text]) ::
          ((Lifecycle.ofStatus status).map (fun event => (event.name, [])) ++
            if acts.any Activity.isRequest then [(Lifecycle.interrupted.name, [])] else [])) := by
  have hinterrupted := h.stands.here.interrupted
  constructor
  · intro hasked
    simp only [Engine.settleTick, run_get_bind] at hr
    rw [hinterrupted, hasked, if_pos rfl] at hr
    obtain ⟨_, w₁, hinterrupt, hr⟩ := (run_bind_eq_ok w).mp hr
    cases hr
    exact ⟨rfl, he.told_interruptNow h ha _ _ hinterrupt⟩
  · intro hasked
    obtain ⟨rfl, w₁, w₂, hfinish, hsame, hserve⟩ := settleTick_eq_ok (hinterrupted.trans hasked) hr
    obtain ⟨d, hd, hactive, hempty, htold⟩ := he.told_finish h ha hasked _ _ _ hfinish
    obtain ⟨acts, hacts, hpath, hcalm⟩ := hd.path
    have hlate : d.asked = acts.any Activity.isRequest := by rw [hpath.asked_eq hcalm, hasked, Bool.false_or]
    refine ⟨rfl, w₁, acts, hfinish, hacts, fun hnone => ?_, ?_⟩
    · exact hd.held.stands.here.pending.trans (hempty (hlate.trans hnone))
    rw [hd.held.stands.here.interrupted, hlate] at hserve
    rw [hsame]
    cases hany : acts.any Activity.isRequest with
    | true =>
      rw [hany, if_pos rfl] at hserve
      rw [he.told_interruptNow hd.held hactive _ _ hserve, htold, List.append_assoc]
      rfl
    | false =>
      rw [hany, if_neg Bool.false_ne_true] at hserve
      cases hserve
      rw [htold, if_neg Bool.false_ne_true, List.append_nil]

theorem told_clearNow (h : w.Held true o c) (hc : c.Still) :
    w.Then (e.clearNow o) fun _ w' => w'.told o = w.told o ++ [(Lifecycle.cleaned.name, [])] := by
  have hclear := Turns.clearing h hc
  refine (he.clearNow hclear.held hc.cleared rfl h.executing).mono fun _ w' hw' => ?_
  obtain ⟨_, hd, _⟩ := hw'
  rw [hd.told fun _ => id, World.told, World.clearing, acts_telling, acts_modifyInstance, List.filterMap_append]
  rfl

omit he in
theorem run_afterTick_error {err : RunError} {r : Except RunError Status}
    (hr : (e.afterTick o (.error err)).run w = .ok (r, w')) : r = .error err ∧ w'.told o = w.told o := by
  simp only [Engine.afterTick, release, run_get_bind, run_modify_bind] at hr
  cases hr
  refine ⟨rfl, ?_⟩
  simp [World.told, acts_modifyInstance, acts_observe, acts_releaseTag, acts_report, Activity.told?]

/-- A clearing that is outstanding is told after a tick that returned a status. -/
theorem run_afterTick_ok (h : w.Held true o c) (ha : c.active = false) {status : Status} {r : Except RunError Status}
    (hr : (e.afterTick o (.ok status)).run w = .ok (r, w')) :
    ∃ status' w₁, (e.settleTick o status).run w = .ok (status', w₁) ∧ r = .ok status' ∧
      w'.told o = w₁.told o ++ if Activity.outstanding (w₁.acts o) then [(Lifecycle.cleaned.name, [])] else [] := by
  simp only [Engine.afterTick] at hr
  obtain ⟨status', w₁, hsettle, hr⟩ := (run_bind_eq_ok w).mp hr
  obtain ⟨d, hd, hstill, _⟩ := he.settleTick h ha status status' w₁ hsettle
  refine ⟨status', w₁, hsettle, ?_⟩
  rw [run_get_bind, hd.held.stands.clearRequested] at hr
  cases hdue : Activity.outstanding (w₁.acts o) with
  | true =>
    rw [hdue, if_pos rfl] at hr
    obtain ⟨_, w₂, hclear, hr⟩ := (run_bind_eq_ok w₁).mp hr
    cases hr
    exact ⟨rfl, he.told_clearNow hd.held hstill _ _ hclear⟩
  | false =>
    rw [hdue, if_neg Bool.false_ne_true] at hr
    cases hr
    exact ⟨rfl, (List.append_nil _).symm⟩

theorem run_afterTick (h : w.Held true o c) (ha : c.active = false) {result r : Except RunError Status}
    (hr : (e.afterTick o result).run w = .ok (r, w')) :
    ∃ late due, r = result.map (fun status => if c.asked then .failure else status) ∧
      w'.told o = w.told o ++ (Lifecycle.ofEnd result c.asked late due).map (fun p => (p.1.name, p.2)) ∧
      ∀ status, result = .ok status → e.Settled o status w c.asked late due := by
  cases result with
  | error err =>
    obtain ⟨rfl, htold⟩ := run_afterTick_error hr
    exact ⟨false, false, rfl, htold.trans (List.append_nil _).symm, nofun⟩
  | ok status =>
    obtain ⟨status', w₁, hsettle, rfl, htold⟩ := he.run_afterTick_ok h ha hr
    obtain ⟨hinterrupted, hfinished⟩ := he.run_settleTick h ha hsettle
    cases hasked : c.asked with
    | true =>
      obtain ⟨rfl, htold₁⟩ := hinterrupted hasked
      refine ⟨false, Activity.outstanding (w₁.acts o), rfl, ?_, ?_⟩
      · rw [htold, htold₁, List.append_assoc]
        cases Activity.outstanding (w₁.acts o) <;> rfl
      · rintro _ ⟨⟩
        exact ⟨nofun, _, w₁, hsettle, rfl⟩
    | false =>
      obtain ⟨rfl, w₂, acts, hfinish, hacts, hempty, htold₁⟩ := hfinished hasked
      refine ⟨acts.any Activity.isRequest, Activity.outstanding (w₁.acts o), rfl, ?_, ?_⟩
      · rw [htold, htold₁, List.append_assoc]
        cases status' <;> cases acts.any Activity.isRequest <;> cases Activity.outstanding (w₁.acts o) <;> rfl
      · rintro _ ⟨⟩
        exact ⟨fun _ => ⟨w₂, acts, hfinish, hacts, rfl, hempty⟩, _, w₁, hsettle, rfl⟩

end Civil

end Engine

/-- What a run tells of the life of an instance. The first part of it, with the tick, is `openRun`. If the tick failed,
no more is told than that the run began; else an interruption that was asked for by then is told next and makes the
run fail, or that the tick ended, and how; an interruption that is asked for until the waiting jobs have run is told
after that, and a clearing that is outstanding comes last. Who runs an instance that executes is refused, and tells
nothing. -/
theorem World.Coherent.run_protocol (hw : w.Coherent) (ho : o.index < w.nextTag) {r : Except RunError Status}
    (hr : ((Engine.ofDepth n).runTree o).run w = .ok (r, w')) :
    ((w.instanceOf o).executing = true → r = .error (.alreadyRunning (w.instanceOf o).tree.name) ∧ w' = w) ∧
    ((w.instanceOf o).executing = false → ∃ result w₁ acts acts' late due,
      ((Engine.ofDepth n).openRun o).run w = .ok (result, w₁) ∧
      w₁.acts o = w.acts o ++ acts ∧ w'.acts o = w₁.acts o ++ acts' ∧
      (acts ++ acts').filterMap Activity.told? =
        (Lifecycle.ofRun result (acts.any Activity.isRequest) late due).map (fun p => (p.1.name, p.2)) ∧
      (((acts ++ acts').filterMap Activity.told?).map (·.1)).Nodup ∧
      (∀ status, result = .ok status →
        (Engine.ofDepth n).Settled o status w₁ (acts.any Activity.isRequest) late due) ∧
      r = result.map (fun status => if acts.any Activity.isRequest then .failure else status)) := by
  simp only [Engine.runTree, run_get_bind] at hr
  constructor
  · intro hb
    rw [hb, if_pos rfl] at hr
    cases hr
    exact ⟨rfl, rfl⟩
  intro hb
  rw [hb, if_neg Bool.false_ne_true] at hr
  obtain ⟨c, hc⟩ := hw.stands o
  have he : (Engine.ofDepth n : Engine σ).Civil := Engine.civil_ofDepth n
  have h : w.Held false o c := ⟨hw, ho, hb, hc⟩
  have hstill := hc.here.still hb
  obtain ⟨result, w₁, hopen, hr⟩ := (run_bind_eq_ok w).mp hr
  obtain ⟨c₁, h₁, hactive⟩ := he.openRun h hstill.active result w₁ hopen
  have htold₁ := he.told_openRun h hstill.active result w₁ hopen
  obtain ⟨acts, hacts, hpath, hwithin⟩ := h₁.path
  have hearly : c₁.asked = acts.any Activity.isRequest := by
    rw [hpath.asked_eq fun a ha => (hwithin a ha).not_drops, hstill.asked, Bool.false_or]
  obtain ⟨_, hclose, _⟩ := he.closeRun h₁.held hactive result r w' hr
  obtain ⟨acts', hacts', _⟩ := hclose.path
  obtain ⟨r', w₂, hafter, hr⟩ := (run_bind_eq_ok w₁).mp hr
  cases hr
  obtain ⟨late, due, hr, htold, hsettled⟩ := he.run_afterTick h₁.held hactive hafter
  rw [hearly] at hr htold hsettled
  have hseen : w₂.told o = w.told o ++ (acts ++ acts').filterMap Activity.told? :=
    told_of_acts (hacts'.trans ((congrArg (· ++ acts') hacts).trans (List.append_assoc _ _ _)))
  have hevents : (acts ++ acts').filterMap Activity.told? =
      (Lifecycle.ofRun result (acts.any Activity.isRequest) late due).map (fun p => (p.1.name, p.2)) := by
    apply List.append_cancel_left (hseen.symm.trans _)
    rw [htold, htold₁, List.append_assoc]
    rfl
  refine ⟨result, w₁, acts, acts', late, due, hopen, hacts, hacts', hevents, ?_, hsettled, hr⟩
  rw [hevents, List.map_map]
  exact Lifecycle.nodup_ofRun _ _ _ _

/-- A host that interrupts an instance when it is told that a run has ended well. When it is told of the interruption,
it tries to run the instance and clears it. -/
def leaver : Program Unit :=
  .create hearer ∅ fun owner =>
    .subscribe ⟨Lifecycle.afterRunSuccess.name, some owner.text⟩ owner (fun _ => .interrupt owner .done) fun _ =>
      .subscribe ⟨Lifecycle.interrupted.name, some owner.text⟩ owner (fun _ => .run owner fun _ => .clear owner .done)
        fun _ => .done

theorem run_protocol_leaver : ∃ (w w' : World Unit) (r : Except RunError Status), w.Reached ∧
    ((Engine.ofDepth 4).runTree ⟨0⟩).run w = .ok (r, w') ∧ r.toOption = some .success ∧
      (w'.told ⟨0⟩).map (·.1) = ["before_run", "after_run", "after_run_success", "interrupted", "cleaned"] ∧
      ∃ acts, w'.acts ⟨0⟩ = w.acts ⟨0⟩ ++ acts ∧ ((acts.filterMap Activity.told?).map (·.1)).Nodup := by
  have hruns : (World.perform 1 leaver { registry := ∅, host := () }).toOption.any (fun w =>
      !(w.instanceOf ⟨0⟩).executing && 0 < w.nextTag &&
        (((Engine.ofDepth 4).runTree ⟨0⟩).run w).toOption.any fun r =>
          r.1.toOption == some .success && (r.2.told ⟨0⟩).map (·.1) ==
            ["before_run", "after_run", "after_run_success", "interrupted", "cleaned"]) = true := by
    decide +kernel
  obtain ⟨w, hw, hrun⟩ := exists_ok_of_any hruns
  have hreached : w.Reached := ⟨_, _, _, _, hw⟩
  rw [Bool.and_eq_true, Bool.and_eq_true, Bool.not_eq_true', decide_eq_true_eq] at hrun
  obtain ⟨⟨hb, ho⟩, hrun⟩ := hrun
  obtain ⟨⟨r, w'⟩, hr, htold⟩ := exists_ok_of_any hrun
  rw [Bool.and_eq_true, beq_iff_eq, beq_iff_eq] at htold
  obtain ⟨_, w₁, acts, acts', _, _, _, hacts, hacts', _, hnodup, _⟩ :=
    (hreached.continues.1.run_protocol (o := ⟨0⟩) ho hr).2 hb
  refine ⟨w, w', r, hreached, hr, htold.1, htold.2, acts ++ acts', ?_, hnodup⟩
  rw [hacts', hacts, List.append_assoc]

end BehaviorTree
