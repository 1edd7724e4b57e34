import BehaviorTree.Engine.Knot
import BehaviorTree.Proofs.World.Timetable

/-!
A program is followed as it is performed, and what happens to delays is written down: what it schedules, cancels and
releases, how each update begins and ends, and in between each delay that the update sets off, with all that happens to
delays while that acts. To be followed changes nothing.
-/

namespace BehaviorTree
set_option autoImplicit false

variable {σ : Type}

/-- How a program ends: with what happened to delays on the way there, and in which world. -/
abbrev Followed (σ : Type) := Except Halt (List (Happening (Alarm σ)) × World σ)

namespace Followed

/-- Something happens first. -/
def after (h : Happening (Alarm σ)) (x : Followed σ) : Followed σ := x.map fun r => (h :: r.1, r.2)

def andThen (x : Followed σ) (f : World σ → Followed σ) : Followed σ :=
  x.bind fun r => (f r.2).map fun s => (r.1 ++ s.1, s.2)

theorem after_eq_ok {h : Happening (Alarm σ)} {x : Followed σ} {log : List (Happening (Alarm σ))} {w : World σ}
    (hx : x.after h = .ok (log, w)) : ∃ rest, log = h :: rest ∧ x = .ok (rest, w) := by
  cases x with
  | error e => cases hx
  | ok r =>
    cases hx
    exact ⟨r.1, rfl, rfl⟩

end Followed

namespace Engine

def followDue (act : Alarm σ → World σ → Followed σ) : List (DelayId × Alarm σ) → World σ → Followed σ
  | [], w => .ok ([], w)
  | (id, a) :: due, w => .after (.fired id a) ((act a w).andThen (followDue act due))

/-- Follows a program as long as it does nothing but keep its own state and deal with tags, delays and the clock; `act`
follows what it sets off. -/
def follow (e : Engine σ) (act : Alarm σ → World σ → Followed σ) : Program σ → World σ → Followed σ
  | .done, w => .ok ([], w)
  | .look next, w => .after (.counted w.overview.delays) (e.follow act (next w.overview) w)
  | .store host next, w => e.follow act next { w with host }
  | .note v next, w => e.follow act next (w.record (.note v))
  | .newTag next, w => e.follow act (next w.newTag.1) w.newTag.2
  | .delay span tag callback next, w =>
    let (id, w') := w.delay span tag (.host callback)
    .after (.scheduled id (w.time + span) tag (.host callback)) (e.follow act (next id) w')
  | .cancel id next, w =>
    let (found, delays) := w.delays.cancel id
    .after (.cancelled id found) (e.follow act (next found) { w with delays })
  | .release tag next, w => .after (.released tag) (e.follow act next (w.releaseTag tag))
  | .update dt next, w =>
    let now := w.time + dt
    let (callbacks, delays) := w.delays.takeDue now
    let due := (w.delays.due now).zip callbacks
    .after (.began now) <| (followDue act due { w with time := now, delays }).andThen fun w =>
      .after .ended (e.follow act next w)
  | p, w => ((e.perform p).run w).map fun r => ([], r.2)

def followAlarm : Nat → Alarm σ → World σ → Followed σ
  | 0, _, _ => .error .tooDeep
  | n + 1, .host act, w => (ofDepth n).follow (followAlarm n) act w
  | n + 1, .job owner job, w => (((ofDepth n).schedule owner job).run w).map fun r => ([], r.2)

section Same

variable {α : Type} {x : Followed σ} {y : Except Halt (α × World σ)} {e : Engine σ}
  {act : Alarm σ → World σ → Followed σ}

theorem map_snd_after (h : Happening (Alarm σ)) (x : Followed σ) : (x.after h).map (·.2) = x.map (·.2) := by
  cases x with
  | error | ok => rfl

theorem map_snd_andThen {f : World σ → Followed σ} {g : α → World σ → Except Halt (α × World σ)}
    (h : x.map (·.2) = y.map (·.2)) (hfg : ∀ a w, (f w).map (·.2) = (g a w).map (·.2)) :
    (x.andThen f).map (·.2) = (y >>= fun r => g r.1 r.2).map (·.2) := by
  cases x with
  | error err =>
    cases y with
    | error err' => exact congrArg Except.error (Except.error.inj h)
    | ok r => cases h
  | ok r =>
    cases y with
    | error err => cases h
    | ok r' =>
      obtain ⟨log, w⟩ := r
      obtain ⟨a, w'⟩ := r'
      obtain rfl : w = w' := Except.ok.inj h
      refine Eq.trans ?_ (hfg a w)
      change ((f w).map fun s => (log ++ s.1, s.2)).map (·.2) = _
      cases f w with
      | error | ok => rfl

theorem map_snd_rest (y : Except Halt (α × World σ)) :
    (y.map fun r => (([] : List (Happening (Alarm σ))), r.2)).map (·.2) = y.map (·.2) := by
  cases y with
  | error | ok => rfl

theorem followDue_eq (hact : ∀ a w, (act a w).map (·.2) = ((e.alarm a).run w).map (·.2))
    (due : List (DelayId × Alarm σ)) (w : World σ) :
    (followDue act due w).map (·.2) = (((due.map (·.2)).forM e.alarm).run w).map (·.2) := by
  induction due generalizing w with
  | nil => rfl
  | cons first due ih =>
    obtain ⟨id, a⟩ := first
    exact (map_snd_after _ _).trans (map_snd_andThen (hact a w) fun _ w => ih w)

theorem follow_eq (hact : ∀ a w, (act a w).map (·.2) = ((e.alarm a).run w).map (·.2)) (p : Program σ) (w : World σ) :
    (e.follow act p w).map (·.2) = ((e.perform p).run w).map (·.2) := by
  induction p generalizing w with
  | done => rfl
  | look next ih => exact (map_snd_after _ _).trans (ih w.overview w)
  | store host next ih => exact ih { w with host }
  | note v next ih => exact ih (w.record (.note v))
  | newTag next ih => exact ih w.newTag.1 w.newTag.2
  | delay span tag callback next _ ih => exact (map_snd_after _ _).trans (ih _ _)
  | cancel id next ih => exact (map_snd_after _ _).trans (ih _ _)
  | release tag next ih => exact (map_snd_after _ _).trans (ih _)
  | update dt next ih =>
    have hall : ((w.delays.due (w.time + dt)).zip (w.delays.takeDue (w.time + dt)).1).map (·.2) =
        (w.delays.takeDue (w.time + dt)).1 := List.map_snd_zip (Nat.le_of_eq (Delays.length_takeDue w.delays _))
    have hdue := followDue_eq hact ((w.delays.due (w.time + dt)).zip (w.delays.takeDue (w.time + dt)).1)
      { w with time := w.time + dt, delays := (w.delays.takeDue (w.time + dt)).2 }
    rw [hall] at hdue
    exact (map_snd_after _ _).trans (map_snd_andThen hdue fun _ w => (map_snd_after _ _).trans (ih w))
  | _ => exact map_snd_rest _

end Same

end Engine

/-- Performs a program with calls nested up to a depth, and follows it. -/
def World.follow (depth : Nat) (p : Program σ) (w : World σ) : Followed σ :=
  (Engine.ofDepth depth).follow (Engine.followAlarm depth) p w

theorem Engine.followAlarm_eq (n : Nat) (a : Alarm σ) (w : World σ) :
    (followAlarm n a w).map (·.2) = (((ofDepth n).alarm a).run w).map (·.2) := by
  induction n generalizing a w with
  | zero => rfl
  | succ n ih =>
    cases a with
    | host act => exact follow_eq ih act w
    | job owner job => exact map_snd_rest _

/-- To be followed does not change what a program does. -/
theorem World.map_follow (depth : Nat) (p : Program σ) (w : World σ) :
    (World.follow depth p w).map (·.2) = World.perform depth p w := Engine.follow_eq (Engine.followAlarm_eq depth) p w

end BehaviorTree
