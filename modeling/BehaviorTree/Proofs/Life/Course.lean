import BehaviorTree.Proofs.World.Advance

/-!
The course of an instance's life, read off its journal. Ticks and jobs take turns with the state of the instance, and
what is told about the instance is told between them. Jobs start in the order in which they were queued. Once an
interruption is asked for, at most one of them still starts before all are dropped, and none if a tick or job was under
way or a run was about to begin.
-/

namespace BehaviorTree
set_option autoImplicit false

variable {σ : Type}

theorem Lifecycle.name_inj {l l' : Lifecycle} : l.name = l'.name ↔ l = l' := by
  cases l <;> cases l' <;> decide

structure Course where
  /-- A tick or job has the state of the instance. -/
  active : Bool := false
  /-- A run has been told to begin, and its tick has not. -/
  opening : Bool := false
  waiting : List Job := []
  /-- An interruption is asked for. -/
  asked : Bool := false
  /-- No job starts before all are dropped. -/
  closed : Bool := false
  /-- A clearing is asked for and has not been told. -/
  due : Bool := false

namespace Course

/-- Everything suspended is dropped, and with it what was waiting and the request for it. -/
def bare (c : Course) : Course := { c with opening := false, waiting := [], asked := false, closed := false }

def cleared (c : Course) : Course := { c with opening := false, asked := false, closed := false, due := false }

@[simp] theorem closed_bare (c : Course) : c.bare.closed = false := rfl

@[simp] theorem closed_cleared (c : Course) : c.cleared.closed = false := rfl

/-- Nothing is under way, and nothing is asked for but a clearing. -/
structure Still (c : Course) : Prop where
  active : c.active = false
  waiting : c.waiting = []
  asked : c.asked = false
  closed : c.closed = false

theorem Still.cleared {c : Course} (h : c.Still) : c.cleared.Still := ⟨h.active, h.waiting, rfl, rfl⟩

theorem still_bare {c : Course} (h : c.active = false) : c.bare.Still := ⟨h, rfl, rfl, rfl⟩

/-- What an instance may be seen to do, and where it stands then. -/
inductive Next : Course → Activity → Course → Prop where
  | queued (c : Course) (job : Job) : Next c (.queued job) { c with waiting := c.waiting ++ [job] }
  | requested (c : Course) (clear : Bool) :
      Next c (.requested clear)
        { c with asked := true, closed := c.closed || c.active || c.opening, due := c.due || clear }
  | assigned (c : Course) (name : String) (value : Option Value) : Next c (.assigned name value) c
  | cleaned {c : Course} (args : List Value) (h : c.active = false) :
      Next c (.announced Lifecycle.cleaned.name args) c.cleared
  | announced {c : Course} {event : String} (args : List Value) (h : c.active = false)
      (he : event ≠ Lifecycle.cleaned.name) :
      Next c (.announced event args) { c with opening := event == Lifecycle.beforeRun.name }
  | entered {c : Course} (h : c.active = false) : Next c .entered { c with active := true, opening := false }
  | started {c : Course} {job : Job} {rest : List Job} (h : c.active = true) (hw : c.waiting = job :: rest)
      (hc : c.closed = false) : Next c (.started job) { c with waiting := rest, closed := c.asked }
  | called {c : Course} (id : NodeId) (resumed : Bool) (h : c.active = true) : Next c (.called id resumed) c
  | returned {c : Course} (id : NodeId) (status : Option Status) (h : c.active = true) :
      Next c (.returned id status) c
  | left {c : Course} (h : c.active = true) : Next c .left { c with active := false }
  | unwound {c : Course} (h : c.active = false) : Next c .unwound c.bare

/-- What an instance may be seen to do, one thing after the other. -/
inductive Path : Course → List Activity → Course → Prop where
  | nil (c : Course) : Path c [] c
  | cons {c d f : Course} {a : Activity} {acts : List Activity} : Next c a d → Path d acts f → Path c (a :: acts) f

variable {c d f : Course} {a : Activity} {acts acts' pre post : List Activity}

theorem Path.single (h : Next c a d) : Path c [a] d := .cons h (.nil d)

theorem Path.append (h : Path c acts d) (h' : Path d acts' f) : Path c (acts ++ acts') f := by
  induction h with
  | nil => exact h'
  | cons hn _ ih => exact .cons hn (ih h')

theorem Path.split (h : Path c (pre ++ post) f) : ∃ d, Path c pre d ∧ Path d post f := by
  induction pre generalizing c with
  | nil => exact ⟨c, .nil c, h⟩
  | cons a pre ih =>
    cases h with
    | cons hn hp =>
      obtain ⟨d, hd, hf⟩ := ih hp
      exact ⟨d, .cons hn hd, hf⟩

/-- While others act an instance neither begins nor ends anything, and between its ticks and jobs they do not close the
queue. -/
theorem Next.quiet {mine : Bool} (h : Next c a d) (hq : a.Quiet mine) :
    d.active = c.active ∧ d.opening = c.opening ∧
      (c.active = false → c.opening = false → d.closed = c.closed) := by
  cases h with
  | queued | assigned | called | returned => exact ⟨rfl, rfl, fun _ _ => rfl⟩
  | requested =>
    refine ⟨rfl, rfl, fun ha ho => ?_⟩
    simp only [ha, ho, Bool.or_false]
  | cleaned | announced | entered | started | left | unwound => exact hq.elim

theorem Path.quiet {mine : Bool} (h : Path c acts d) (hq : ∀ a ∈ acts, a.Quiet mine) :
    d.active = c.active ∧ d.opening = c.opening ∧
      (c.active = false → c.opening = false → d.closed = c.closed) := by
  induction h with
  | nil => exact ⟨rfl, rfl, fun _ _ => rfl⟩
  | cons hn _ ih =>
    obtain ⟨ha, ho, hc⟩ := hn.quiet (hq _ List.mem_cons_self)
    obtain ⟨ha', ho', hc'⟩ := ih fun a ha => hq a (List.mem_cons_of_mem _ ha)
    refine ⟨ha'.trans ha, ho'.trans ho, fun h₁ h₂ => ?_⟩
    rw [hc' (ha.trans h₁) (ho.trans h₂), hc h₁ h₂]

/-- A clearing is due only if it was asked for. -/
theorem Path.not_due (h : Path c acts d) (hc : c.due = false) (ha : acts.any Activity.isClear = false) :
    d.due = false := by
  induction h with
  | nil => exact hc
  | cons hn _ ih =>
    rw [List.any_cons, Bool.or_eq_false_iff] at ha
    refine ih ?_ ha.2
    cases hn with
    | requested clear =>
      have hclear : clear = false := ha.1
      rw [hc, hclear, Bool.or_false]
    | cleaned => rfl
    | _ => exact hc

/-- A clearing that was asked for is due until it is told. -/
theorem Path.due (h : Path c acts d) (hd : d.due = false) (hc : c.due = true ∨ acts.any Activity.isClear = true) :
    ∃ pre args post, acts = pre ++ .announced Lifecycle.cleaned.name args :: post ∧
      post.any Activity.isClear = false := by
  induction h with
  | nil c =>
    rw [hd] at hc
    simp at hc
  | @cons c e f a acts hn _ ih =>
    by_cases hlater : e.due = true ∨ acts.any Activity.isClear = true
    · obtain ⟨pre, args, post, rfl, hpost⟩ := ih hd hlater
      exact ⟨a :: pre, args, post, rfl, hpost⟩
    · rw [not_or, Bool.not_eq_true, Bool.not_eq_true] at hlater
      obtain ⟨he, hacts⟩ := hlater
      cases hn with
      | cleaned args => exact ⟨[], args, acts, rfl, hacts⟩
      | requested clear =>
        have hclear : clear = true := by
          rcases hc with hc | hc
          · rw [hc] at he
            simp at he
          · rw [List.any_cons, hacts, Bool.or_false] at hc
            exact hc
        rw [hclear, Bool.or_true] at he
        cases he
      | _ =>
        rcases hc with hc | hc
        · exact absurd (hc.symm.trans he) (by decide)
        · rw [List.any_cons, hacts, Bool.or_false] at hc
          cases hc

end Course

end BehaviorTree
