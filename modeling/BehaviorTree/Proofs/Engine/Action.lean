import BehaviorTree.Proofs.Engine.Contract

/-!
Nodes without children under way, and those that put their child off: they leave the stacks alone, and the payloads
but for their own.
-/

namespace BehaviorTree
set_option autoImplicit false

variable {σ : Type}

/-- The errors that a tick may return. A watchdog has a guard that is still running, a case stands outside of a
switch, or a leaf does not take a payload that it may have saved. -/
inductive Tree.Blames (t : Tree) : RunError → Prop where
  | guard {id : NodeId} {n : Node} : t.get? id = some n → n.behavior = .watchdog →
      Blames t (.unexpectedStatus t.name n.name n.id .running)
  | misplaced {id : NodeId} {n : Node} : t.get? id = some n → n.behavior = .case →
      (∀ a m, t.get? a = some m → m.behavior = .switch → id ∉ m.children) →
      Blames t (.misplaced t.name n.name n.id "Switch")
  | rejected {id : NodeId} {n : Node} {react : Leaf} {m : Moment} : t.get? id = some n → n.behavior = .leaf react →
      (∀ p, m.payload = some p → react.Saves p) → (react m).ending = .reject →
      Blames t (.unexpectedPayload t.name n.name n.id)

/-- How a node that runs no other node ends: it leaves the stacks and payloads alone, or saves a payload. -/
inductive Tick.Acts (R : Rules σ) (c : Activation) (n : Node) (t : Tick σ) (status : Status) (t' : Tick σ) : Prop where
  | done : t.Calm R c t' → (status = .running → n.Saves .marker) → Acts R c n t status t'
  | suspended {u : Tick σ} {p : Payload} : t.Calm R c u → status = .running → n.Saves p → p.nested = [] →
      t' = { u with env := u.env.setPayload n.id p } → Acts R c n t status t'

def Behavior.IsAction : Behavior → Prop
  | delay .. | wait _ | listen _ | dispatch _ | check _ | calculate _ | copy | isNull | notNull | log .. | now
  | leaf _ => True
  | _ => False

namespace Engine

open TickM

variable {R : Rules σ} {c : Activation} {t t' : Tick σ} {e : Engine σ} {n : Node} {site : Site}

def Calms {α : Type} (R : Rules σ) (c : Activation) (t : Tick σ) (m : TickM σ α) (P : α → Prop) : Prop :=
  ∀ t', t.Calm R c t' → (m c t').Meets (fun a t'' => t.Calm R c t'' ∧ P a) fun _ _ => False

theorem calms_evaluate (expr : Expression) : Calms R c t (evaluate site expr) fun _ => True := by
  intro t' h
  simp only [evaluate, meets_bind, meets_env]
  cases expr.evaluate t'.env.get? with
  | ok v => exact ⟨h, trivial⟩
  | error error => exact ⟨h.report _, trivial⟩

theorem calms_check (expr : Expression) : Calms R c t (check site expr) (· ≠ .running) := by
  intro t' h
  rw [check, meets_bind]
  refine (calms_evaluate expr t' h).mono ?_ fun _ _ hf => hf
  rintro v t' ⟨h, _⟩
  cases v with
  | none => exact ⟨h, by simp⟩
  | some v => exact ⟨h, by split <;> simp⟩

theorem calms_calculate (expr : Expression) : Calms R c t (calculate site expr) (· ≠ .running) := by
  intro t' h
  rw [calculate, meets_bind]
  refine (calms_evaluate expr t' h).mono ?_ fun _ _ hf => hf
  rintro v t' ⟨h, _⟩
  cases v with
  | none => exact ⟨h, by simp⟩
  | some v => exact ⟨h.pushOutput _, by simp⟩

theorem calms_copy : Calms R c t (copy site) (· ≠ .running) := by
  intro t' h
  exact ⟨h.pushOutput _, by simp⟩

theorem calms_inputIsNull : Calms R c t (inputIsNull (σ := σ)) fun _ => True := by
  intro t' h
  simp only [inputIsNull, meets_bind, meets_env]
  cases t'.env.input? 0 with
  | none => exact ⟨h, trivial⟩
  | some v => cases v <;> exact ⟨h, trivial⟩

theorem calms_isNull : Calms R c t isNull (· ≠ .running) := by
  intro t' h
  rw [isNull, meets_bind]
  refine (calms_inputIsNull t' h).mono ?_ fun _ _ hf => hf
  rintro b t' ⟨h, _⟩
  exact ⟨h, by cases b <;> simp⟩

theorem calms_notNull : Calms R c t notNull (· ≠ .running) := by
  intro t' h
  rw [notNull, meets_bind]
  refine (calms_inputIsNull t' h).mono ?_ fun _ _ hf => hf
  rintro b t' ⟨h, _⟩
  exact ⟨h, by cases b <;> simp⟩

theorem calms_log (level : Level) (text : String) : Calms R c t (log site level text) (· ≠ .running) := by
  intro t' h
  exact ⟨h.report _, by simp⟩

theorem calms_now : Calms R c t now (· ≠ .running) := by
  intro t' h
  exact ⟨h.pushOutput _, by simp⟩

theorem calms_target? (slot : Nat) : Calms R c t (target? site slot) fun _ => True := by
  intro t' h
  simp only [target?, meets_bind, meets_env]
  cases t'.env.input? slot with
  | none => exact ⟨h, trivial⟩
  | some v =>
    cases v
    case string => exact ⟨h, trivial⟩
    all_goals exact ⟨h.report _, trivial⟩

theorem calms_putOff {span : Float} {cache : List String} (hn : c.tree.get? n.id = some n)
    (hb : n.behavior = .delay span cache) : Calms R c t (putOff n.toSite span cache) (· ≠ .running) := by
  intro t' h
  obtain ⟨i, hi, _, ht⟩ := h.runs.here
  have hsup := h.runs.orderly.supplied hn
  rw [hb] at hsup
  have hchild : n.children[0]? = some n.children[0] := List.getElem?_eq_getElem hsup
  simp only [putOff, meets_bind, meets_owner, meets_env, meets_child hchild, meets_modifyWorld]
  refine ⟨h.world (h.runs.good.delay span ?_) (.of_eq (fun _ => rfl) rfl), by simp⟩
  refine ⟨rfl, i, hi, fun _ => ?_⟩
  rw [ht]
  exact ⟨n.id, n, span, cache, hn, hb, hchild⟩

theorem calms_startListening {event : String} (target : Option String) (hn : c.tree.get? n.id = some n)
    (hb : n.behavior = .listen event) :
    Calms R c t (startListening n.toSite event target) (· ≠ .running) := by
  intro t' h
  obtain ⟨i, hi, _, ht⟩ := h.runs.here
  have hsup := h.runs.orderly.supplied hn
  rw [hb] at hsup
  have hchild : n.children[0]? = some n.children[0] := List.getElem?_eq_getElem hsup
  simp only [startListening, meets_bind, meets_owner, meets_child hchild, meets_modifyWorld, meets_modifyEnv,
    meets_report]
  have hcalm : t.Calm R c { t' with
      world := (t'.world.subscribe ⟨event, target⟩ c.owner (.node c.owner n.id n.children[0])).2 } := by
    refine h.world (h.runs.good.subscribe _ ?_) (.of_eq (fun _ => rfl) rfl)
    refine ⟨rfl, i, hi, fun _ => ?_⟩
    rw [ht]
    exact ⟨n, event, hn, hb, hchild⟩
  have hlisten : t.Calm R c { t' with
      env := { t'.env with listening := t'.env.listening.insert n.id }
      world := (t'.world.subscribe ⟨event, target⟩ c.owner (.node c.owner n.id n.children[0])).2 } :=
    hcalm.env rfl rfl rfl rfl
  exact ⟨hlisten.report _, by simp⟩

theorem calms_listen {event : String} (hn : c.tree.get? n.id = some n) (hb : n.behavior = .listen event) :
    Calms R c t (listen n.toSite event) (· ≠ .running) := by
  intro t' h
  rw [listen, meets_bind, meets_env]
  split
  · exact ⟨h, by simp⟩
  · split
    · rw [meets_bind, meets_owner]
      exact calms_startListening _ hn hb t' h
    · rw [meets_bind]
      refine (calms_target? 0 t' h).mono ?_ fun _ _ hf => hf
      rintro target t' ⟨h, _⟩
      cases target with
      | none => exact ⟨h, by simp⟩
      | some target => exact calms_startListening target hn hb t' h

theorem calms_dispatchNode (he : e.Honors R) (event : String) :
    Calms R c t (e.dispatchNode site event) (· ≠ .running) := by
  intro t' h
  rw [dispatchNode, meets_bind]
  refine (calms_target? 0 t' h).mono ?_ fun _ _ hf => hf
  rintro target t' ⟨h, _⟩
  cases target with
  | none => exact ⟨h, by simp⟩
  | some target =>
    simp only [meets_bind, meets_env, meets_onWorld]
    refine (he.dispatch h.runs.good _ _).mono ?_
    rintro heard w' ⟨hg, hw⟩
    have hcalm := h.world hg hw
    split
    · exact ⟨hcalm.report _, by simp⟩
    · exact ⟨hcalm, by simp⟩

theorem acts_waitUntil {span : Float} (hb : n.behavior = .wait span) (expiry : Float) (h : t.Runs R c) :
    (waitUntil n.toSite expiry c t).Meets (fun st t' => t.Acts R c n st t') fun _ _ => False := by
  rw [waitUntil, meets_bind, meets_time]
  split
  · exact .done (.refl h) (by simp)
  · exact .suspended (.refl h) rfl (by simp [Node.Saves, hb]) rfl rfl

def Admits (c : Activation) (n : Node) (t : Tick σ) (err : RunError) : Prop :=
  (∀ p, t.env.temps[n.id]? = some p → n.Saves p) → c.tree.Blames err

theorem acts_wait {span : Float} (hb : n.behavior = .wait span) (h : t.Runs R c) :
    (wait n.toSite span c t).Meets (fun st t' => t.Acts R c n st t')
      fun err t' => Admits c n t err ∧ t.Calm R c t' := by
  have huntil : ∀ expiry, (waitUntil n.toSite expiry c t).Meets (fun st t' => t.Acts R c n st t')
      fun err t' => Admits c n t err ∧ t.Calm R c t' := fun expiry =>
    (acts_waitUntil hb expiry h).mono (fun _ _ h => h) fun _ _ hf => hf.elim
  rw [wait, meets_bind, meets_saved?]
  cases hs : t.env.temps[n.id]? with
  | none =>
    simp only [meets_bind, meets_env]
    cases t.env.input? 0 with
    | none =>
      rw [meets_bind, meets_time]
      exact huntil _
    | some v =>
      cases hv : v.asFloat? with
      | none =>
        simp only [hv]
        exact .done ((Tick.Calm.refl h).report _) (by simp)
      | some span =>
        simp only [hv, meets_bind, meets_time]
        exact huntil _
  | some p =>
    cases p
    case wakeAt expiry => exact huntil expiry
    all_goals exact ⟨fun hall => absurd (hall _ hs) (by simp [Node.Saves, hb]), .refl h⟩

theorem acts_leaf {react : Leaf} (hn : c.tree.get? n.id = some n) (hb : n.behavior = .leaf react) (h : t.Runs R c) :
    (leaf n.toSite react c t).Meets (fun st t' => t.Acts R c n st t')
      fun err t' => Admits c n t err ∧ t.Calm R c t' := by
  have hsaves : ∀ p, n.Saves p ↔ react.Saves p := by simp [Node.Saves, hb]
  simp only [leaf, meets_bind, meets_env, meets_time, meets_modifyEnv]
  generalize hm : (⟨t.env.vars, t.env.temps[n.id]?, t.env.input, t.world.time⟩ : Moment) = m
  have hcalm := ((Tick.Calm.refl h).writes (react m).writes).pushOutputs (react m).outputs
  have hend : ∀ u, t.Calm R c u → (settle n.toSite (react m).ending c u).Meets (fun st t' => t.Acts R c n st t')
      fun err t' => Admits c n t err ∧ t.Calm R c t' := by
    intro u hu
    rw [settle.eq_def]
    cases he : (react m).ending with
    | finish status =>
      refine .done hu fun hr => (hsaves .marker).mpr ⟨m, .inr ?_⟩
      rw [he, hr]
    | suspend memo =>
      cases memo with
      | none => exact .suspended hu rfl ((hsaves .marker).mpr ⟨m, .inl he⟩) rfl rfl
      | some v => exact .suspended hu rfl ((hsaves (.value v)).mpr ⟨m, he⟩) rfl rfl
    | reject =>
      refine ⟨fun hall => .rejected hn hb ?_ he, hu⟩
      subst hm
      exact fun p hp => (hsaves p).mp (hall p hp)
  split
  · rw [meets_bind, meets_interrupt]
    exact hend _ hcalm.interrupt
  · exact hend _ hcalm

/-- A node that runs no other node leaves the stacks alone, and payloads but for its own. -/
theorem acts_behave (he : e.Honors R) (ha : n.behavior.IsAction) (hn : c.tree.get? n.id = some n)
    (h : t.Runs R c) :
    (e.behave n.toSite n.behavior c t).Meets (fun st t' => t.Acts R c n st t')
      fun err t' => Admits c n t err ∧ t.Calm R c t' := by
  have hcalms : ∀ {m : TickM σ Status}, Calms R c t m (· ≠ .running) →
      (m c t).Meets (fun st t' => t.Acts R c n st t') fun err t' => Admits c n t err ∧ t.Calm R c t' := by
    intro m hm
    refine (hm t (.refl h)).mono ?_ fun _ _ hf => hf.elim
    rintro st t' ⟨hcalm, hst⟩
    exact .done hcalm fun hr => absurd hr hst
  cases hb : n.behavior <;> simp only [hb, Behavior.IsAction] at ha
  case delay => exact hcalms (calms_putOff hn hb)
  case wait => exact acts_wait hb h
  case listen => exact hcalms (calms_listen hn hb)
  case dispatch => exact hcalms (calms_dispatchNode he _)
  case check => exact hcalms (calms_check _)
  case calculate => exact hcalms (calms_calculate _)
  case copy => exact hcalms calms_copy
  case isNull => exact hcalms calms_isNull
  case notNull => exact hcalms calms_notNull
  case log => exact hcalms (calms_log _ _)
  case now => exact hcalms calms_now
  case leaf => exact acts_leaf hn hb h

end Engine

end BehaviorTree
