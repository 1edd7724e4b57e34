import BehaviorTree.Engine.Knot

/-!
How computations end. A computation of a tick meets a description of its results and one of its failures if it ends
in one of these ways, or calls nest too deep; it never asks for a child, branch or element that is not there, unless
more ways to halt are accepted. The same for computations on a world, which do not fail. The rules follow the way in
which computations are put together.
-/

namespace BehaviorTree
set_option autoImplicit false

variable {σ α β : Type}

theorem exists_ok_of_any {ε β : Type} {r : Except ε β} {test : β → Bool} (h : r.toOption.any test = true) :
    ∃ b, r = .ok b ∧ test b = true := by
  cases r with
  | error e => cases h
  | ok b => exact ⟨b, rfl, h⟩

def Outcome.Meets (o : Outcome σ α) (Q : α → Tick σ → Prop) (E : RunError → Tick σ → Prop)
    (H : Halt → Prop := fun h => h = .tooDeep) : Prop :=
  match o with
  | .ok a t => Q a t
  | .failed e t => E e t
  | .halted h => H h

def World.After (w : World σ) (m : WorldM σ α) (Q : α → World σ → Prop) : Prop :=
  match m.run w with
  | .ok (a, w) => Q a w
  | .error h => h = .tooDeep

namespace Outcome.Meets

variable {o : Outcome σ α} {Q Q' : α → Tick σ → Prop} {E E' : RunError → Tick σ → Prop} {H H' : Halt → Prop}

theorem mono (h : o.Meets Q E H) (hq : ∀ a t, Q a t → Q' a t) (he : ∀ e t, E e t → E' e t) : o.Meets Q' E' H := by
  cases o with
  | ok a t => exact hq a t h
  | failed e t => exact he e t h
  | halted _ => exact h

theorem halts (h : o.Meets Q E H) (hh : ∀ halt, H halt → H' halt) : o.Meets Q E H' := by
  cases o with
  | ok _ _ => exact h
  | failed _ _ => exact h
  | halted halt => exact hh halt h

/-- Of two descriptions that are met, the second says how the computation halts. -/
theorem and (h : o.Meets Q E H) (h' : o.Meets Q' E' H') :
    o.Meets (fun a t => Q a t ∧ Q' a t) (fun e t => E e t ∧ E' e t) H' := by
  cases o with
  | ok a t => exact ⟨h, h'⟩
  | failed e t => exact ⟨h, h'⟩
  | halted _ => exact h'

end Outcome.Meets

namespace World.After

variable {w : World σ} {m : WorldM σ α} {Q Q' : α → World σ → Prop}

theorem mono (h : w.After m Q) (hq : ∀ a w, Q a w → Q' a w) : w.After m Q' := by
  unfold World.After at *
  split at h
  · exact hq _ _ h
  · exact h

end World.After

section Worlds

variable {w : World σ} {Q : α → World σ → Prop}

@[simp] theorem after_pure (a : α) : w.After (pure a) Q ↔ Q a w := Iff.rfl

@[simp] theorem after_bind (m : WorldM σ β) (f : β → WorldM σ α) :
    w.After (m >>= f) Q ↔ w.After m fun b w => w.After (f b) Q := by
  simp only [World.After, StateT.run_bind]
  cases h : m.run w with
  | ok r => rfl
  | error e => rfl

@[simp] theorem after_map (m : WorldM σ β) (f : β → α) : w.After (f <$> m) Q ↔ w.After m fun b w => Q (f b) w := by
  rw [map_eq_pure_bind, after_bind]
  rfl

@[simp] theorem after_get (Q : World σ → World σ → Prop) : w.After get Q ↔ Q w w := Iff.rfl

@[simp] theorem after_set (w' : World σ) (Q : PUnit → World σ → Prop) : w.After (set w') Q ↔ Q ⟨⟩ w' := Iff.rfl

@[simp] theorem after_modify (f : World σ → World σ) (Q : PUnit → World σ → Prop) :
    w.After (modify f) Q ↔ Q ⟨⟩ (f w) := Iff.rfl

@[simp] theorem after_apply (f : World σ → α × World σ) :
    w.After (Engine.apply f) Q ↔ Q (f w).1 (f w).2 := Iff.rfl

/-- A loop over a list keeps what each of its rounds keeps. -/
theorem after_forM {f : β → WorldM σ PUnit} {P : World σ → Prop} {xs : List β} (hw : P w)
    (hf : ∀ x ∈ xs, ∀ w, P w → w.After (f x) fun _ w => P w) : w.After (xs.forM f) fun _ w => P w := by
  induction xs generalizing w with
  | nil => exact hw
  | cons x xs ih =>
    change w.After (f x >>= fun _ => xs.forM f) _
    rw [after_bind]
    refine (hf x List.mem_cons_self w hw).mono ?_
    intro _ w hw
    exact ih hw fun y hy => hf y (List.mem_cons_of_mem _ hy)

end Worlds

namespace TickM

variable {c : Activation} {t : Tick σ} {Q : α → Tick σ → Prop} {E : RunError → Tick σ → Prop}
  {H : Halt → Prop}

@[simp] theorem meets_pure (a : α) : ((pure a : TickM σ α) c t).Meets Q E H ↔ Q a t := Iff.rfl

@[simp] theorem meets_bind (m : TickM σ β) (f : β → TickM σ α) :
    ((m >>= f) c t).Meets Q E H ↔ (m c t).Meets (fun b t => (f b c t).Meets Q E H) E H := by
  rw [bind_apply]
  cases m c t <;> rfl

@[simp] theorem meets_map (m : TickM σ β) (f : β → α) :
    ((f <$> m) c t).Meets Q E H ↔ (m c t).Meets (fun b t => Q (f b) t) E H := by
  rw [map_eq_pure_bind, meets_bind]
  rfl

@[simp] theorem meets_fail (e : RunError) : ((fail e : TickM σ α) c t).Meets Q E H ↔ E e t := Iff.rfl

@[simp] theorem meets_halt (h : Halt) : ((halt h : TickM σ α) c t).Meets Q E H ↔ H h := Iff.rfl

@[simp] theorem meets_ok (a : α) : (Outcome.ok a t).Meets Q E H ↔ Q a t := Iff.rfl

@[simp] theorem meets_attempt (m : TickM σ α) (Q : Except RunError α → Tick σ → Prop) :
    (attempt m c t).Meets Q E H ↔ (m c t).Meets (fun a t => Q (.ok a) t) (fun e t => Q (.error e) t) H := by
  rw [attempt_apply]
  cases m c t <;> rfl

@[simp] theorem meets_ofExcept_ok (a : α) : ((ofExcept (.ok a) : TickM σ α) c t).Meets Q E H ↔ Q a t := Iff.rfl

@[simp] theorem meets_ofExcept_error (e : RunError) :
    ((ofExcept (.error e) : TickM σ α) c t).Meets Q E H ↔ E e t := Iff.rfl

@[simp] theorem meets_owner (Q : Tag → Tick σ → Prop) : (owner c t).Meets Q E H ↔ Q c.owner t := Iff.rfl

@[simp] theorem meets_tree (Q : Tree → Tick σ → Prop) : (tree c t).Meets Q E H ↔ Q c.tree t := Iff.rfl

@[simp] theorem meets_env (Q : Env → Tick σ → Prop) : (env c t).Meets Q E H ↔ Q t.env t := Iff.rfl

@[simp] theorem meets_world (Q : World σ → Tick σ → Prop) : (world c t).Meets Q E H ↔ Q t.world t := Iff.rfl

@[simp] theorem meets_modifyEnv (f : Env → Env) (Q : Unit → Tick σ → Prop) :
    (modifyEnv f c t).Meets Q E H ↔ Q () { t with env := f t.env } := Iff.rfl

@[simp] theorem meets_modifyWorld (f : World σ → World σ) (Q : Unit → Tick σ → Prop) :
    (modifyWorld f c t).Meets Q E H ↔ Q () { t with world := f t.world } := Iff.rfl

@[simp] theorem meets_onWorld (m : WorldM σ α) :
    (onWorld m c t).Meets Q E ↔ t.world.After m fun a world => Q a { t with world } := by
  simp only [World.After, onWorld]
  cases m.run t.world with
  | ok r => rfl
  | error h => rfl

@[simp] theorem meets_report (r : String → Report) (Q : Unit → Tick σ → Prop) :
    (report r c t).Meets Q E H ↔ Q () { t with world := t.world.report (r c.tree.name) } := Iff.rfl

@[simp] theorem meets_observe (a : Activity) (Q : Unit → Tick σ → Prop) :
    (observe a c t).Meets Q E H ↔ Q () { t with world := t.world.observe c.owner a } := Iff.rfl

@[simp] theorem meets_time (Q : Float → Tick σ → Prop) : (time c t).Meets Q E H ↔ Q t.world.time t := Iff.rfl

@[simp] theorem meets_interrupted (Q : Bool → Tick σ → Prop) :
    (interrupted c t).Meets Q E H ↔ Q (t.world.instanceOf c.owner).interrupted t := Iff.rfl

@[simp] theorem meets_interrupt (Q : Unit → Tick σ → Prop) :
    (interrupt c t).Meets Q E H ↔
      Q () { t with
        world := (t.world.observe c.owner (.requested false)).modifyInstance c.owner fun i =>
          { i with interrupted := true } } := Iff.rfl

@[simp] theorem meets_saved? (site : Site) (Q : Option Payload → Tick σ → Prop) :
    (saved? site c t).Meets Q E H ↔ Q t.env.temps[site.id]? t := Iff.rfl

@[simp] theorem meets_suspend (site : Site) (p : Payload) (Q : Status → Tick σ → Prop) :
    (suspend site p c t).Meets Q E H ↔ Q .running { t with env := t.env.setPayload site.id p } := Iff.rfl

@[simp] theorem meets_rejectPayload (site : Site) :
    ((rejectPayload site : TickM σ α) c t).Meets Q E H ↔
      E (.unexpectedPayload c.tree.name site.name site.id) t := Iff.rfl

@[simp] theorem meets_rejectStatus (site : Site) (status : Status) :
    ((rejectStatus site status : TickM σ α) c t).Meets Q E H ↔
      E (.unexpectedStatus c.tree.name site.name site.id status) t := Iff.rfl

@[simp] theorem meets_abandon (saved : Stack) (Q : Unit → Tick σ → Prop) :
    (abandon saved c t).Meets Q E H ↔ Q () { t with env := t.env.abandon saved } := Iff.rfl

theorem meets_element {items : List α} {i : Nat} {a : α} (h : items[i]? = some a) :
    ((element items i : TickM σ α) c t).Meets Q E H ↔ Q a t := by
  rw [element, h]
  rfl

theorem meets_child {site : Site} {i : Nat} {a : NodeId} {Q : NodeId → Tick σ → Prop}
    (h : site.children[i]? = some a) : (child site i c t).Meets Q E H ↔ Q a t := meets_element h

theorem meets_childStatus {site : Site} {Q : Status → Tick σ → Prop} (h : t.env.lastStatus ≠ .running) :
    (childStatus site c t).Meets Q E H ↔ Q t.env.lastStatus t := by
  rw [childStatus, meets_bind, meets_env]
  cases hs : t.env.lastStatus <;> simp_all

theorem meets_node {id : NodeId} {n : Node} {Q : Node → Tick σ → Prop} (h : c.tree.get? id = some n) :
    (node id c t).Meets Q E H ↔ Q n t := by
  rw [node, meets_bind, meets_tree, h]
  rfl

theorem bind_node {id : NodeId} {n : Node} (h : c.tree.get? id = some n) (f : Node → TickM σ α) :
    (node id >>= f) c t = f n c t := by
  rw [bind_apply, node, bind_apply, tree]
  simp only [h, pure_apply]

theorem bind_child {site : Site} {i : Nat} {k : NodeId} (h : site.children[i]? = some k) (f : NodeId → TickM σ α) :
    (child site i >>= f) c t = f k c t := by
  rw [child, element, h]
  rfl

theorem bind_saved (site : Site) (f : Option Payload → TickM σ α) :
    (saved? site >>= f) c t = f t.env.temps[site.id]? c t := rfl

end TickM

namespace Tick

def opened (t : Tick σ) (c : Activation) (n : Node) (resumed : Bool) : Tick σ where
  env := { t.env with input := n.input.map t.env.get?, output := [] }
  world := t.world.observe c.owner (.called n.id resumed)

def pushed (t : Tick σ) (id : NodeId) : Tick σ := { t with env := { t.env with stack := t.env.stack.push id } }

end Tick

/-- What the process of a node finds: its frame, the values bound to its inputs now, and no outputs. -/
def Node.entered (n : Node) (c : Activation) (t : Tick σ) : Tick σ :=
  (if t.env.isSuspended n.id then t else t.pushed n.id).opened c n (t.env.isSuspended n.id)

theorem Node.entered_temps (n : Node) (c : Activation) (t : Tick σ) : (n.entered c t).env.temps = t.env.temps := by
  unfold Node.entered
  split <;> rfl

namespace Engine

/-- What is left of a run of a node whose behavior has come to an end: the node has its caller's slots again, and its
result counts. -/
def closeNode (n : Node) (resumed : Bool) (before : Env) (result : Except RunError Status) : TickM σ Status := do
  let output := (← TickM.env).output
  TickM.modifyEnv fun env => { env with input := before.input, output := before.output }
  TickM.observe (.returned n.id result.toOption)
  let status ← TickM.ofExcept result
  if ← TickM.interrupted then return .running
  else
    if n.debug then TickM.report fun tree => .nodeRun tree n.id n.name status resumed
    conclude n status output

theorem runFramed_eq (e : Engine σ) (n : Node) (resumed : Bool) (c : Activation) (t : Tick σ) :
    e.runFramed n resumed c t =
      (TickM.attempt (e.behave n.toSite n.behavior) >>= closeNode n resumed t.env) c (t.opened c n resumed) := by
  simp only [runFramed, withSlots, bind_assoc, pure_bind]
  rfl

/-- Once a process has given a result, a report of the run may still be added to what is seen of it. -/
theorem closeNode_ok (n : Node) (resumed : Bool) (before : Env) (status : Status) (c : Activation) (u : Tick σ) :
    ∃ w, (w = u.world.observe c.owner (.returned n.id (some status)) ∨
        ∃ r, w = (u.world.observe c.owner (.returned n.id (some status))).report r) ∧
      closeNode n resumed before (.ok status) c u =
        if (u.world.instanceOf c.owner).interrupted then
          .ok .running ⟨{ u.env with input := before.input, output := before.output },
            u.world.observe c.owner (.returned n.id (some status))⟩
        else conclude n status u.env.output c ⟨{ u.env with input := before.input, output := before.output }, w⟩ := by
  let env : Env := { u.env with input := before.input, output := before.output }
  let w := u.world.observe c.owner (.returned n.id (some status))
  let rest : TickM σ Status := do
    if n.debug then TickM.report fun tree => .nodeRun tree n.id n.name status resumed
    conclude n status u.env.output
  have hrest : ∃ w', (w' = w ∨ ∃ r, w' = w.report r) ∧
      rest c ⟨env, w⟩ = conclude n status u.env.output c ⟨env, w'⟩ := by
    change ∃ w', _ ∧ (if n.debug then _ else _ : TickM σ Status) c ⟨env, w⟩ = _
    split
    · exact ⟨_, .inr ⟨.nodeRun c.tree.name n.id n.name status resumed, rfl⟩, rfl⟩
    · exact ⟨w, .inl rfl, rfl⟩
  obtain ⟨w', hw, hrest⟩ := hrest
  refine ⟨w', hw, ?_⟩
  change (if (u.world.instanceOf c.owner).interrupted then pure .running else rest : TickM σ Status) c ⟨env, w⟩ = _
  split
  · rfl
  · exact hrest

theorem runNode_eq (e : Engine σ) (n : Node) (c : Activation) (t : Tick σ) :
    e.runNode n c t = e.runFramed n (t.env.isSuspended n.id) c (if t.env.isSuspended n.id then t else t.pushed n.id) := by
  unfold runNode
  rw [TickM.bind_apply]
  dsimp only [TickM.env]
  split
  · rfl
  · rfl

theorem run_ofDepth {c : Activation} {t : Tick σ} {id : NodeId} {n : Node} {depth : Nat} (h : c.tree.get? id = some n) :
    (ofDepth (depth + 1)).run id c t = (ofDepth depth).runNode n c t := by
  change (TickM.node id >>= fun n => (ofDepth depth).runNode n) c t = _
  rw [TickM.bind_node h]

theorem conclude_running_eq (n : Node) (output : List (Option Value)) (c : Activation) (t : Tick σ) :
    conclude n .running output c t =
      .ok .running { t with
        env :=
          if ({ t.env with lastStatus := .running } : Env).isSuspended n.id then { t.env with lastStatus := .running }
          else ({ t.env with lastStatus := .running } : Env).setPayload n.id .marker } := by
  unfold conclude
  simp only [TickM.bind_apply, TickM.modifyEnv, TickM.env]
  split <;> rfl

theorem conclude_ended_eq {n : Node} {status : Status} (hs : status ≠ .running) (output : List (Option Value))
    (c : Activation) (t : Tick σ) :
    conclude n status output c t = leaveFrame n.id status c
      { t with env := writeOutputs { t.env with lastStatus := status } n.output output } := by
  cases status with
  | running => exact absurd rfl hs
  | success => rfl
  | failure => rfl

theorem leaveFrame_apply (id : NodeId) (status : Status) (c : Activation) (t : Tick σ) :
    leaveFrame id status c t =
      if t.env.stack.top? = some id then .ok status { t with env := t.env.popFrame }
      else .failed (.corruptStack c.tree.name id t.env.stack.top?) t := by
  unfold leaveFrame
  simp only [TickM.bind_apply, TickM.env]
  split <;> rfl

/-- Without frames above the level there is nothing to resume. -/
theorem resumeAbove_of_le {e : Engine σ} {c : Activation} {t : Tick σ} {level : Nat} (h : t.env.stack.size ≤ level) :
    e.resumeAbove level c t = .ok t.env.lastStatus t := by
  simp only [resumeAbove, TickM.bind_apply, TickM.env]
  cases t.env.stack.top? with
  | none => rfl
  | some top =>
    simp only [if_pos h]
    rfl

/-- The deepest frame above the level is run, and those below it are resumed if that has ended. -/
theorem resumeAbove_of_lt {e : Engine σ} {c : Activation} {t : Tick σ} {level : Nat} {top : NodeId} {below : List NodeId}
    (hframes : t.env.stack.frames = top :: below) (hlevel : level ≤ below.length) :
    e.resumeAbove level c t = (e.run top >>= fun status => match status with
      | .running => pure .running
      | _ => e.resume level) c t := by
  have htop : t.env.stack.top? = some top := by rw [Stack.top?, hframes]; rfl
  have hsize : ¬ t.env.stack.size ≤ level := by
    rw [Stack.size, hframes, List.length_cons]
    omega
  rw [resumeAbove, TickM.bind_apply]
  dsimp only [TickM.env]
  rw [htop]
  exact congrFun (congrFun (if_neg hsize) c) t

/-- Resuming frames comes to a status if the deepest one is still running, or those below it come to one. -/
theorem resumeAbove_ok_iff {e : Engine σ} {c : Activation} {t u : Tick σ} {status : Status} {level : Nat} {top : NodeId}
    {below : List NodeId} (hframes : t.env.stack.frames = top :: below) (hlevel : level ≤ below.length) :
    e.resumeAbove level c t = .ok status u ↔ ∃ result v, e.run top c t = .ok result v ∧
      (result = .running ∧ status = .running ∧ u = v ∨ result ≠ .running ∧ e.resume level c v = .ok status u) := by
  rw [resumeAbove_of_lt hframes hlevel, TickM.bind_apply]
  constructor
  · intro h
    cases hstep : e.run top c t with
    | failed error v =>
      rw [hstep] at h
      cases h
    | halted halt =>
      rw [hstep] at h
      cases h
    | ok result v =>
      rw [hstep] at h
      refine ⟨result, v, rfl, ?_⟩
      cases result with
      | running =>
        cases h
        exact .inl ⟨rfl, rfl, rfl⟩
      | success => exact .inr ⟨by simp, h⟩
      | failure => exact .inr ⟨by simp, h⟩
  · rintro ⟨result, v, hstep, ⟨rfl, rfl, rfl⟩ | ⟨hr, hrest⟩⟩
    · rw [hstep]
      rfl
    · rw [hstep]
      cases result with
      | running => exact absurd rfl hr
      | success => exact hrest
      | failure => exact hrest

theorem exists_vars_writeOutputs (env : Env) (names : List String) (values : List (Option Value)) :
    ∃ vars, writeOutputs env names values = { env with vars } := by
  rw [writeOutputs]
  generalize names.zip values = pairs
  induction pairs generalizing env with
  | nil => exact ⟨env.vars, rfl⟩
  | cons pair rest ih =>
    obtain ⟨name, value⟩ := pair
    rw [List.foldl_cons]
    by_cases hname : name = ""
    · simpa only [if_pos hname] using ih env
    · obtain ⟨vars, hvars⟩ := ih (env.set name value)
      refine ⟨vars, ?_⟩
      simp only [if_neg hname]
      exact hvars

/-- One round of running the waiting jobs of an instance, for any way to run a job. -/
def runNextWith (e : Engine σ) (exec : Job → TickM σ Unit) (owner : Tag) : WorldM σ Unit := do
  match ((← get).instanceOf owner).pending with
  | [] => return
  | job :: rest =>
    modify (·.modifyInstance owner fun i => { i with pending := rest })
    match ← activate owner (exec job) with
    | .ok () => pure ()
    | .error error => modify (·.report (.jobFailed owner error))
    if ((← get).instanceOf owner).interrupted then return
    else e.runPending owner

theorem runNextWith_runJob (e : Engine σ) (owner : Tag) : e.runNextWith e.runJob owner = e.runNext owner := rfl

/-- A computation of a tick on the state of an instance: whatever its end, the state is given back. -/
theorem after_activate {w : World σ} {owner : Tag} (m : TickM σ α) (Q : Except RunError α → World σ → Prop) :
    w.After (activate owner m) Q ↔
      (m ⟨owner, (w.instanceOf owner).tree⟩ ⟨(w.instanceOf owner).env, w.observe owner .entered⟩).Meets
        (fun a t => Q (.ok a) (giveBack owner t)) (fun e t => Q (.error e) (giveBack owner t)) := by
  simp only [activate, after_bind, after_modify, after_get]
  have hseen : (w.observe owner .entered).instanceOf owner = w.instanceOf owner := rfl
  rw [hseen]
  cases m ⟨owner, (w.instanceOf owner).tree⟩ ⟨(w.instanceOf owner).env, w.observe owner .entered⟩ <;> rfl

end Engine

end BehaviorTree
