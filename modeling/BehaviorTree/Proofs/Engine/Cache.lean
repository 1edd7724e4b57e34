import BehaviorTree.Proofs.Engine.Outcome

/-!
The variables that a delay puts by. Its child finds them as they were when the delay ran, however long ago that is, and
once the child has been run they are as they were before, however that ended.
-/

namespace BehaviorTree
set_option autoImplicit false

open TickM Outcome

variable {σ α : Type}

namespace Env

/-- Some variables are as they are in one state, and all others as they are in another. -/
def Mixes (env : Env) (names : List String) (there here : Env) : Prop :=
  ∀ name, env.get? name = if name ∈ names then there.get? name else here.get? name

/-- Gives variables the values, or absence, that they have in another state, one after the other. -/
def copyFrom (env : Env) (names : List String) (there : Env) : Env :=
  (names.map fun name => (name, there.get? name)).foldl (fun env (name, value) => env.set name value) env

@[simp] theorem copyFrom_nil (env there : Env) : env.copyFrom [] there = env := rfl

@[simp] theorem copyFrom_cons (env there : Env) (name : String) (names : List String) :
    env.copyFrom (name :: names) there = (env.set name (there.get? name)).copyFrom names there := rfl

theorem mixes_copyFrom (env there : Env) (names : List String) : (env.copyFrom names there).Mixes names there env := by
  intro key
  induction names generalizing env with
  | nil => simp
  | cons name names ih =>
    rw [copyFrom_cons, ih, get?_set]
    by_cases hkey : key = name
    · simp [hkey]
    · simp [hkey, Ne.symm hkey]

theorem copyFrom_eq (env there : Env) (names : List String) :
    env.copyFrom names there = { env with vars := (env.copyFrom names there).vars } := by
  induction names generalizing env with
  | nil => rfl
  | cons name names ih => exact ih (env.set name (there.get? name))

theorem Mixes.congr {env env' there here here' : Env} {names : List String} (h : env.Mixes names there here)
     (henv : env'.vars = env.vars)
    (hhere : here'.vars = here.vars) : env'.Mixes names there here' := by
  intro name
  rw [get?, henv, get?, get?, hhere]
  exact h name

end Env

/-- A computation ends as another does: with a result if that has one, with the same error, or halted for the same
reason. What they leave is related. -/
inductive Outcome.EndsLike (S : Tick σ → Tick σ → Prop) : Outcome σ Unit → Outcome σ α → Prop where
  | ok {a : α} {u u' : Tick σ} : S u u' → EndsLike S (.ok () u) (.ok a u')
  | failed {error : RunError} {u u' : Tick σ} : S u u' → EndsLike S (.failed error u) (.failed error u')
  | halted {h : Halt} : EndsLike S (.halted h) (.halted h)

/-- A failure is taken as a result, and failed with again after something else has been done. -/
theorem Outcome.EndsLike.attempt {m : TickM σ Unit} {f : Except RunError Unit → TickM σ Unit} {c : Activation}
    {t : Tick σ} {o : Outcome σ α} {S S' : Tick σ → Tick σ → Prop} (h : EndsLike S (m c t) o)
    (hf : ∀ r u u', S u u' → ∃ v, f r c u = (ofExcept r : TickM σ Unit) c v ∧ S' v u') :
    EndsLike S' ((TickM.attempt m >>= f) c t) o := by
  rw [bind_apply, attempt_apply]
  revert h
  generalize m c t = r
  rintro (@⟨_, u, u', h⟩ | @⟨error, u, u', h⟩ | _)
  · obtain ⟨v, hv, hs⟩ := hf (.ok ()) u u' h
    change EndsLike S' (f (.ok ()) c u) _
    rw [hv]
    exact .ok hs
  · obtain ⟨v, hv, hs⟩ := hf (.error error) u u' h
    change EndsLike S' (f (.error error) c u) _
    rw [hv]
    exact .failed hs
  · exact .halted

namespace Engine

variable (e : Engine σ) {c : Activation} {t : Tick σ}

def valuesOf (env : Env) (names : List String) : List (String × Option Value) :=
  names.map fun name => (name, env.get? name)

theorem assignAll_valuesOf (there : Env) (names : List String) :
    assignAll (valuesOf there names) c t = .ok () { t with env := t.env.copyFrom names there } := rfl

/-- A child that is run once ends as its run does, whatever becomes of the frames that it leaves. -/
theorem runOnce_endsLike (id : NodeId) :
    EndsLike (fun u u' => u.env.vars = u'.env.vars) ((do cutOff id (← e.runCaptured id)) c t) (e.run id c t) := by
  simp only [runCaptured, bind_apply, TickM.env]
  cases e.run id c t with
  | ok status u =>
    cases status with
    | running => exact .ok rfl
    | success => exact .ok rfl
    | failure => exact .ok rfl
  | failed error u => exact .failed rfl
  | halted h => exact .halted

/-- The child of a delay starts with the variables that were put by, and these are as before once it has been run. -/
theorem runDelayed_endsLike (id : NodeId) (names : List String) (there : Env) :
    EndsLike (fun u u' => u.env.Mixes names t.env u'.env) (e.runDelayed id (valuesOf there names) c t)
      (e.run id c { t with env := t.env.copyFrom names there }) := by
  have hbefore : (valuesOf there names).map (fun (name, _) => (name, t.env.get? name)) = valuesOf t.env names := by
    rw [valuesOf, List.map_map]
    rfl
  rw [runDelayed, bind_apply, TickM.env]
  dsimp only
  rw [hbefore, bind_apply, assignAll_valuesOf]
  refine (e.runOnce_endsLike id).attempt fun r u u' hvars => ⟨{ u with env := u.env.copyFrom names t.env }, rfl, ?_⟩
  exact (Env.mixes_copyFrom u.env t.env names).congr rfl hvars.symm

theorem aside_endsLike {m : TickM σ Unit} {o : Outcome σ α} {S : Env → Tick σ → Prop}
    (hS : ∀ env env' u, env'.vars = env.vars → S env u → S env' u) (h : EndsLike (fun u u' => S u.env u') (m c t) o) :
    EndsLike (fun u u' => S u.env u') (aside m c t) o := by
  rw [aside, bind_apply]
  refine h.attempt fun r u u' hu => ?_
  cases r with
  | ok a => exact ⟨_, rfl, hS u.env _ u' rfl hu⟩
  | error error => exact ⟨_, rfl, hS u.env _ u' rfl hu⟩

/-- The variables that a delay puts by. Its job lets the child start with them as they were when the delay ran, and
with the others as they are now. However the child ends, they are afterwards as they were before the job, and the
others as the child has left them. -/
theorem delay_cached {n : Node} {only : NodeId} {span : Float} {names : List String} (c₀ : Activation) (t₀ : Tick σ)
    (hb : n.behavior = .delay span names) (honly : n.children[0]? = some only) :
    ∃ job, (∀ e : Engine σ, e.behave n.toSite n.behavior c₀ t₀ =
        .ok .success { t₀ with world := (t₀.world.delay span c₀.owner (.job c₀.owner job)).2 }) ∧
      ∀ (e : Engine σ) (c : Activation) (t : Tick σ), ∃ start : Env,
        start = { t.env with vars := start.vars } ∧ start.Mixes names t₀.env t.env ∧
        EndsLike (fun u u' => u.env.Mixes names t.env u'.env) (e.runJob job c t)
          (e.run only c ⟨start, t.world.observe c.owner (.started job)⟩) := by
  refine ⟨.delayed only (valuesOf t₀.env names), fun e => ?_, fun e c t => ?_⟩
  · rw [hb, behave, putOff]
    simp only [bind_apply, TickM.owner, TickM.env, child, element, honly]
    rfl
  · refine ⟨t.env.copyFrom names t₀.env, Env.copyFrom_eq _ _ _, Env.mixes_copyFrom _ _ _, ?_⟩
    let started : Tick σ := { t with world := t.world.observe c.owner (.started (.delayed only (valuesOf t₀.env names))) }
    have hrun := e.runDelayed_endsLike (c := c) (t := started) only names t₀.env
    exact aside_endsLike (S := fun env u' => env.Mixes names t.env u'.env) (fun _ _ _ hvars hu => hu.congr hvars rfl) hrun

end Engine

namespace Defiance

/-- A delay that puts one variable by twice, and another one that may be absent. -/
def putter : Node where
  id := ⟨0⟩
  name := "Delay"
  args := []
  input := []
  output := []
  children := [⟨1⟩]
  kind := { name := "Delay", category := .decorator }
  debug := false
  behavior := .delay 1 ["x", "y", "x"]

/-- Whatever is run writes to all variables there are, and fails. -/
def engine : Engine Unit :=
  { Engine.exhausted with
    run := fun id => do
      modifyEnv fun env => ((env.set "x" (some .null)).set "y" (some .null)).set "z" (some .null)
      fail (.unknownNode "defiance" id) }

/-- The variable `x` is `false` when the delay runs, and the others are absent. -/
def early : Tick Unit := ⟨({} : Env).set "x" (some (.bool false)), { registry := ∅, host := () }⟩

/-- All variables are `true` when the job runs. -/
def late : Tick Unit :=
  { early with env := ((({} : Env).set "x" (some (.bool true))).set "y" (some (.bool true))).set "z" (some (.bool true)) }

/-- Whose ticks these are. -/
def activation : Activation := ⟨⟨0⟩, {}⟩

end Defiance

open Defiance in
/-- Its child starts with what was put by, and what it writes to these variables is undone. -/
theorem Engine.delay_cached_defiance :
    ∃ (job : Job) (start : Env) (u : Tick Unit),
      engine.behave putter.toSite putter.behavior activation early =
        .ok .success ⟨early.env, (early.world.delay 1 ⟨0⟩ (.job ⟨0⟩ job)).2⟩ ∧
      start.get? "x" = some (.bool false) ∧ start.get? "y" = none ∧ start.get? "z" = some (.bool true) ∧
      engine.runJob job activation late = .failed (.unknownNode "defiance" ⟨1⟩) u ∧
      u.env.get? "x" = some (.bool true) ∧ u.env.get? "y" = some (.bool true) ∧ u.env.get? "z" = some .null := by
  obtain ⟨job, hput, hjob⟩ := Engine.delay_cached activation early
    (rfl : putter.behavior = .delay 1 ["x", "y", "x"]) (rfl : putter.children[0]? = some ⟨1⟩)
  obtain ⟨start, -, hstart, hends⟩ := hjob engine activation late
  cases hrun : engine.runJob job activation late with
  | ok a u =>
    rw [hrun] at hends
    cases hends
  | halted h =>
    rw [hrun] at hends
    cases hends
  | failed error u =>
    rw [hrun] at hends
    obtain _ | hu := hends
    refine ⟨job, start, u, hput engine, ?_, ?_, ?_, hrun, ?_, ?_, ?_⟩
    · simpa [putter, early, Env.get?_set] using hstart "x"
    · have hempty : ({} : Env).get? "y" = none := Std.ExtTreeMap.getElem?_empty
      simpa [putter, early, Env.get?_set, hempty] using hstart "y"
    · simpa [putter, late, Env.get?_set] using hstart "z"
    · simpa [putter, late, Env.get?_set] using hu "x"
    · simpa [putter, late, Env.get?_set] using hu "y"
    · simpa [putter, late, Env.get?_set] using hu "z"

end BehaviorTree
