import BehaviorTree.Proofs.Engine.Outcome

/-!
The slots of a running node. Every node runs with slot values of its own and gives the caller's back, so a node finds
its inputs and outputs as it left them whenever a call returns, and what it puts out is what it pushed itself. Of these
values the ones with a name are written once the node has ended, and nothing is written otherwise.
-/

namespace BehaviorTree
set_option autoImplicit false

variable {σ α β : Type}

structure Env.SameSlots (env env' : Env) : Prop where
  input : env'.input = env.input
  output : env'.output = env.output

namespace Env.SameSlots

theorem refl (env : Env) : env.SameSlots env := ⟨rfl, rfl⟩

theorem trans {env₁ env₂ env₃ : Env} (h : env₁.SameSlots env₂) (h' : env₂.SameSlots env₃) : env₁.SameSlots env₃ :=
  ⟨h'.input.trans h.input, h'.output.trans h.output⟩

theorem writes (env : Env) (writes : List (String × Option Value)) :
    env.SameSlots (writes.foldl (fun env (name, value) => env.set name value) env) := by
  induction writes generalizing env with
  | nil => exact .refl env
  | cons write writes ih =>
    have hset : env.SameSlots (env.set write.1 write.2) := ⟨rfl, rfl⟩
    exact hset.trans (ih _)

end Env.SameSlots

theorem Env.foldl_pushOutput (env : Env) (values : List (Option Value)) :
    values.foldl Env.pushOutput env = { env with output := env.output ++ values } := by
  induction values generalizing env with
  | nil => simp
  | cons value values ih => simp [ih, Env.pushOutput]

/-- However a computation ends, the slot values are those from before. -/
def TickM.Restores (m : TickM σ α) : Prop :=
  ∀ c t, (m c t).Meets (fun _ u => t.env.SameSlots u.env) (fun _ u => t.env.SameSlots u.env) fun _ => True

/-! ### What a process pushes itself -/

/-- The values that a routine pushes on its way to an end, whatever it sees and however the nodes end that it runs. -/
def Routine.Pushes : Routine → List (Option Value) → Prop
  | .push value next, values => ∃ rest, values = value :: rest ∧ next.Pushes rest
  | .look next, values => ∃ g, (next g).Pushes values
  | .run _ next, values | .childStatus next, values => ∃ status, (next status).Pushes values
  | .write _ _ next, values | .remember _ _ next, values | .plant _ _ next, values | .interrupt next, values
  | .note _ next, values => next.Pushes values
  | .finish _, values | .suspend _, values | .reject, values => values = []

/-- The values that a process pushes itself, from the state that it starts in. Nodes with children push nothing. -/
def Behavior.Pushes (b : Behavior) (site : Site) (t : Tick σ) (values : List (Option Value)) : Prop :=
  match b with
  | .calculate expr => values = (expr.evaluate t.env.get?).toOption.toList.map some
  | .copy => values = [if site.input.head?.any (· ≠ "") then t.env.input? 0 else site.arg? "value"]
  | .now => values = [some (Value.ofNumber t.world.time)]
  | .leaf react => values = (react ⟨t.env.vars, t.env.temps[site.id]?, t.env.input, t.world.time⟩).outputs
  | .routine steps => (steps site).Pushes values
  | _ => values = []

/-- A process keeps the inputs that it was given and only adds to the outputs what it pushes itself. -/
def TickM.Puts (m : TickM σ α) (Pushed : Tick σ → List (Option Value) → Prop) : Prop :=
  ∀ c t, (m c t).Meets
    (fun _ u => u.env.input = t.env.input ∧ ∃ values, Pushed t values ∧ u.env.output = t.env.output ++ values)
    (fun _ _ => True) fun _ => True

namespace TickM.Restores

theorem pure (a : α) : (Pure.pure a : TickM σ α).Restores := fun _ t => .refl t.env

theorem bind {m : TickM σ α} {f : α → TickM σ β} (hm : m.Restores) (hf : ∀ a, (f a).Restores) :
    (m >>= f).Restores := by
  intro c t
  rw [meets_bind]
  refine (hm c t).mono (fun a u hu => ?_) fun _ _ hu => hu
  exact (hf a c u).mono (fun _ _ hv => hu.trans hv) fun _ _ hv => hu.trans hv

theorem fail (e : RunError) : (TickM.fail e : TickM σ α).Restores := fun _ t => .refl t.env

theorem halt (h : Halt) : (TickM.halt h : TickM σ α).Restores := fun _ _ => trivial

theorem env : (TickM.env : TickM σ Env).Restores := fun _ t => .refl t.env

theorem tree : (TickM.tree : TickM σ Tree).Restores := fun _ t => .refl t.env

theorem owner : (TickM.owner : TickM σ Tag).Restores := fun _ t => .refl t.env

theorem time : (TickM.time : TickM σ Float).Restores := fun _ t => .refl t.env

theorem modifyEnv {f : Env → Env} (hf : ∀ env : Env, env.SameSlots (f env)) : (TickM.modifyEnv f : TickM σ Unit).Restores :=
  fun _ t => hf t.env

theorem modifyWorld (f : World σ → World σ) : (TickM.modifyWorld f).Restores := fun _ t => .refl t.env

theorem onWorld (m : WorldM σ α) : (TickM.onWorld m).Restores := by
  intro c t
  unfold TickM.onWorld
  cases m.run t.world with
  | ok r => exact .refl t.env
  | error h => exact trivial

theorem report (r : String → Report) : (TickM.report r : TickM σ Unit).Restores := fun _ t => .refl t.env

theorem interrupted : (TickM.interrupted : TickM σ Bool).Restores := fun _ t => .refl t.env

theorem interrupt : (TickM.interrupt : TickM σ Unit).Restores := fun _ t => .refl t.env

theorem saved? (site : Site) : (TickM.saved? site : TickM σ (Option Payload)).Restores := fun _ t => .refl t.env

theorem suspend (site : Site) (payload : Payload) : (TickM.suspend site payload : TickM σ Status).Restores :=
  fun _ _ => ⟨rfl, rfl⟩

theorem rejectPayload (site : Site) : (TickM.rejectPayload site : TickM σ α).Restores := fun _ t => .refl t.env

theorem rejectStatus (site : Site) (status : Status) : (TickM.rejectStatus site status : TickM σ α).Restores :=
  fun _ t => .refl t.env

theorem childStatus (site : Site) : (TickM.childStatus site : TickM σ Status).Restores := by
  refine bind env fun env => ?_
  cases env.lastStatus with
  | running => exact rejectStatus site .running
  | success => exact pure _
  | failure => exact pure _

theorem node (id : NodeId) : (TickM.node id : TickM σ Node).Restores := by
  refine bind tree fun tree => ?_
  cases tree.get? id with
  | some node => exact pure node
  | none => exact fail _

theorem element (items : List α) (i : Nat) : (TickM.element items i : TickM σ α).Restores := by
  unfold TickM.element
  cases items[i]? with
  | some a => exact pure a
  | none => exact halt _

theorem child (site : Site) (i : Nat) : (TickM.child site i : TickM σ NodeId).Restores := element _ _

theorem capture (status : Status) (level : Nat) : (TickM.capture status level : TickM σ Stack).Restores := by
  cases status with
  | running => exact bind env fun _ => bind (modifyEnv fun _ => ⟨rfl, rfl⟩) fun _ => pure _
  | success => exact pure _
  | failure => exact pure _

theorem abandon (saved : Stack) : (TickM.abandon saved : TickM σ Unit).Restores := modifyEnv fun _ => ⟨rfl, rfl⟩

theorem forM (xs : List β) {f : β → TickM σ PUnit} (hf : ∀ x, (f x).Restores) : (xs.forM f).Restores := by
  induction xs with
  | nil => exact pure _
  | cons x xs ih => exact bind (hf x) fun _ => ih

theorem set (name : String) (value : Option Value) : (TickM.modifyEnv (·.set name value) : TickM σ Unit).Restores :=
  modifyEnv fun _ => ⟨rfl, rfl⟩

/-- Whatever a computation pushes is nothing if it restores the slots. -/
theorem puts {m : TickM σ α} (hm : m.Restores) {Pushed : Tick σ → List (Option Value) → Prop}
    (hp : ∀ t, Pushed t []) : m.Puts Pushed := by
  intro c t
  refine (hm c t).mono (fun _ u hu => ⟨hu.input, [], hp t, ?_⟩) fun _ _ _ => trivial
  rw [hu.output, List.append_nil]

end TickM.Restores

namespace TickM.Puts

variable {P Q : List (Option Value) → Prop}

theorem mono {m : TickM σ α} (hm : m.Puts fun _ => P) (h : ∀ values, P values → Q values) : m.Puts fun _ => Q := by
  intro c t
  refine (hm c t).mono ?_ fun _ _ _ => trivial
  rintro _ u ⟨hinput, values, hvalues, houtput⟩
  exact ⟨hinput, values, h values hvalues, houtput⟩

/-- What comes after a computation that restores the slots pushes what it would push anyway. -/
theorem bind {m : TickM σ α} {f : α → TickM σ β} (hm : m.Restores) (hf : ∀ a, (f a).Puts fun _ => P) :
    (m >>= f).Puts fun _ => P := by
  intro c t
  rw [meets_bind]
  refine (hm c t).mono (fun a u hu => ?_) fun _ _ _ => trivial
  refine (hf a c u).mono ?_ fun _ _ _ => trivial
  rintro _ v ⟨hinput, values, hvalues, houtput⟩
  exact ⟨hinput.trans hu.input, values, hvalues, by rw [houtput, hu.output]⟩

end TickM.Puts

namespace Engine

open TickM

structure Restoring (e : Engine σ) : Prop where
  run (id : NodeId) : (e.run id).Restores
  resume (level : Nat) : (e.resume level).Restores

namespace Restoring

variable {e : Engine σ} (he : e.Restoring)
include he

theorem runCaptured (id : NodeId) : (e.runCaptured id).Restores :=
  .bind .env fun _ => .bind (he.run id) fun _ => .bind (.capture _ _) fun _ => .pure _

theorem resumeCaptured (saved : Stack) : (e.resumeCaptured saved).Restores :=
  .bind .env fun _ => .bind (.modifyEnv fun _ => ⟨rfl, rfl⟩) fun _ =>
    .bind (he.resume _) fun _ => .bind (.capture _ _) fun _ => .pure _

theorem stepBranch (id : NodeId) (saved : Option Stack) : (e.stepBranch id saved).Restores := by
  cases saved with
  | none => exact he.runCaptured id
  | some saved => exact he.resumeCaptured saved

theorem chain (site : Site) (next : Status) (i : Nat) (ids : List NodeId) : (e.chain site next i ids).Restores := by
  induction ids generalizing i with
  | nil => exact .pure next
  | cons id ids ih =>
    refine .bind (he.run id) fun status => ?_
    split
    · exact .suspend site _
    · split
      · exact ih (i + 1)
      · exact .pure _

theorem resumeChain (site : Site) (next : Status) : (e.resumeChain site next).Restores := by
  refine .bind (.saved? site) fun saved => ?_
  split
  · exact he.chain site next 0 _
  · refine .bind (.childStatus site) fun status => ?_
    split
    · exact he.chain site next _ _
    · exact .pure _
  · exact .rejectPayload site

theorem stepAll (fresh : Bool) (branches : List (NodeId × Option Stack)) : (e.stepAll fresh branches).Restores := by
  induction branches with
  | nil => exact .pure []
  | cons branch rest ih =>
    unfold Engine.stepAll
    split
    · exact .bind ih fun _ => .pure _
    · exact .bind (he.stepBranch _ _) fun _ => .bind ih fun _ => .pure _

omit he in
theorem savedBranches (site : Site) : (Engine.savedBranches site : TickM σ (Option (List (Option Stack)))).Restores := by
  refine .bind (.saved? site) fun saved => ?_
  split
  · exact .pure none
  · split
    · exact .pure _
    · exact .rejectPayload site
  · exact .rejectPayload site

theorem parallel (site : Site) : (e.parallel site).Restores := by
  refine .bind (savedBranches site) fun previous => .bind (he.stepAll _ _) fun left => ?_
  split
  · exact .suspend site _
  · exact .pure _

theorem raceAll (fresh : Bool) (passed : List (Option Stack)) (branches : List (NodeId × Option Stack)) :
    (e.raceAll fresh passed branches).Restores := by
  induction branches generalizing passed with
  | nil => exact .pure _
  | cons branch rest ih =>
    unfold Engine.raceAll
    split
    · exact ih _
    · refine .bind (he.stepBranch _ _) fun (status, left) => ?_
      cases status with
      | running => exact ih _
      | failure => exact ih _
      | success => exact .pure _

theorem race (site : Site) : (e.race site).Restores := by
  refine .bind (savedBranches site) fun previous => .bind (he.raceAll _ _ _) fun (won, left) => ?_
  cases won with
  | true => exact .bind (.forM _ fun saved => .abandon saved) fun _ => .pure _
  | false =>
    change (if left.any Option.isSome then TickM.suspend site (.branches left) else pure .failure).Restores
    split
    · exact .suspend site _
    · exact .pure _

theorem caseAction (site : Site) (case : Nat) (pair : List NodeId) : (e.caseAction site case pair).Restores := by
  refine .bind (.element pair 1) fun id => .bind (he.run id) fun status => ?_
  split
  · exact .suspend site _
  · exact .pure _

theorem tryCases (site : Site) (case : Nat) (ids : List NodeId) : (e.tryCases site case ids).Restores := by
  induction ids generalizing case with
  | nil => exact .pure _
  | cons id ids ih =>
    refine .bind (.node id) fun node => .bind (.element _ 0) fun condition => .bind (he.run condition) fun status => ?_
    split
    · exact he.caseAction site case _
    · exact ih (case + 1)
    · exact .suspend site _

theorem switch (site : Site) : (e.switch site).Restores := by
  refine .bind (.saved? site) fun saved => ?_
  split
  · exact he.tryCases site 0 _
  · refine .bind (.childStatus site) fun status => ?_
    dsimp only
    split
    · exact .pure _
    · split
      · exact .bind (.child site _) fun id => .bind (.node id) fun node => he.caseAction site _ _
      · exact he.tryCases site _ _
  · exact .rejectPayload site

theorem branch (site : Site) (condition : Status) : (e.branch site condition).Restores := by
  unfold Engine.branch
  split
  · exact .suspend site _
  · refine .bind (.child site _) fun id => .bind (he.run id) fun status => ?_
    split
    · exact .suspend site _
    · exact .pure _

theorem ifElse (site : Site) : (e.ifElse site).Restores := by
  refine .bind (.saved? site) fun saved => ?_
  split
  · exact .bind (.child site 0) fun id => .bind (he.run id) fun status => he.branch site status
  · exact .bind (.childStatus site) fun status => he.branch site status
  · exact .childStatus site
  · exact .rejectPayload site

theorem pass (site : Site) (iteration i : Nat) (ids : List NodeId) : (e.pass site iteration i ids).Restores := by
  induction ids generalizing i with
  | nil => exact .pure _
  | cons id ids ih =>
    refine .bind (he.run id) fun status => ?_
    split
    · exact ih (i + 1)
    · exact .pure _
    · exact .bind (.suspend site _) fun _ => .pure _

theorem passes (site : Site) {enter : Nat → TickM σ Unit} (henter : ∀ i, (enter i).Restores) (count iteration : Nat) :
    (e.passes site enter count iteration).Restores := by
  induction count generalizing iteration with
  | zero => exact .pure _
  | succ count ih =>
    refine .bind (henter iteration) fun _ => .bind (he.pass site iteration 0 _) fun result => ?_
    cases result with
    | passed => exact ih (iteration + 1)
    | failed => exact .pure _
    | suspended => exact .pure _

theorem iterate (site : Site) (iterations : Nat) {enter : Nat → TickM σ Unit} (henter : ∀ i, (enter i).Restores) :
    (e.iterate site iterations enter).Restores := by
  refine .bind (.saved? site) fun saved => ?_
  split
  · exact he.passes site henter iterations 0
  · refine .bind (.childStatus site) fun status => ?_
    split
    · split
      · refine .bind (he.pass site _ _ _) fun result => ?_
        cases result with
        | passed => exact he.passes site henter _ _
        | failed => exact .pure _
        | suspended => exact .pure _
      · exact .pure _
    · exact .pure _
  · exact .rejectPayload site

theorem cleanUp (site : Site) : (e.cleanUp site).Restores := by
  refine .bind (.child site 2) fun id => .bind (he.runCaptured id) fun (status, left) => ?_
  dsimp only
  split
  · exact .bind (.report _) fun _ => .abandon left
  · exact .pure _

theorem guarded (site : Site) (saved : Option Stack) : (e.guarded site saved).Restores := by
  refine .bind (.child site 1) fun id => .bind (he.stepBranch id saved) fun (status, left) => ?_
  cases status with
  | running => exact .suspend site _
  | success => exact .pure _
  | failure => exact .pure _

theorem guard (site : Site) (saved : Option Stack) : (e.guard site saved).Restores := by
  refine .bind (.child site 0) fun id => .bind (he.run id) fun status => ?_
  cases status with
  | running => exact .rejectStatus site _
  | success => exact he.guarded site saved
  | failure =>
    cases saved with
    | none => exact .pure _
    | some saved =>
      exact .bind (.report _) fun _ => .bind (.abandon saved) fun _ => .bind (he.cleanUp site) fun _ => .pure _

theorem watchdog (site : Site) : (e.watchdog site).Restores := by
  refine .bind (.saved? site) fun saved => ?_
  split
  · exact he.guard site none
  · exact he.guard site _
  · exact .rejectPayload site

omit he in
theorem expire (site : Site) (expiry : Float) (result : Status × Stack) :
    (Engine.expire site expiry result : TickM σ Status).Restores := by
  obtain ⟨status, left⟩ := result
  cases status with
  | running =>
    refine .bind .time fun now => ?_
    split
    · exact .bind (.report _) fun _ => .bind (.abandon left) fun _ => .pure _
    · exact .suspend site _
  | success => exact .pure _
  | failure => exact .pure _

theorem timeout (site : Site) (limit : Float) : (e.timeout site limit).Restores := by
  refine .bind (.saved? site) fun saved => ?_
  split
  · exact .bind (.child site 0) fun id => .bind (he.runCaptured id) fun result => .bind .time fun _ => expire site _ result
  · exact .bind (he.resumeCaptured _) fun result => expire site _ result
  · exact .rejectPayload site

theorem wrap (site : Site) (result : Status → Status) : (e.wrap site result).Restores := by
  refine .bind (.bind (.saved? site) fun saved => ?_) fun status => ?_
  · split
    · exact .bind (.child site 0) fun id => he.run id
    · exact .childStatus site
    · exact .rejectPayload site
  · cases status with
    | running => exact .suspend site _
    | success => exact .pure _
    | failure => exact .pure _

theorem once (site : Site) : (e.once site).Restores := by
  refine .bind .env fun env => ?_
  split
  · exact he.wrap site id
  · split
    · exact .pure _
    · exact .bind (.modifyEnv fun _ => ⟨rfl, rfl⟩) fun _ => he.wrap site id

omit he in
theorem countRun (site : Site) (limit : Option Nat) (policy : RepeatPolicy) (done : Nat) (status : Status) :
    (Engine.countRun site limit policy done status : TickM σ Status).Restores := by
  unfold Engine.countRun
  split
  · exact .pure _
  · split
    · exact .pure _
    · exact .suspend site _

theorem startRun (site : Site) (limit : Option Nat) (policy : RepeatPolicy) (done : Nat) :
    (e.startRun site limit policy done).Restores := by
  unfold Engine.startRun
  split
  · exact .pure _
  · refine .bind (.child site 0) fun id => .bind (he.run id) fun status => ?_
    split
    · exact .suspend site _
    · exact countRun site limit policy done _

theorem repeated (site : Site) (limit : Option Nat) (policy : RepeatPolicy) :
    (e.repeated site limit policy).Restores := by
  refine .bind (.saved? site) fun saved => ?_
  split
  · exact he.startRun site limit policy 0
  · exact .bind (.childStatus site) fun status => countRun site limit policy _ status
  · exact he.startRun site limit policy _
  · exact .rejectPayload site

omit he in
theorem target? (site : Site) (slot : Nat) :
    (Engine.target? site slot : TickM σ (Option (Option String))).Restores := by
  refine .bind .env fun env => ?_
  split
  · exact .pure _
  · exact .pure _
  · exact .bind (.report _) fun _ => .pure _

omit he in
theorem listen (site : Site) (event : String) : (Engine.listen site event : TickM σ Status).Restores := by
  have hstart (target : Option String) : (startListening site event target : TickM σ Status).Restores :=
    .bind .owner fun _ => .bind (.child site 0) fun _ => .bind (.modifyWorld _) fun _ =>
      .bind (.modifyEnv fun _ => ⟨rfl, rfl⟩) fun _ => .bind (.report _) fun _ => .pure _
  refine .bind .env fun env => ?_
  split
  · exact .pure _
  · split
    · exact .bind .owner fun _ => hstart _
    · refine .bind (target? site 0) fun target => ?_
      split
      · exact hstart _
      · exact .pure _

omit he in
theorem dispatchNode (e : Engine σ) (site : Site) (event : String) : (e.dispatchNode site event).Restores := by
  refine .bind (target? site 0) fun target => ?_
  split
  · exact .pure _
  · refine .bind .env fun env => .bind (.onWorld _) fun heard => ?_
    dsimp only
    split
    · exact .bind (.modifyWorld _) fun _ => .pure _
    · exact .pure _

omit he in
theorem evaluate (site : Site) (expr : Expression) : (Engine.evaluate site expr : TickM σ (Option Value)).Restores := by
  refine .bind .env fun env => ?_
  split
  · exact .pure _
  · exact .bind (.report _) fun _ => .pure _

omit he in
theorem inputIsNull : (Engine.inputIsNull : TickM σ Bool).Restores := by
  refine .bind .env fun env => ?_
  split <;> exact .pure _

omit he in
theorem writeSlot (name : Option String) (value : Option Value) : (Engine.writeSlot name value : TickM σ Unit).Restores := by
  cases name with
  | some name => exact .set name value
  | none => exact .pure _

theorem forEach (site : Site) : (e.forEach site).Restores := by
  refine .bind .env fun env => ?_
  split
  · exact he.iterate site _ fun i => .bind (.element _ i) fun _ => .bind (writeSlot _ _) fun _ => writeSlot _ _
  · exact .bind (.report _) fun _ => .pure _

theorem loop (site : Site) (count : Nat) : (e.loop site count).Restores :=
  he.iterate site count fun _ => writeSlot _ _

omit he in
theorem waitUntil (site : Site) (expiry : Float) : (Engine.waitUntil site expiry : TickM σ Status).Restores := by
  refine .bind .time fun now => ?_
  split
  · exact .pure _
  · exact .suspend site _

omit he in
theorem wait (site : Site) (own : Float) : (Engine.wait site own : TickM σ Status).Restores := by
  refine .bind (.saved? site) fun saved => ?_
  split
  · exact waitUntil site _
  · exact .rejectPayload site
  · refine .bind .env fun env => ?_
    split
    · exact .bind .time fun _ => waitUntil site _
    · split
      · exact .bind .time fun _ => waitUntil site _
      · exact .bind (.report _) fun _ => .pure _

/-! ### What a process pushes -/

omit he in
theorem calculate (site : Site) (expr : Expression) :
    (Engine.calculate site expr : TickM σ Status).Puts ((Behavior.calculate expr).Pushes site) := by
  intro c t
  simp only [Engine.calculate, Engine.evaluate, meets_bind, meets_env, Behavior.Pushes]
  cases expr.evaluate t.env.get? with
  | ok v => exact ⟨rfl, _, rfl, rfl⟩
  | error error => exact ⟨rfl, [], rfl, (List.append_nil _).symm⟩

omit he in
theorem settle (site : Site) (ending : Ending) : (Engine.settle site ending : TickM σ Status).Restores := by
  cases ending with
  | finish status => exact .pure status
  | suspend memo => cases memo <;> exact .suspend site _
  | reject => exact .rejectPayload site

omit he in
theorem leaf (site : Site) (react : Leaf) :
    (Engine.leaf site react : TickM σ Status).Puts ((Behavior.leaf react).Pushes site) := by
  intro c t
  simp only [Engine.leaf, meets_bind, meets_env, meets_time, meets_modifyEnv, Env.foldl_pushOutput, Behavior.Pushes]
  generalize react _ = reaction
  have hslots := Env.SameSlots.writes t.env reaction.writes
  have hend : (if reaction.interrupt then interrupt >>= fun _ => Engine.settle site reaction.ending
      else Engine.settle site reaction.ending : TickM σ Status).Restores := by
    split
    · exact .bind .interrupt fun _ => settle site _
    · exact settle site _
  refine (hend _ _).mono (fun _ u hu => ?_) fun _ _ _ => trivial
  refine ⟨hu.input.trans hslots.input, reaction.outputs, rfl, hu.output.trans ?_⟩
  rw [← hslots.output]

theorem routine (site : Site) (r : Routine) : (e.routine site r).Puts fun _ => r.Pushes := by
  induction r with
  | finish status => exact TickM.Restores.puts (.pure _) fun _ => rfl
  | suspend payload => exact TickM.Restores.puts (.suspend site _) fun _ => rfl
  | reject => exact TickM.Restores.puts (.rejectPayload site) fun _ => rfl
  | look next ih =>
    refine .bind .env fun env => .bind .time fun now => .bind .owner fun tag => .bind .interrupted fun flag => ?_
    exact (ih ⟨env, now, tag, flag⟩).mono fun values hvalues => ⟨_, hvalues⟩
  | write name value next ih => exact .bind (.set name value) fun _ => ih
  | remember name value next ih =>
    refine .bind (.modifyEnv fun env => ?_) fun _ => ih
    cases value <;> exact ⟨rfl, rfl⟩
  | plant id payload next ih => exact .bind (.node id) fun _ => .bind (.modifyEnv fun _ => ⟨rfl, rfl⟩) fun _ => ih
  | push value next ih =>
    intro c t
    refine (ih c _).mono ?_ fun _ _ _ => trivial
    rintro _ u ⟨hinput, values, hvalues, houtput⟩
    refine ⟨hinput, value :: values, ⟨values, rfl, hvalues⟩, ?_⟩
    rw [houtput]
    exact List.append_assoc _ _ _
  | interrupt next ih => exact .bind .interrupt fun _ => ih
  | note v next ih => exact .bind (.modifyWorld _) fun _ => ih
  | run id next ih => exact .bind (he.run id) fun status => (ih status).mono fun values hvalues => ⟨_, hvalues⟩
  | childStatus next ih => exact .bind (.childStatus site) fun status => (ih status).mono fun values hvalues => ⟨_, hvalues⟩

/-- Whatever the nodes push that a process calls, it finds only what it pushed itself, behind what was there. -/
theorem behave (site : Site) (b : Behavior) : (e.behave site b).Puts (b.Pushes site) := by
  cases b with
  | sequence | selector => exact (he.resumeChain site _).puts fun _ => rfl
  | parallel => exact (he.parallel site).puts fun _ => rfl
  | race => exact (he.race site).puts fun _ => rfl
  | switch => exact (he.switch site).puts fun _ => rfl
  | case => exact TickM.Restores.puts (.bind .tree fun _ => .fail _) fun _ => rfl
  | ifElse => exact (he.ifElse site).puts fun _ => rfl
  | forEach => exact (he.forEach site).puts fun _ => rfl
  | loop count => exact (he.loop site count).puts fun _ => rfl
  | watchdog => exact (he.watchdog site).puts fun _ => rfl
  | repeated limit policy => exact (he.repeated site limit policy).puts fun _ => rfl
  | invert | always => exact (he.wrap site _).puts fun _ => rfl
  | once => exact (he.once site).puts fun _ => rfl
  | timeout limit => exact (he.timeout site limit).puts fun _ => rfl
  | delay span cache =>
    exact TickM.Restores.puts (.bind .owner fun _ => .bind .env fun _ => .bind (.child site 0) fun _ =>
      .bind (.modifyWorld _) fun _ => .pure _) fun _ => rfl
  | wait span => exact (wait site span).puts fun _ => rfl
  | listen event => exact (listen site event).puts fun _ => rfl
  | dispatch event => exact (dispatchNode e site event).puts fun _ => rfl
  | check expr =>
    refine TickM.Restores.puts (.bind (evaluate site expr) fun result => ?_) fun _ => rfl
    cases result <;> exact .pure _
  | calculate expr => exact calculate site expr
  | copy => exact fun c t => ⟨rfl, _, rfl, rfl⟩
  | isNull | notNull => exact TickM.Restores.puts (.bind inputIsNull fun _ => .pure _) fun _ => rfl
  | log level text => exact TickM.Restores.puts (.bind .env fun _ => .bind (.report _) fun _ => .pure _) fun _ => rfl
  | now => exact fun c t => ⟨rfl, _, rfl, rfl⟩
  | leaf react => exact leaf site react
  | routine steps => exact he.routine site (steps site)

end Restoring

end Engine

/-! ### Running a node -/

/-- The last value for a slot with a name, which is what its variable becomes; a slot without a name keeps nothing. -/
def Site.written? (site : Site) (values : List (Option Value)) (name : String) : Option (Option Value) :=
  if name = "" then none else (site.output.zip values).reverse.lookup name

/-- How a run of a node ends that started in `t`, for each way in which its process may end. The caller's slot values
are there again in any case, and only a process that has ended by itself has anything written. -/
def Node.Ends (n : Node) (c : Activation) (t : Tick σ) : Outcome σ Status → Outcome σ Status → Prop
  | .halted h, o => o = .halted h
  | .failed e t₁, o => ∃ u, o = .failed e u ∧ t.env.SameSlots u.env ∧ u.env.vars = t₁.env.vars
  | .ok status t₁, o =>
    (t₁.env.input = n.input.map t.env.get? ∧ n.behavior.Pushes n.toSite (n.entered c t) t₁.env.output) ∧
    if (t₁.world.instanceOf c.owner).interrupted ∨ status = .running then
      ∃ u, o = .ok .running u ∧ t.env.SameSlots u.env ∧ u.env.vars = t₁.env.vars
    else
      ∃ u, (o = .ok status u ∨ o = .failed (.corruptStack c.tree.name n.id t₁.env.stack.top?) u) ∧
        t.env.SameSlots u.env ∧
        ∀ name, u.env.get? name = (n.written? t₁.env.output name).getD (t₁.env.get? name)

theorem Node.Ends.restores {n : Node} {c : Activation} {t : Tick σ} {process o : Outcome σ Status}
    (h : n.Ends c t process o) :
    o.Meets (fun _ u => t.env.SameSlots u.env) (fun _ u => t.env.SameSlots u.env) fun _ => True := by
  cases process with
  | halted _ =>
    subst h
    trivial
  | failed e t₁ =>
    obtain ⟨u, rfl, hu, -⟩ := h
    exact hu
  | ok status t₁ =>
    obtain ⟨-, h⟩ := h
    split at h
    · obtain ⟨u, rfl, hu, -⟩ := h
      exact hu
    · obtain ⟨u, rfl | rfl, hu, -⟩ := h
      · exact hu
      · exact hu

namespace Engine

open TickM

theorem get?_writeOutputs (env : Env) (names : List String) (values : List (Option Value)) (name : String) :
    (writeOutputs env names values).get? name =
      if name = "" then env.get? name else ((names.zip values).reverse.lookup name).getD (env.get? name) := by
  unfold writeOutputs
  induction names.zip values generalizing env with
  | nil => simp
  | cons pair pairs ih =>
    obtain ⟨key, value⟩ := pair
    have hstep : (if key = "" then env else env.set key value).get? name =
        if name = "" then env.get? name else if name = key then value else env.get? name := by
      split <;> grind [Env.get?_set]
    rw [List.foldl_cons, ih, List.reverse_cons, List.lookup_append, hstep]
    cases pairs.reverse.lookup name with
    | some found => grind
    | none =>
      rw [Option.none_or, List.lookup_cons, List.lookup_nil]
      grind

variable {e : Engine σ}

theorem conclude_running (n : Node) (output : List (Option Value)) (c : Activation) (v : Tick σ) :
    ∃ u, conclude n .running output c v = .ok .running u ∧ v.env.SameSlots u.env ∧ u.env.vars = v.env.vars := by
  rw [conclude_running_eq]
  split
  · exact ⟨_, rfl, ⟨rfl, rfl⟩, rfl⟩
  · exact ⟨_, rfl, ⟨rfl, rfl⟩, rfl⟩

/-- A node that has ended has its outputs written, also if its frame is not on top then. -/
theorem conclude_ended (n : Node) {status : Status} (hs : status ≠ .running) (output : List (Option Value))
    (c : Activation) (v : Tick σ) :
    ∃ u, (conclude n status output c v = .ok status u ∨
        conclude n status output c v = .failed (.corruptStack c.tree.name n.id v.env.stack.top?) u) ∧
      v.env.SameSlots u.env ∧ ∀ name, u.env.get? name = (n.written? output name).getD (v.env.get? name) := by
  obtain ⟨vars, hvars⟩ := exists_vars_writeOutputs { v.env with lastStatus := status } n.output output
  have hget (name : String) : vars[name]? = (n.written? output name).getD (v.env.get? name) := by
    have hwritten := get?_writeOutputs { v.env with lastStatus := status } n.output output name
    rw [hvars] at hwritten
    refine hwritten.trans ?_
    unfold Site.written?
    split <;> rfl
  rw [conclude_ended_eq hs, hvars, leaveFrame_apply]
  split
  · exact ⟨_, .inl rfl, ⟨rfl, rfl⟩, hget⟩
  · exact ⟨_, .inr rfl, ⟨rfl, rfl⟩, hget⟩

theorem closeNode_ends {n : Node} {c : Activation} {t u : Tick σ} {before : Env} (resumed : Bool) (status : Status)
    (hbefore : t.env.SameSlots before)
    (hown : u.env.input = n.input.map t.env.get? ∧ n.behavior.Pushes n.toSite (n.entered c t) u.env.output) :
    n.Ends c t (.ok status u) (closeNode n resumed before (.ok status) c u) := by
  have hslots : t.env.SameSlots { u.env with input := before.input, output := before.output } :=
    ⟨hbefore.input, hbefore.output⟩
  obtain ⟨w, -, hclose⟩ := closeNode_ok n resumed before status c u
  refine ⟨hown, ?_⟩
  rw [hclose]
  by_cases hflag : (u.world.instanceOf c.owner).interrupted = true
  · rw [if_pos hflag, if_pos (.inl hflag)]
    exact ⟨_, rfl, hslots, rfl⟩
  · rw [if_neg hflag]
    by_cases hs : status = .running
    · rw [if_pos (.inr hs), hs]
      obtain ⟨u', ho, hu, hvars⟩ := conclude_running n u.env.output c ⟨_, w⟩
      exact ⟨u', ho, hslots.trans hu, hvars⟩
    · rw [if_neg (not_or.mpr ⟨hflag, hs⟩)]
      obtain ⟨u', ho, hu, hget⟩ := conclude_ended n hs u.env.output c ⟨_, w⟩
      exact ⟨u', ho, hslots.trans hu, hget⟩

/-- A run of a node ends as its process does, at any depth. -/
theorem Restoring.runNode_ends (he : e.Restoring) (n : Node) (c : Activation) (t : Tick σ) :
    n.Ends c t (e.behave n.toSite n.behavior c (n.entered c t)) (e.runNode n c t) := by
  have hputs := he.behave n.toSite n.behavior c (n.entered c t)
  have hbefore : t.env.SameSlots (if t.env.isSuspended n.id then t else t.pushed n.id).env := by
    split <;> exact ⟨rfl, rfl⟩
  have hentered : (n.entered c t).env.input = n.input.map t.env.get? ∧ (n.entered c t).env.output = [] := by
    unfold Node.entered
    split <;> exact ⟨rfl, rfl⟩
  rw [runNode_eq, runFramed_eq, bind_apply, attempt_apply, ← Node.entered]
  cases ho : e.behave n.toSite n.behavior c (n.entered c t) with
  | halted h => rfl
  | failed err u => exact ⟨_, rfl, hbefore.trans ⟨rfl, rfl⟩, rfl⟩
  | ok status u =>
    rw [ho] at hputs
    obtain ⟨hinput, values, hvalues, houtput⟩ := hputs
    refine closeNode_ends _ status hbefore ⟨hinput.trans hentered.1, ?_⟩
    rw [houtput, hentered.2, List.nil_append]
    exact hvalues

/-- All calls give the slots back: a run of a node as its own end, and resuming because it calls nodes only. -/
theorem restoring_ofDepth (depth : Nat) : (ofDepth depth : Engine σ).Restoring := by
  induction depth with
  | zero => exact ⟨fun _ => .halt _, fun _ => .halt _⟩
  | succ depth ih =>
    refine ⟨fun id => .bind (.node id) fun n => ?_, fun level => ?_⟩
    · exact fun c t => (ih.runNode_ends n c t).restores
    refine .bind .env fun env => ?_
    split
    · exact .pure _
    · split
      · exact .pure _
      · refine .bind (ih.run _) fun status => ?_
        split
        · exact .pure _
        · exact ih.resume level

/-- Whatever is called on the way, a node that has run leaves its caller the slot values that it found, and of what it
pushed itself it writes what has a name, the last value for a name counting, but only once it has ended. -/
theorem runNode_slots (depth : Nat) (n : Node) (c : Activation) (t : Tick σ) :
    n.Ends c t ((ofDepth depth).behave n.toSite n.behavior c (n.entered c t)) ((ofDepth depth).runNode n c t) :=
  (restoring_ofDepth depth).runNode_ends n c t

end Engine

end BehaviorTree
