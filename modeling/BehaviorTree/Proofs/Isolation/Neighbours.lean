import BehaviorTree.Proofs.Isolation.Parallel
import BehaviorTree.Proofs.Life.Protocol
import BehaviorTree.Proofs.World.Sharing

/-!
Instances that live in one world. As long as their nodes dispatch no events, what is done with one of them, and the
time that passes, is all that matters to it: whatever is done with the others meanwhile, its operations give the same
results and leave it in the same states as if the others had never been there.
-/

namespace BehaviorTree
set_option autoImplicit false

variable {σ α β : Type}

/-! ### Computations that follow others -/

def WorldM.Follows (W : World σ → World σ → Prop) (m m' : WorldM σ α) : Prop :=
  ∀ ⦃w w' u : World σ⦄ ⦃a : α⦄, W w w' → m.run w = .ok (a, u) → ∃ u', m'.run w' = .ok (a, u') ∧ W u u'

namespace WorldM

variable {W : World σ → World σ → Prop}

theorem InStep.follows {m m' : WorldM σ α} (h : InStep W m m') : Follows W m m' := by
  intro w w' u a hw hm
  have hends := h hw
  rw [hm] at hends
  generalize m'.run w' = r' at hends
  cases hends with
  | ok _ hu => exact ⟨_, rfl, hu⟩

theorem Follows.pure (a : α) : Follows W (pure a) (Pure.pure a) := (InStep.pure a).follows

theorem Follows.bind {m m' : WorldM σ α} {f f' : α → WorldM σ β} (hm : Follows W m m')
    (hf : ∀ a, Follows W (f a) (f' a)) : Follows W (m >>= f) (m' >>= f') := by
  intro w w' u b hw h
  obtain ⟨a, v, hv, hu⟩ := (run_bind_eq_ok w).mp h
  obtain ⟨v', hv', hvv⟩ := hm hw hv
  obtain ⟨u', hu', huu⟩ := hf a hvv hu
  exact ⟨u', (run_bind_eq_ok w').mpr ⟨a, v', hv', hu'⟩, huu⟩

/-- Something may come first that keeps the worlds related by itself. -/
theorem Follows.after {m : WorldM σ α} {f : α → WorldM σ β} {m' : WorldM σ β}
    (hm : ∀ ⦃w w' u : World σ⦄ ⦃a : α⦄, W w w' → m.run w = .ok (a, u) → W u w') (hf : ∀ a, Follows W (f a) m') :
    Follows W (m >>= f) m' := by
  intro w w' u b hw h
  obtain ⟨a, v, hv, hu⟩ := (run_bind_eq_ok w).mp h
  exact hf a (hm hw hv) hu

end WorldM

/-! ### Calls at every depth -/

section Depth

variable {o p : Tag} {W : World σ → World σ → Prop} (hW : World.Mirrors o (fun _ => True) Node.Quiet (Listener.Of o) W)
include hW

/-- If nodes dispatch no events, and only those of an instance listen to it, its calls stay in step. -/
theorem Engine.inStep_ofDepth (depth : Nat) :
    Engine.InStep o (fun _ => True) Node.Quiet (Listener.Of o) W (Engine.ofDepth depth) (Engine.ofDepth depth) := by
  induction depth with
  | zero =>
    exact
      { mirrors := hW
        heeds := fun {n} _ => n.heeds_all
        run := fun _ _ _ _ _ _ => .halted _
        resume := fun _ _ _ _ _ _ => .halted _
        runPending := .throw _
        tell := hW.tell fun _ _ _ => .throw _
        dispatch := fun hn hb => absurd hb (hn _) }
  | succ depth ih =>
    refine ih.deeper (hW.tell ?_) fun hn hb => absurd hb (hn _)
    rintro _ event ⟨listener, child, rfl⟩
    exact ih.schedule trivial

theorem Engine.inStep_alarm (depth : Nat) (job : Job) :
    WorldM.InStep W ((Engine.ofDepth depth).alarm (.job o job)) ((Engine.ofDepth depth).alarm (.job o job)) := by
  cases depth with
  | zero => exact .throw _
  | succ depth => exact (Engine.inStep_ofDepth hW depth).schedule job.heeds_all

end Depth

theorem World.Shares.of_apart {o : Tag} {w w' u : World σ} {m : WorldM σ α} {a : α} (h : w.Shares o w')
    (hm : WorldM.InStep (fun w v => v = w ∧ w.Shares o w') m m) (hr : m.run w = .ok (a, u)) : u.Shares o w' := by
  obtain ⟨u', hu', rfl, hu⟩ := hm.follows ⟨rfl, h⟩ hr
  exact hu

/-! ### Time -/

section Time

variable {o : Tag} {w w' : World σ}

theorem Agenda.of_later {κ : Type} (a : Agenda κ) (o : Tag) (now : Float) :
    ({ a with pending := a.pending.filter (¬·.expiry ≤ now) } : Agenda κ).of o = (a.of o).filter (¬·.expiry ≤ now) := by
  unfold of
  rw [List.filter_map, List.filter_filter, List.filter_filter]
  congr 1
  apply List.filter_congr
  intro x _
  exact Bool.and_comm _ _

theorem World.Files.later {r : Roster (Listener σ)} {a : Agenda (Alarm σ)} (h : w.Files r a) {now : Float}
    {delays : Delays (Alarm σ)} (hd : delays.Lists { a with pending := a.pending.filter (¬·.expiry ≤ now) }) :
    ({ w with time := now, delays } : World σ).Files r { a with pending := a.pending.filter (¬·.expiry ≤ now) } :=
  ⟨h.roster, hd, h.ordered.filter _, h.listens, fun x hx => h.waits x (List.mem_of_mem_filter hx), h.quiet⟩

/-- At a later time both worlds set off the same of the instance that they share, in the same order. -/
theorem World.Shares.takeDue (h : w.Shares o w') (now : Float) :
    ∃ batch batch' : List (Appointment (Alarm σ)),
      (w.delays.takeDue now).1 = batch.map (·.callback) ∧ (w'.delays.takeDue now).1 = batch'.map (·.callback) ∧
      batch'.map Appointment.entry = (batch.filter (·.tag = o)).map Appointment.entry ∧
      (∀ x ∈ batch, ∃ job, x.callback = .job x.tag job) ∧
      ({ w with time := now, delays := (w.delays.takeDue now).2 } : World σ).Shares o
        { w' with time := now, delays := (w'.delays.takeDue now).2 } := by
  obtain ⟨r, a, r', a', hw, hw', hr, ha, halone⟩ := h.filed
  obtain ⟨batch, hbatch, -, hdue, hlater⟩ := hw.agenda.takeDue now
  obtain ⟨batch', hbatch', -, hdue', hlater'⟩ := hw'.agenda.takeDue now
  have hall : a'.of o = a'.pending.map Appointment.entry := by
    unfold Agenda.of
    rw [List.filter_eq_self.mpr fun x hx => decide_eq_true (halone x hx)]
  refine ⟨batch, batch', hdue, hdue', ?_, ?_, rfl, h.there, h.instanceOf, h.given, r, _, r', _, hw.later hlater,
    hw'.later hlater', hr, ?_, ?_⟩
  · exact Batch.map_entry (hall.symm.trans ha) (hw.ordered.filter _) hw'.ordered (hbatch.filter _) hbatch'
  · exact fun x hx => hw.waits x ((hbatch.mem_iff x).mp hx).1
  · rw [Agenda.of_later, Agenda.of_later, ha]
  · exact fun x hx => halone x (List.mem_of_mem_filter hx)

theorem Engine.follows_alarms (depth : Nat) {batch batch' : List (Appointment (Alarm σ))}
    (hsame : batch'.map Appointment.entry = (batch.filter (·.tag = o)).map Appointment.entry)
    (hjobs : ∀ x ∈ batch, ∃ job, x.callback = .job x.tag job) :
    WorldM.Follows (World.Shares o) ((batch.map (·.callback)).forM (Engine.ofDepth depth).alarm)
      ((batch'.map (·.callback)).forM (Engine.ofDepth depth).alarm) := by
  induction batch generalizing batch' with
  | nil =>
    rw [List.filter_nil, List.map_nil, List.map_eq_nil_iff] at hsame
    subst hsame
    exact .pure _
  | cons x batch ih =>
    obtain ⟨job, hjob⟩ := hjobs x List.mem_cons_self
    have hrest : ∀ y ∈ batch, ∃ job, y.callback = .job y.tag job := fun y hy => hjobs y (List.mem_cons_of_mem x hy)
    rw [List.map_cons, hjob]
    by_cases ho : x.tag = o
    · subst ho
      rw [List.filter_cons_of_pos (by simp), List.map_cons] at hsame
      obtain ⟨x', rest, rfl, hx', hrest'⟩ := List.map_eq_cons_iff.mp hsame
      have hcallback : x'.callback = .job x.tag job := (congrArg PendingDelay.callback hx').trans hjob
      rw [List.map_cons, hcallback]
      refine .bind (WorldM.InStep.follows ?_) fun _ => ih hrest' hrest
      exact Engine.inStep_alarm (World.mirrors_shares x.tag) depth job
    · rw [List.filter_cons_of_neg (by simpa using ho)] at hsame
      refine .after ?_ fun _ => ih hsame hrest
      intro w w' u _ hw hu
      exact hw.of_apart (Engine.inStep_alarm (World.mirrors_apart (Ne.symm ho) w') depth job) hu

theorem Engine.follows_update (depth : Nat) (dt : Float) :
    WorldM.Follows (World.Shares (σ := σ) o) ((Engine.ofDepth depth).update dt) ((Engine.ofDepth depth).update dt) := by
  intro w w' u _ hw hu
  obtain ⟨batch, batch', hdue, hdue', hsame, hjobs, hshares⟩ := hw.takeDue (w.time + dt)
  have hrun : ∀ v : World σ, ((Engine.ofDepth depth).update dt).run v =
      ((v.delays.takeDue (v.time + dt)).1.forM (Engine.ofDepth depth).alarm).run
        { v with time := v.time + dt, delays := (v.delays.takeDue (v.time + dt)).2 } := fun _ => rfl
  rw [hrun, hdue] at hu
  rw [hrun, hw.time, hdue']
  exact Engine.follows_alarms depth hsame hjobs hshares hu

end Time

/-! ### Newcomers -/

section Newcomers

variable {o : Tag} {w w' : World σ} {tree : Tree}

theorem World.Shares.create (h : w.Shares o w') (htree : tree.Quiet) (vars : Variables) :
    (w.create tree vars).2.Shares o w' := by
  obtain ⟨r, a, r', a', hw, hw', hr, ha, halone⟩ := h.filed
  have hne : o ≠ ⟨w.nextTag⟩ := fun he => Nat.lt_irrefl _ (congrArg Tag.index he ▸ h.given)
  have hcreate : (w.create tree vars).2 =
      ({ w with nextTag := w.nextTag + 1 } : World σ).modifyInstance ⟨w.nextTag⟩ fun _ => { tree, env := { vars } } := rfl
  have hgiven : ({ w with nextTag := w.nextTag + 1 } : World σ).Files r a := hw.of_eq rfl rfl rfl
  rw [hcreate]
  refine ⟨h.time, ?_, ?_, Nat.lt_succ_of_lt h.given, r, a, r', a', hgiven.modify htree, hw', hr, ha, halone⟩
  · rw [World.contains_modifyInstance, decide_eq_false (Ne.symm hne), Bool.false_or]
    exact h.there
  · rw [World.instanceOf_modifyInstance_of_ne hne]
    exact h.instanceOf

/-- An instance that is the first is shared with any world that begins in the same way. -/
theorem World.Fresh.shares (h : w.Fresh) (htree : tree.Quiet) (vars : Variables) :
    (w.create tree vars).2.Shares (w.create tree vars).1 (w.create tree vars).2 := by
  have hbare : ∀ p id n, ((w.instanceOf p).tree).get? id = some n → n.Quiet := by
    intro p id n hn
    have hnone : w.instanceOf p = {} := by
      rw [World.instanceOf, h.instances, Std.ExtTreeMap.getD_empty]
    rw [hnone] at hn
    change (∅ : Std.ExtTreeMap NodeId Node)[id]? = some n at hn
    rw [Std.ExtTreeMap.getElem?_empty] at hn
    cases hn
  have hw : w.Files {} {} :=
    ⟨h.subscriptions ▸ Subscriptions.lists_empty, h.delays ▸ Delays.lists_empty, .nil, List.forall_mem_nil _,
      List.forall_mem_nil _, hbare⟩
  have hcreate : (w.create tree vars).2 =
      ({ w with nextTag := w.nextTag + 1 } : World σ).modifyInstance ⟨w.nextTag⟩ fun _ => { tree, env := { vars } } := rfl
  have hgiven : ({ w with nextTag := w.nextTag + 1 } : World σ).Files {} {} := hw.of_eq rfl rfl rfl
  have hfiles : (w.create tree vars).2.Files {} {} := hcreate ▸ hgiven.modify htree
  exact ⟨rfl, rfl, rfl, Nat.lt_succ_self _, {}, {}, {}, {}, hfiles, hfiles, rfl, rfl, List.forall_mem_nil _⟩

end Newcomers

/-! ### Turns -/

/-- What a host does with instances. -/
inductive Turn where
  | create (tree : Tree) (vars : Variables)
  | run (owner : Tag)
  | interrupt (owner : Tag)
  | clear (owner : Tag)
  | setTree (owner : Tag) (tree : Tree)
  | drop (owner : Tag)
  | update (dt : Float)

inductive Answer where
  | ran (result : Except RunError Status)
  | given (result : Except RunError Unit)
  | done

namespace Turn

/-- A turn is about an instance if it is its own, or lets time pass. -/
def concerns (o : Tag) : Turn → Bool
  | .create .. => false
  | .run p | .interrupt p | .clear p | .setTree p _ | .drop p => p = o
  | .update _ => true

/-- A turn brings no trees whose nodes dispatch events. -/
def Quiet : Turn → Prop
  | .create tree _ | .setTree _ tree => tree.Quiet
  | _ => True

/-- Takes a turn, and goes on with what it gives. -/
def program (next : Answer → Program σ) : Turn → Program σ
  | .create tree vars => .create tree vars fun _ => next .done
  | .run owner => .run owner fun result => next (.ran result)
  | .interrupt owner => .interrupt owner (next .done)
  | .clear owner => .clear owner (next .done)
  | .setTree owner tree => .setTree owner tree fun result => next (.given result)
  | .drop owner => .drop owner (next .done)
  | .update dt => .update dt (next .done)

end Turn

/-- What is seen of an instance after a turn: what the turn gave, and the state that the instance is in. -/
abbrev Sighting := Answer × Env

/-- Takes turns, and writes down what is seen of an instance after each that is about it. -/
def Program.watching (o : Tag) : List Turn → List Sighting → Program (List Sighting)
  | [], seen => .store seen .done
  | turn :: turns, seen =>
    turn.program fun answer =>
      if turn.concerns o then .look fun v => watching o turns (seen ++ [(answer, v.env o)])
      else watching o turns seen

namespace Turn

/-- What is done for a turn. -/
def perform (e : Engine σ) : Turn → WorldM σ Answer
  | .create tree vars => do
    let _ ← Engine.apply (·.create tree vars)
    return .done
  | .run owner => do return .ran (← Engine.withInstance owner (.error Engine.noRoot) (e.runTree owner))
  | .interrupt owner => do
    Engine.withInstance owner () (e.interruptTree owner)
    return .done
  | .clear owner => do
    Engine.withInstance owner () (e.clearTree owner)
    return .done
  | .setTree owner tree => do
    return .given (← Engine.withInstance owner (.error Engine.noRoot) (Engine.setTree owner tree))
  | .drop owner => do
    Engine.withInstance owner () (modify (·.drop owner))
    return .done
  | .update dt => do
    e.update dt
    return .done

theorem perform_program (e : Engine σ) (turn : Turn) (next : Answer → Program σ) :
    e.perform (turn.program next) = turn.perform e >>= fun answer => e.perform (next answer) := by
  cases turn <;> simp only [program, perform, Engine.perform, bind_assoc, pure_bind]

variable {o : Tag} {turn : Turn}

theorem inStep_perform {p : Tag} {W : World σ → World σ → Prop}
    (hW : World.Mirrors p (fun _ => True) Node.Quiet (Listener.Of p) W) (depth : Nat) (hquiet : turn.Quiet)
    (hp : turn.concerns p) (hdt : ∀ dt, turn ≠ .update dt) :
    WorldM.InStep W (turn.perform (Engine.ofDepth depth)) (turn.perform (Engine.ofDepth depth)) := by
  have he := Engine.inStep_ofDepth hW depth
  cases turn with
  | create => cases hp
  | update dt => exact absurd rfl (hdt dt)
  | run q =>
    obtain rfl := of_decide_eq_true hp
    exact .bind (Engine.InStep.withInstance hW he.runTree) fun _ => .pure _
  | interrupt q =>
    obtain rfl := of_decide_eq_true hp
    exact .bind (Engine.InStep.withInstance hW he.interruptTree) fun _ => .pure _
  | clear q =>
    obtain rfl := of_decide_eq_true hp
    exact .bind (Engine.InStep.withInstance hW he.clearTree) fun _ => .pure _
  | setTree q tree =>
    obtain rfl := of_decide_eq_true hp
    exact .bind (Engine.InStep.withInstance hW (Engine.InStep.setTree hW hquiet)) fun _ => .pure _
  | drop q =>
    obtain rfl := of_decide_eq_true hp
    refine .bind (Engine.InStep.withInstance hW (.modify fun w w' hw => hW.release ?_)) fun _ => .pure _
    exact hW.flag (fun _ _ => rfl) (fun _ => rfl) (fun _ => rfl) (fun _ _ => id) hw

/-- A turn that is about an instance goes the same in both worlds that share it. -/
theorem follows_perform (depth : Nat) (hquiet : turn.Quiet) (ho : turn.concerns o) :
    WorldM.Follows (World.Shares (σ := σ) o) (turn.perform (Engine.ofDepth depth))
      (turn.perform (Engine.ofDepth depth)) := by
  cases turn with
  | update dt => exact (Engine.follows_update depth dt).bind fun _ => .pure _
  | _ => exact (inStep_perform (World.mirrors_shares o) depth hquiet ho nofun).follows

theorem shares_perform {w w' u : World σ} {answer : Answer} {depth : Nat} (hquiet : turn.Quiet)
    (ho : ¬ turn.concerns o) (h : w.Shares o w') (hu : (turn.perform (Engine.ofDepth depth)).run w = .ok (answer, u)) :
    u.Shares o w' := by
  have hown : ∀ p, turn.concerns p → u.Shares o w' := by
    intro p hp
    have hne : o ≠ p := by
      rintro rfl
      exact ho hp
    refine h.of_apart (inStep_perform (World.mirrors_apart hne w') depth hquiet hp ?_) hu
    rintro dt rfl
    exact ho rfl
  cases turn with
  | create tree vars =>
    obtain ⟨-, rfl⟩ := Prod.mk.inj (Except.ok.inj hu)
    exact h.create hquiet vars
  | update => exact absurd rfl ho
  | run p | interrupt p | clear p | setTree p | drop p => exact hown p (decide_eq_true rfl)

end Turn

/-- What is seen of an instance is the same if only the turns are taken that are about it. -/
theorem Engine.follows_watching {o : Tag} {turns : List Turn} {depth : Nat} {seen : List Sighting}
    {w w' u : World (List Sighting)} (hturns : ∀ turn ∈ turns, turn.Quiet) (h : w.Shares o w')
    (hu : ((Engine.ofDepth depth).perform (.watching o turns seen)).run w = .ok ((), u)) :
    ∃ u', ((Engine.ofDepth depth).perform (.watching o (turns.filter (·.concerns o)) seen)).run w' = .ok ((), u') ∧
      u'.host = u.host := by
  induction turns generalizing seen w w' with
  | nil =>
    obtain ⟨-, rfl⟩ := Prod.mk.inj (Except.ok.inj hu)
    exact ⟨_, rfl, rfl⟩
  | cons turn turns ih =>
    have hquiet := hturns turn List.mem_cons_self
    have hrest : ∀ turn ∈ turns, turn.Quiet := fun t ht => hturns t (List.mem_cons_of_mem _ ht)
    rw [Program.watching, Turn.perform_program] at hu
    obtain ⟨answer, v, hv, hnext⟩ := (run_bind_eq_ok w).mp hu
    by_cases ho : turn.concerns o
    · rw [if_pos ho] at hnext
      obtain ⟨v', hv', hshares⟩ := Turn.follows_perform depth hquiet ho h hv
      obtain ⟨u', hu', hhost⟩ := ih hrest hshares hnext
      refine ⟨u', ?_, hhost⟩
      rw [List.filter_cons_of_pos ho, Program.watching, Turn.perform_program]
      refine (run_bind_eq_ok w').mpr ⟨answer, v', hv', ?_⟩
      have henv : v'.overview.env o = v.overview.env o := congrArg Instance.env hshares.instanceOf
      rw [if_pos ho, Engine.perform, run_get_bind, henv]
      exact hu'
    · rw [if_neg ho] at hnext
      rw [List.filter_cons_of_neg ho]
      exact ih hrest (Turn.shares_perform hquiet ho h hv) hnext

/-- Instances do not interfere. Of an instance whose nodes dispatch no events, in a world of such instances that was made
before any other, the same is seen as if the others were not there: what its operations give, and the state that it is
in after each of them and whenever time has passed. -/
theorem World.Fresh.noninterference {w : World (List Sighting)} (hw : w.Fresh) {tree : Tree} (htree : tree.Quiet)
    {turns : List Turn} (hturns : ∀ turn ∈ turns, turn.Quiet) {vars : Variables} {depth : Nat}
    {u : World (List Sighting)}
    (hu : World.perform depth (.create tree vars fun o => .watching o turns []) w = .ok u) :
    ∃ u', World.perform depth (.create tree vars fun o => .watching o (turns.filter (·.concerns o)) []) w = .ok u' ∧
      u'.host = u.host := by
  have hcreated : ((Engine.ofDepth depth).perform (.watching (w.create tree vars).1 turns [])).run
      (w.create tree vars).2 = .ok ((), u) := World.run_of_perform hu
  obtain ⟨u', hu', hhost⟩ := Engine.follows_watching hturns (hw.shares htree vars) hcreated
  exact ⟨u', congrArg (Except.map Prod.snd) hu', hhost⟩

namespace Chorus

/-- Appends a label when a run has ended, and another one in each of two ticks. -/
def nodes : List Node :=
  [bareNode 0 "Sequence" .sequence [⟨1⟩, ⟨3⟩],
    bareNode 1 "Listen" (.listen Lifecycle.afterRun.name) [⟨2⟩],
    bareNode 2 "Step" (.leaf (Workbench.stepLeaf (.string "told") 0 .success)) [],
    bareNode 3 "Step" (.leaf (Workbench.stepLeaf (.string "a") 1 .success)) []]

theorem quiet : (treeOf nodes).Quiet := by
  intro id n hn
  have hmem := mem_of_get?_treeOf hn
  simp only [nodes, List.mem_cons, List.not_mem_nil, or_false] at hmem
  rcases hmem with rfl | rfl | rfl | rfl
  all_goals exact nofun

/-- Two instances of one tree, the second of which is cleared and given up while the first goes on. -/
def turns : List Turn :=
  [.create (treeOf nodes) ∅, .run ⟨0⟩, .run ⟨1⟩, .update 1, .clear ⟨1⟩, .run ⟨0⟩, .run ⟨1⟩, .drop ⟨1⟩, .run ⟨0⟩]

def statuses (seen : List Sighting) : List Status :=
  seen.filterMap fun sighting =>
    match sighting.1 with
    | .ran (.ok status) => some status
    | _ => none

theorem turns_quiet : ∀ turn ∈ turns, turn.Quiet := by
  intro turn hturn
  simp only [turns, List.mem_cons, List.not_mem_nil, or_false] at hturn
  rcases hturn with rfl | rfl | rfl | rfl | rfl | rfl | rfl | rfl | rfl
  · exact quiet
  all_goals trivial

end Chorus

open Chorus in
/-- The first of two instances of one tree ends its run in its second tick, and begins another one. -/
theorem noninterference_chorus : ∃ u u' : World (List Sighting),
    World.perform 6 (.create (treeOf nodes) ∅ fun o => .watching o turns []) { registry := ∅, host := [] } = .ok u ∧
      World.perform 6 (.create (treeOf nodes) ∅ fun o => .watching o (turns.filter (·.concerns ⟨0⟩)) [])
        { registry := ∅, host := [] } = .ok u' ∧
      u'.host = u.host ∧ statuses u.host = [.running, .success, .running] := by
  have hruns : (World.perform 6 (.create (treeOf nodes) ∅ fun o => .watching o turns [])
      { registry := ∅, host := [] }).toOption.any (fun u => statuses u.host == [.running, .success, .running]) = true := by
    decide +kernel
  obtain ⟨u, hu, hseen⟩ := exists_ok_of_any hruns
  obtain ⟨u', hu', hhost⟩ := World.Fresh.noninterference ⟨rfl, rfl, rfl, fun _ => rfl⟩ quiet turns_quiet hu
  exact ⟨u, u', hu, hu', hhost, beq_iff_eq.mp hseen⟩

end BehaviorTree
