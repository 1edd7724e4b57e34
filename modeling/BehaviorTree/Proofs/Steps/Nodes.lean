import BehaviorTree.Proofs.Engine.Outcome
import BehaviorTree.Proofs.Steps.Loops

/-!
A run of a node of a tree of steps with its frame and its slots: a node plays its reading on top of the frames that it
finds, and a leaf takes one of its ticks.
-/

namespace BehaviorTree
set_option autoImplicit false

open TickM

variable {σ : Type} {S : Script} {o : Tag} {e : Engine σ} {t u v : Tick σ} {n : Node} {id : NodeId} {base : List NodeId}
  {cells : List Cell} {r : Reading} {s : Status} {p : Payload} {c : Activation} {resumed : Bool}

namespace Tick

def popped (t : Tick σ) : Tick σ := { t with env := t.env.popFrame }

/-- A run of a node that began at `t` is over when its behavior has come to `v`. -/
structure Closes (c : Activation) (n : Node) (t v : Tick σ) (s : Status) (u : Tick σ) : Prop where
  env : u.env =
    { (if s = .running then v.env else v.env.popFrame) with
      input := t.env.input, output := t.env.output, lastStatus := s }
  world : ∃ journal, u.world = { v.world with journal }
  acts : u.world.acts c.owner = v.world.acts c.owner ++ [.returned n.id (some s)]

/-- What a behavior that wrote no outputs leaves to its node. -/
structure Settled (c : Activation) (n : Node) (s : Status) (v : Tick σ) : Prop where
  output : v.env.output = []
  calm : (v.world.instanceOf c.owner).interrupted = false
  running : s = .running → v.env.isSuspended n.id
  finished : s ≠ .running → v.env.stack.top? = some n.id

end Tick

theorem Engine.gives_conclude {Q : Status → Tick σ → Prop} (hr : s = .running → v.env.isSuspended n.id)
    (ho : s ≠ .running → v.env.stack.top? = some n.id)
    (hq : Q s { v with env := { (if s = .running then v.env else v.env.popFrame) with lastStatus := s } }) :
    (conclude n s [] c v).Gives Q := by
  have hout : ∀ env, writeOutputs env n.output [] = env := fun env => by simp [writeOutputs]
  unfold conclude
  rw [gives_bind, gives_modifyEnv]
  cases s with
  | running =>
    have hsuspended : ({ v.env with lastStatus := .running } : Env).isSuspended n.id := hr rfl
    simp only [gives_bind, gives_env, hsuspended, if_true]
    exact hq
  | success =>
    have htop : ({ v.env with lastStatus := .success } : Env).stack.top? = some n.id := ho (by simp)
    simp only [gives_bind, gives_modifyEnv, leaveFrame, gives_env, hout, htop, if_true]
    exact hq
  | failure =>
    have htop : ({ v.env with lastStatus := .failure } : Env).stack.top? = some n.id := ho (by simp)
    simp only [gives_bind, gives_modifyEnv, leaveFrame, gives_env, hout, htop, if_true]
    exact hq

/-- A node that has its frame does what its behavior does. -/
theorem Engine.gives_runFramed {Q : Status → Tick σ → Prop}
    (h : (e.behave n.toSite n.behavior c (t.opened c n resumed)).Gives fun s v =>
      v.Settled c n s ∧ ∀ u, t.Closes c n v s u → Q s u) :
    (e.runFramed n resumed c t).Gives Q := by
  simp only [runFramed, withSlots, gives_bind, gives_observe, gives_env, gives_modifyEnv, gives_pure]
  refine gives_attempt (h.mono fun s v hsettled => ?_)
  obtain ⟨hv, hq⟩ := hsettled
  have hcalm : ((v.world.observe c.owner (.returned n.id (some s))).instanceOf c.owner).interrupted = false := hv.calm
  have hacts : (v.world.observe c.owner (.returned n.id (some s))).acts c.owner =
      v.world.acts c.owner ++ [.returned n.id (some s)] := by
    rw [World.acts_observe, if_pos rfl]
  simp only [gives_ofExcept_ok, gives_interrupted, hv.output, Except.toOption, hcalm, Bool.false_eq_true, if_false]
  split
  · rw [gives_bind, gives_report]
    refine gives_conclude hv.running hv.finished (hq _ ⟨?_, ⟨_, rfl⟩, ?_⟩)
    · cases s <;> rfl
    · exact (World.acts_report ..).trans hacts
  · refine gives_conclude hv.running hv.finished (hq _ ⟨?_, ⟨_, rfl⟩, hacts⟩)
    cases s <;> rfl

theorem Temps.place_erase {temps : Temps} (h : id ∈ cells.map Prod.fst) :
    Temps.place (temps.erase id) cells = temps.place cells := by
  induction cells with
  | nil => simp at h
  | cons cell cells ih =>
    rw [Temps.place_cons, Temps.place_cons]
    by_cases hmem : id ∈ cells.map Prod.fst
    · rw [ih hmem]
    · have hcell : cell.1 = id := by
        rw [List.map_cons, List.mem_cons] at h
        exact (h.resolve_right hmem).symm
      rw [hcell, ← Temps.place_insert _ hmem, ← Temps.place_insert _ hmem, Temps.insert_erase]

theorem Temps.place_ne_none {temps : Temps} (h : id ∈ cells.map Prod.fst) : (temps.place cells)[id]? ≠ none := by
  induction cells with
  | nil => simp at h
  | cons cell cells ih =>
    rw [Temps.place_cons, Temps.get_insert]
    split
    · simp
    · rename_i hne
      rw [List.map_cons, List.mem_cons] at h
      exact ih (h.resolve_left (Ne.symm hne))

theorem Env.popFrame_eq {env : Env} (h : env.stack.frames = id :: base) :
    env.popFrame = { env with stack := ⟨base⟩, temps := env.temps.erase id } := by
  simp [Env.popFrame, Stack.pop, h]

theorem Tick.popped_pushed (h : t.env.temps[id]? = none) : (t.pushed id).popped = t := by
  rw [Tick.popped, pushed, Env.popFrame_eq rfl, Temps.erase_of_none h]

theorem World.visits_of_acts {w w' : World σ} {t : Tree} {acts : List Activity} (h : w'.acts o = w.acts o ++ acts) :
    w'.visits t o = w.visits t o ++ acts.filterMap t.visit? := by
  rw [World.visits, h, List.filterMap_append]
  rfl

namespace Tick

theorem seen_opened : (t.opened ⟨o, S.tree⟩ n resumed).seen S o = t.seen S o := by
  have hacts : (t.opened ⟨o, S.tree⟩ n resumed).world.acts o = t.world.acts o ++ [.called n.id resumed] := by
    rw [opened, World.acts_observe, if_pos rfl]
  exact (World.visits_of_acts hacts).trans (List.append_nil _)

namespace Closes

variable (h : t.Closes ⟨o, S.tree⟩ n v s u)
include h

theorem seen : u.seen S o = v.seen S o ++ (S.tree.visit? (.returned n.id (some s))).toList := by
  rw [Tick.seen, World.visits_of_acts h.acts]
  simp only [List.filterMap_cons, List.filterMap_nil]
  cases S.tree.visit? (.returned n.id (some s)) <;> rfl

theorem same (hv : (t.opened ⟨o, S.tree⟩ n resumed).Same S v) : t.popped.Same S u := by
  obtain ⟨journal, hw⟩ := hv.world
  obtain ⟨journal', hw'⟩ := h.world
  refine ⟨⟨journal', ?_⟩, fun {name} hname => ?_, ?_, ?_⟩
  · rw [hw', hw]
    rfl
  · have hvars : u.env.vars = v.env.vars := by
      rw [h.env]
      cases s <;> rfl
    rw [hvars]
    exact hv.vars hname
  · rw [h.env]
    rfl
  · rw [h.env]
    rfl

theorem lastStatus : u.env.lastStatus = s := by rw [h.env]

theorem stack_of_running (hs : s = .running) : u.env.stack = v.env.stack := by rw [h.env, if_pos hs]

theorem temps_of_running (hs : s = .running) : u.env.temps = v.env.temps := by rw [h.env, if_pos hs]

theorem env_of_ended (hs : s ≠ .running) (hframes : t.env.stack.frames = n.id :: base)
    (hstack : v.env.stack = t.env.stack) :
    u.env.stack = t.popped.env.stack ∧ u.env.temps = v.env.temps.erase n.id := by
  rw [h.env, if_neg hs, Env.popFrame_eq (hstack ▸ hframes), popped, Env.popFrame_eq hframes]
  exact ⟨rfl, rfl⟩

end Closes

end Tick

namespace Script

theorem readings_ne_running (n : Node) : ∀ r ∈ S.readings n, r.status ≠ .running := by
  intro r hr
  obtain ⟨x, -, rfl⟩ := List.mem_map.mp hr
  exact reading_ne_running x

/-- If the leaves end, so does what is left of a node. -/
theorem rest_ne_running (hn : S.tree.get? n.id = some n) (hs : s ≠ .running) : (S.rest n p s).status ≠ .running := by
  have hrs := S.readings_ne_running n
  have hgo : ∀ {next : Status} {rs : List Reading}, next ≠ .running → (∀ r ∈ rs, r.status ≠ .running) →
      (Reading.goOn next rs s).status ≠ .running := fun hnext hrs => by
    rw [Reading.goOn]
    split
    · exact Reading.chain_ne_running hnext hrs
    · exact hs
  have hdrop : ∀ i, ∀ r ∈ (S.readings n).drop i, r.status ≠ .running := fun i r hr => hrs r (List.mem_of_mem_drop hr)
  have hloop : ∀ i count, (Reading.goOn .success ((S.readings n).drop i ++ S.repeats n count) s).status ≠ .running := by
    refine fun i count => hgo (by simp) fun r hr => ?_
    rcases List.mem_append.mp hr with hr | hr
    · exact hdrop i r hr
    · obtain ⟨rs, hmem, hr⟩ := List.mem_flatten.mp hr
      exact hrs r (List.eq_of_mem_replicate hmem ▸ hr)
  have hplain := S.orderly.plain hn
  rw [rest]
  unfold Behavior.rest
  split
  · exact hgo (by simp) (hdrop _)
  · exact hgo (by simp) (hdrop _)
  · split
    · exact hs
    · split
      · exact Reading.nth_ne_running hrs _
      · exact Reading.cases_ne_running (hdrop _)
  · split
    · exact Reading.nth_ne_running hrs _
    · exact Reading.nth_ne_running hrs _
  · exact hloop _ _
  · exact hloop _ _
  · rw [Reading.finished_status]
    split <;> simp
  · rename_i hb
    rw [hb] at hplain
    exact hplain
  · exact hs

theorem due_ne_running (hn : S.tree.get? n.id = some n) (h : t.Called S o n base) :
    (S.due n t.env.temps[n.id]? t.env.lastStatus).status ≠ .running := by
  cases hp : t.env.temps[n.id]? with
  | none => exact reading_ne_running n.id
  | some p => exact rest_ne_running hn (h.ended hp)

structure Inner (S : Script) (n : Node) : Prop where
  get : S.tree.get? n.id = some n
  case : n.behavior ≠ .case
  leaf (react : Leaf) : n.behavior ≠ .leaf react

theorem Inner.isLeaf (h : S.Inner n) : S.tree.isLeaf n.id = false := by
  have hleaf := h.leaf
  rw [Tree.isLeaf, h.get]
  cases hb : n.behavior <;> simp_all

theorem Plays.closes (hplays : S.Plays o n.id (t.opened ⟨o, S.tree⟩ n resumed) base r s v) (hin : S.Inner n)
    (hr : r.status ≠ .running) (hframes : t.env.stack.frames = n.id :: base) (hu : t.Closes ⟨o, S.tree⟩ n v s u) :
    S.Plays o n.id t.popped base r s u := by
  have hseen : u.seen S o = v.seen S o := by
    rw [hu.seen, Tree.visit?]
    simp [hin.isLeaf]
  have hpopped : t.popped.env.temps = t.env.temps.erase n.id := by rw [Tick.popped, Env.popFrame_eq hframes]
  cases hplays with
  | ended same stack temps seen swift =>
    obtain ⟨hstack, htemps⟩ := hu.env_of_ended hr hframes stack
    refine .ended (hu.same same) hstack ?_ ?_ swift
    · rw [htemps, temps, hpopped]
      rfl
    · rw [hseen, seen, Tick.seen_opened]
      rfl
  | @waits _ x done left below same frames temps seen cut swift ticks leaf path rest =>
    refine .waits (hu.same same) ?_ ?_ ?_ cut swift ticks leaf path rest
    · rw [hu.stack_of_running rfl]
      exact frames
    · rw [hu.temps_of_running rfl, hpopped, Temps.place_erase path.mem]
      exact temps
    · rw [hseen, seen, Tick.seen_opened]
      rfl

variable (he : ∀ x ∈ S.tree.started n, e.Performs S o x) (hin : S.Inner n)
include he hin

theorem plays_behave (h : t.Enters S o n base) :
    (e.behave n.toSite n.behavior ⟨o, S.tree⟩ t).Gives
      (S.Acts o n base t (S.due n t.env.temps[n.id]? t.env.lastStatus)) := by
  have hscripted := S.scripted.node hin.get
  cases hb : n.behavior with
  | sequence => exact plays_sequence hin.get he hb h
  | selector => exact plays_selector hin.get he hb h
  | switch => exact plays_switch hin.get hb he h
  | ifElse => exact plays_ifElse hin.get he hb h
  | forEach => exact plays_forEach hin.get he hb h
  | loop count => exact plays_loop hin.get he hb h
  | invert => exact plays_invert hin.get he hb h
  | always status => exact plays_always hin.get he hb h
  | case => exact absurd hb hin.case
  | leaf react => exact absurd hb (hin.leaf react)
  | _ =>
    rw [Node.Scripted, hb] at hscripted
    exact hscripted.elim

theorem plays_runFramed (h : t.Called S o n base) :
    (e.runFramed n resumed ⟨o, S.tree⟩ t).Gives fun s u =>
      S.Plays o n.id t.popped base (S.due n t.env.temps[n.id]? t.env.lastStatus) s u ∧ u.env.lastStatus = s := by
  have hdue := due_ne_running hin.get h
  have hready : (t.opened ⟨o, S.tree⟩ n resumed).Ready S o (S.rank n.id) :=
    ⟨h.ready.clear, h.ready.vars, h.ready.calm⟩
  have henters : (t.opened ⟨o, S.tree⟩ n resumed).Enters S o n base := ⟨⟨⟨hready, h.frames⟩, h.saves, h.ended⟩, rfl⟩
  refine Engine.gives_runFramed ((plays_behave he hin henters).mono fun s v hv => ⟨?_, fun u hu => ?_⟩)
  · cases hv with
    | ended same stack temps seen swift =>
      refine ⟨same.output, ?_, fun hs => absurd hs hdue, fun _ => ?_⟩
      · rw [same.instanceOf]
        exact hready.calm
      · rw [stack]
        exact congrArg List.head? h.frames
    | @waits _ x done left below same frames temps seen cut swift ticks leaf path rest =>
      refine ⟨same.output, ?_, fun _ => ?_, fun hs => absurd rfl hs⟩
      · rw [same.instanceOf]
        exact hready.calm
      · rw [Env.isSuspended_eq, temps, Option.isSome_iff_ne_none]
        exact Temps.place_ne_none path.mem
  · exact ⟨hv.closes hin hdue h.frames hu, hu.lastStatus⟩

theorem plays_runNode (h : t.Ready S o (S.rank n.id + 1)) :
    (e.runNode n ⟨o, S.tree⟩ t).Gives fun s u =>
      S.Plays o n.id t t.env.stack.frames (S.reading n.id) s u ∧ u.env.lastStatus = s := by
  have hnone : t.env.temps[n.id]? = none := h.clear (Nat.lt_succ_self _)
  have hcalled : (t.pushed n.id).Called S o n t.env.stack.frames := by
    refine ⟨⟨⟨fun hr => h.clear (Nat.lt_succ_of_lt hr), h.vars, h.calm⟩, rfl⟩, fun hp => ?_, fun hp => ?_⟩
    · exact absurd (hp.symm.trans hnone) (by simp)
    · exact absurd (hp.symm.trans hnone) (by simp)
  simp only [Engine.runNode, gives_bind, gives_env, Env.isSuspended_eq, hnone, Option.isSome_none, Bool.false_eq_true,
    if_false, gives_modifyEnv]
  refine (plays_runFramed he hin hcalled).mono fun s u hplays => ⟨?_, hplays.2⟩
  have hu := hplays.1
  rw [Tick.popped_pushed hnone] at hu
  exact (show S.due n t.env.temps[n.id]? t.env.lastStatus = S.reading n.id by rw [hnone]; rfl) ▸ hu

/-- A suspended node on top of the stack plays what its payload leaves. -/
theorem plays_resumed (hp : t.env.temps[n.id]? = some p) (h : t.Called S o n base) :
    (e.runNode n ⟨o, S.tree⟩ t).Gives fun s u =>
      S.Plays o n.id t.popped base (S.rest n p t.env.lastStatus) s u ∧ u.env.lastStatus = s := by
  simp only [Engine.runNode, gives_bind, gives_env, Env.isSuspended_eq, hp, Option.isSome_some, if_true]
  have hdue : S.due n t.env.temps[n.id]? t.env.lastStatus = S.rest n p t.env.lastStatus := by
    rw [hp]
    rfl
  rw [← hdue]
  exact plays_runFramed he hin h

end Script

end BehaviorTree
