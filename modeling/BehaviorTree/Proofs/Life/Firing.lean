import BehaviorTree.Proofs.Life.Moves
import BehaviorTree.Proofs.Life.Requests
import Mathlib.Data.List.Forall2

/-!
Firings of listening nodes are neither lost nor doubled nor reordered. Every listener that hears an event queues one
job, in the order in which the listeners are heard; and unless what waits is dropped, the jobs that were queued are
those that start, in the same order, each with the state of the instance to itself.
-/

namespace BehaviorTree
set_option autoImplicit false

variable {σ : Type} {w w' : World σ} {o : Tag} {c d : Course} {n : Nat}

namespace Activity

/-- The job that starts. -/
def begun? : Activity → Option Job
  | started job => some job
  | _ => none

def Prompt (acts : List Activity) : Prop :=
  ∀ pre job post, acts = pre ++ .started job :: post → ∃ before, pre = before ++ [.entered]

variable {acts more : List Activity} {a : Activity}

theorem Prompt.concat (h : Prompt acts) (ha : ∀ job, a = .started job → ∃ before, acts = before ++ [.entered]) :
    Prompt (acts ++ [a]) := by
  intro pre job post heq
  obtain rfl | ⟨post, b, rfl⟩ := List.eq_nil_or_concat post
  · obtain ⟨rfl, hlast⟩ := List.append_inj' heq rfl
    exact ha job (List.singleton_inj.mp hlast)
  · have hinit : acts = pre ++ .started job :: post := by
      have hassoc : acts ++ [a] = (pre ++ .started job :: post) ++ [b] := by
        rw [heq, List.append_assoc, List.cons_append, List.concat_eq_append]
      exact (List.append_inj' hassoc rfl).1
    exact h pre job post hinit

end Activity

namespace World

theorem Step.dropped (h : w.Step w') (ho : o.index < w.nextTag) (hd : (w.instanceOf o).dropped = true) :
    (w'.instanceOf o).dropped = true := by
  -- an instance that changes, if it is this one, stays dropped
  have hchange : ∀ {v : World σ} {p : Tag} {f : Instance → Instance}, v.instanceOf o = w.instanceOf o →
      (∀ i, i.dropped = true → (f i).dropped = true) → ((v.modifyInstance p f).instanceOf o).dropped = true := by
    intro v p f hv hf
    by_cases hp : o = p
    · subst hp
      rw [instanceOf_modifyInstance_self, hv]
      exact hf _ hd
    · rwa [instanceOf_modifyInstance_of_ne hp, hv]
  cases h with
  | create tree vars =>
    have hne : o ≠ ⟨w.nextTag⟩ := by
      rintro rfl
      exact Nat.lt_irrefl _ ho
    change ((World.modifyInstance { w with nextTag := w.nextTag + 1 } ⟨w.nextTag⟩ fun _ =>
      { tree, env := { vars } }).instanceOf o).dropped = true
    rwa [instanceOf_modifyInstance_of_ne hne]
  | releaseTag tag => rwa [instanceOf, instances_releaseTag]
  | modify p hf => exact hchange rfl fun i hi => (hf i).dropped hi
  | assign p name value => exact hchange (f := fun i => { i with env := i.env.set name value }) rfl fun _ hi => hi
  | leave p env => exact hchange (f := fun i => { i with env }) rfl fun _ hi => hi
  | unwind p hf => exact hchange rfl hf
  | _ => exact hd

theorem Moves.dropped (h : w.Moves w') (ho : o.index < w.nextTag) (hd : (w.instanceOf o).dropped = true) :
    (w'.instanceOf o).dropped = true := by
  induction h with
  | refl => exact hd
  | tail hm hs ih => exact hs.dropped (Nat.lt_of_lt_of_le ho (Moves.later hm)) ih

/-- An instance that was not given up, or executes. -/
def Kept (w : World σ) (o : Tag) : Prop := (w.instanceOf o).dropped = false ∨ (w.instanceOf o).executing = true

theorem Kept.before (hk : w'.Kept o) (hm : w.Moves w') (hg : Guest o w w') (ho : o.index < w.nextTag) : w.Kept o := by
  cases hd : (w.instanceOf o).dropped with
  | false => exact .inl hd
  | true =>
    have hlost := hm.dropped ho hd
    refine .inr (hg.executing.symm.trans (hk.resolve_left fun hx => ?_))
    exact absurd (hlost.symm.trans hx) (by decide)

end World

/-- What is seen of an instance while a listener hears an event. A listening node of the instance queues one job, with
the event; the job waits if the instance executes, and else starts at once. While the instance executes nothing of it
starts for others. -/
inductive Listener.Seen (o : Tag) (event : Event) (executing : Bool) : Listener σ → List Activity → Prop
  | waits (listener child : NodeId) (h : executing = true) :
      Seen o event executing (.node o listener child) [.queued (.fired listener child event)]
  | starts (listener child : NodeId) (rest : List Activity) (h : executing = false) :
      Seen o event executing (.node o listener child)
        (.queued (.fired listener child event) :: .entered :: .started (.fired listener child event) :: rest)
  | other {l : Listener σ} {acts : List Activity} (hl : l.owner? ≠ some o)
      (hq : executing = true → ∀ a ∈ acts, a.Quiet false) : Seen o event executing l acts

open World

namespace Engine

theorem runPending_starts (n : Nat) {job : Job} {rest : List Job} (hj : (w.instanceOf o).pending = job :: rest) :
    w.Then ((ofDepth n).runPending o) fun _ w' =>
      ∃ acts, w'.acts o = w.acts o ++ .entered :: .started job :: acts := by
  cases n with
  | zero => exact (then_throw _).mpr trivial
  | succ n =>
    refine ((moving_ofDepth n).runNext_cons hj).mono fun _ w' hw' => ?_
    obtain ⟨acts, hacts⟩ := hw'.acts o
    refine ⟨acts, ?_⟩
    rw [hacts, World.begun, acts_observe, acts_observe, acts_modifyInstance, if_pos rfl, if_pos rfl, List.append_assoc,
      List.append_assoc]
    rfl

theorem drain_starts {job : Job} {rest : List Job} (hj : (w.instanceOf o).pending = job :: rest) :
    w.Then ((ofDepth n).drain o) fun _ w' => ∃ acts, w'.acts o = w.acts o ++ .entered :: .started job :: acts := by
  have hlocked : ((w.lock o).instanceOf o).pending = job :: rest := by
    rw [World.lock, instanceOf_modifyInstance_self]
    exact hj
  simp only [Engine.drain, whileExecuting, then_bind, then_get, then_modify]
  refine (runPending_starts n hlocked).mono fun _ w₁ hw₁ => ?_
  obtain ⟨acts, hacts⟩ := hw₁
  have hserved : w₁.Then (if (w₁.instanceOf o).interrupted then (ofDepth n).interruptNow o else pure ())
      fun _ => w₁.Moves := by
    split
    · exact (moving_ofDepth n).interruptNow .refl
    · exact (then_pure _).mpr .refl
  refine hserved.mono fun _ w₂ hw₂ => ?_
  obtain ⟨more, hmore⟩ := hw₂.acts o
  refine ⟨acts ++ more, ?_⟩
  rw [acts_modifyInstance, hmore, hacts, World.lock, acts_modifyInstance, List.append_assoc]
  rfl

theorem schedule_waits {e : Engine σ} (hb : (w.instanceOf o).executing = true) (job : Job) :
    w.Then (e.schedule o job) fun _ w' => w'.acts o = w.acts o ++ [.queued job] := by
  simp only [Engine.schedule, then_bind, then_get, hb, Bool.not_true, Bool.and_false, Bool.false_eq_true, if_false,
    if_true, then_modify, then_pure]
  rw [acts_modifyInstance, acts_observe, if_pos rfl]

/-- A job that comes for an idle instance starts at once, unless the instance was given up. -/
theorem schedule_starts (hw : w.Coherent) (hb : (w.instanceOf o).executing = false)
    (hd : (w.instanceOf o).dropped = false) (job : Job) :
    w.Then ((ofDepth n).schedule o job) fun _ w' =>
      ∃ rest, w'.acts o = w.acts o ++ .queued job :: .entered :: .started job :: rest := by
  obtain ⟨c, hc⟩ := hw.stands o
  have hnone : (w.instanceOf o).pending = [] := (hc.here.quiet (hc.here.still hb)).1
  have hqueue : (((w.observe o (.queued job)).modifyInstance o fun i =>
      { i with pending := i.pending ++ [job] }).instanceOf o).pending = [job] := by
    rw [instanceOf_modifyInstance_self]
    change (w.instanceOf o).pending ++ [job] = [job]
    rw [hnone, List.nil_append]
  simp only [Engine.schedule, then_bind, then_get, hb, hd, Bool.false_and, Bool.false_eq_true, if_false, then_modify]
  refine (drain_starts hqueue).mono fun _ w' hw' => ?_
  obtain ⟨rest, hrest⟩ := hw'
  refine ⟨rest, ?_⟩
  rw [hrest, acts_modifyInstance, acts_observe, if_pos rfl, List.append_assoc]
  rfl

theorem hear_seen {l : Listener σ} (event : Event) (hw : w.Coherent) (hl : ∀ p, l.owner? = some p → p.index < w.nextTag)
    (hk : w.Kept o) :
    w.Then ((ofDepth n).hear l event) fun _ w' =>
      ∃ acts, w'.acts o = w.acts o ++ acts ∧ l.Seen o event (w.instanceOf o).executing acts := by
  by_cases hown : l.owner? = some o
  · cases l with
    | host react => cases hown
    | node owner listener child =>
      obtain rfl : owner = o := Option.some.inj hown
      cases n with
      | zero => exact (then_throw _).mpr trivial
      | succ n =>
        change w.Then ((ofDepth n).schedule owner (.fired listener child event)) _
        cases hb : (w.instanceOf owner).executing with
        | true => exact (schedule_waits hb _).mono fun _ w' hw' => ⟨_, hw', .waits listener child rfl⟩
        | false =>
          have hd := hk.resolve_right fun hx => absurd (hx.symm.trans hb) (by decide)
          refine (schedule_starts hw hb hd _).mono fun _ w' hw' => ?_
          obtain ⟨rest, hrest⟩ := hw'
          exact ⟨_, hrest, .starts listener child rest rfl⟩
  · refine ((civil_ofDepth n).hear event hw hl).mono fun _ w' hw' => ?_
    obtain ⟨c, hc⟩ := hw.stands o
    obtain ⟨acts, _, hacts, hquiet, _⟩ := (hw'.guest o).course hc
    exact ⟨acts, hacts, .other hown hquiet⟩

/-- What is seen of an instance when listeners hear an event one after the other. -/
theorem forM_hear_seen {ls : List (Listener σ)} (event : Event) (hw : w.Coherent) (ho : o.index < w.nextTag)
    (hl : ∀ l ∈ ls, ∀ p, l.owner? = some p → p.index < w.nextTag) :
    w.Then (ls.forM fun l => (ofDepth n).hear l event) fun _ w' => w'.Kept o →
      ∃ parts : List (List Activity), w'.acts o = w.acts o ++ parts.flatten ∧
        List.Forall₂ (Listener.Seen o event (w.instanceOf o).executing) ls parts := by
  induction ls generalizing w with
  | nil => exact (then_pure _).mpr fun _ => ⟨[], (List.append_nil _).symm, .nil⟩
  | cons l ls ih =>
    refine (then_bind _ _).mpr fun _ w₁ h₁ _ w' h' hk => ?_
    have hgiven := hl l List.mem_cons_self
    have hw₁ : w.Continues w₁ := (civil_ofDepth n).hear event hw hgiven () w₁ h₁
    have hm₁ : w.Moves w₁ := (moving_ofDepth n).hear l event .refl () w₁ h₁
    have hlater : ∀ l ∈ ls, ∀ p, l.owner? = some p → p.index < w₁.nextTag := fun l hmem p hp =>
      Nat.lt_of_lt_of_le (hl l (List.mem_cons_of_mem _ hmem) p hp) hw₁.later
    have hrest : w₁.Continues w' ∧ w₁.Moves w' := by
      refine then_forM (P := fun v => w₁.Continues v ∧ w₁.Moves v) ⟨.refl hw₁.coherent, .refl⟩ ?_ () w' h'
      intro l hmem v hv _ v' hr
      refine ⟨hv.1.trans ((civil_ofDepth n).hear event hv.1.coherent (fun p hp => ?_) () v' hr), ?_⟩
      · exact Nat.lt_of_lt_of_le (hlater l hmem p hp) hv.1.later
      · exact (moving_ofDepth n).hear l event hv.2 () v' hr
    -- an instance that is not given up in the end was not before
    have hk₁ : w₁.Kept o := hk.before hrest.2 (hrest.1.guest o) (Nat.lt_of_lt_of_le ho hw₁.later)
    obtain ⟨acts, hacts, hseen⟩ := hear_seen event hw hgiven (hk₁.before hm₁ (hw₁.guest o) ho) () w₁ h₁
    obtain ⟨parts, hparts, hall⟩ := ih hw₁.coherent (Nat.lt_of_lt_of_le ho hw₁.later) hlater () w' h' hk
    refine ⟨acts :: parts, ?_, .cons hseen ?_⟩
    · rw [hparts, hacts, List.append_assoc, List.flatten_cons]
    · rwa [(hw₁.guest o).executing] at hall

/-- Every listener that hears an event when it is dispatched is heard once, in the order in which they subscribed. -/
theorem dispatch_seen {key : EventKey} {args : List Value} {heard : Nat} (hw : w.Coherent) (ho : o.index < w.nextTag)
    (hr : ((ofDepth n).dispatch key args).run w = .ok (heard, w')) (hk : w'.Kept o) :
    heard = (w.subscriptions.callbacks key).length ∧
      ∃ parts : List (List Activity), w'.acts o = w.acts o ++ parts.flatten ∧
        List.Forall₂ (Listener.Seen o ⟨key.name, key.target, args⟩ (w.instanceOf o).executing)
          (w.subscriptions.callbacks key) parts := by
  have hgiven : ∀ l ∈ w.subscriptions.callbacks key, ∀ p, l.owner? = some p → p.index < w.nextTag := by
    intro l hl p hp
    obtain ⟨id, entry, hentry, rfl⟩ := Subscriptions.mem_callbacks hl
    exact (hw.listeners hentry hp).2
  have hall : w.Then ((ofDepth n).dispatch key args) fun heard w' =>
      heard = (w.subscriptions.callbacks key).length ∧ (w'.Kept o → ∃ parts : List (List Activity),
        w'.acts o = w.acts o ++ parts.flatten ∧
          List.Forall₂ (Listener.Seen o ⟨key.name, key.target, args⟩ (w.instanceOf o).executing)
            (w.subscriptions.callbacks key) parts) := by
    simp only [Engine.dispatch, then_bind, then_get, then_pure]
    exact (forM_hear_seen _ hw ho hgiven).mono fun _ _ h => ⟨trivial, h⟩
  exact (hall heard w' hr).imp_right fun h => h hk

end Engine

def Activity.isUnwound : Activity → Bool
  | unwound => true
  | _ => false

end BehaviorTree
