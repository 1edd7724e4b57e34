import BehaviorTree.Proofs.World.Lifetime

/-!
Runs of an instance. A tick goes on where the tree was suspended, or begins at the root; it ends with the tree
suspended again just when it returns that it is running, unless an interruption is asked for, which is served before
the run returns.
-/

namespace BehaviorTree
set_option autoImplicit false

open TickM

variable {σ : Type} {R : Rules σ} {c : Activation} {t u : Tick σ} {e : Engine σ} {w w' : World σ} {owner : Tag}
  {i i' : Instance}

theorem Env.Ordered.not_region_of_stray {tree : Tree} {env : Env} {spilled : Bool} {z : NodeId}
    (ho : env.Ordered tree spilled) (ht : tree.Orderly) (hz : env.Stray z) : ¬ tree.Region tree.root z := by
  intro hr
  rcases ho.main with ⟨_, hidle⟩ | hsus
  · exact hz.payload (hidle z hr)
  · obtain ⟨spot, hspot⟩ := hsus.exists_spot ht hr hz.payload
    cases spot with
    | none => exact hz.stack hspot
    | some yk =>
      obtain ⟨_, p, s, hp, hs, hm⟩ := hspot
      exact hz.nested hp (List.mem_flatMap.mpr ⟨s, List.mem_of_getElem? hs, hm⟩)

theorem Env.Ordered.beside_root {tree : Tree} {env : Env} {spilled : Bool} (ho : env.Ordered tree spilled)
    (ht : tree.Orderly) : tree.Beside env tree.root [] :=
  ho.beside ht Tree.base_root id fun hs => ⟨hs, fun hl => ht.listens_ne_root hl rfl⟩

/-- If there are no frames, the root is about to be run afresh. -/
theorem Tick.Runs.fresh_root (hr : t.Runs R c) (hrests : R.Rests c.tree t.env (t.watch c).spilled)
    (hswap : R.swap = false) (hnil : t.env.stack.frames = []) : t.Fresh R c c.tree.root := by
  have ht := hr.orderly
  have ho := hrests.ordered hswap
  have hidle : c.tree.Idle t.env.temps c.tree.root := by
    rcases ho.main with ⟨_, hidle⟩ | hsus
    · exact hidle
    · exact absurd hnil hsus.ne_nil
  exact ⟨hr, hrests.fits, by simp [hnil], hidle, ht.entered_of_base Tree.base_root, fun _ => hnil ▸ ho.beside_root ht,
    fun _ _ hc => absurd hc (Tree.not_cleansUp_of_base ht Tree.base_root)⟩

/-- If there are frames, they are about to be resumed. -/
theorem Tick.Runs.resumes_root (hr : t.Runs R c) (hrests : R.Rests c.tree t.env (t.watch c).spilled)
    (hswap : R.swap = false) (hne : t.env.stack.frames ≠ []) : t.Resumes R c c.tree.root [] := by
  have ho := hrests.ordered hswap
  refine ⟨hr, hrests.fits, by simp, .inr ?_, fun _ => ho.beside_root hr.orderly⟩
  rcases ho.main with ⟨hnil, _⟩ | hsus
  · exact absurd hnil hne
  · obtain ⟨x, n, p, below, hframes, hpath, haw, hready⟩ := hsus.cases
    exact ⟨x, below, n, p, by rw [hframes, List.append_nil], hpath, hready, fun hn => absurd haw hn⟩

theorem Env.Ordered.of_tick {happ : ∀ x ∈ ([] : List NodeId), ¬ c.tree.Region c.tree.root x}
    (ho : t.env.Ordered c.tree (t.watch c).spilled) (ht : c.tree.Orderly)
    (hf : (Zone.above c.tree.root [] happ).From R t u) (hspilled : (u.watch c).spilled = (t.watch c).spilled)
    (hmain : u.env.stack.frames = [] ∧ c.tree.Idle u.env.temps c.tree.root ∨
      c.tree.Suspended u.env.temps c.tree.root u.env.stack.frames) :
    u.env.Ordered c.tree (u.watch c).spilled := by
  have htemps : ∀ {x}, ¬ c.tree.Region c.tree.root x → u.env.temps[x]? = t.env.temps[x]? :=
    fun hx => hf.keeps.temps hx
  have hdet : ∀ {l}, u.env.detached[l]? = t.env.detached[l]? := hf.keeps.detached fun hn => hn
  have helse : ∀ {j x}, c.tree.Base j → j ≠ c.tree.root → c.tree.Region j x → u.env.temps[x]? = t.env.temps[x]? :=
    fun hj hne hx => htemps fun hr => hne (ht.base_unique hj Tree.base_root hx hr)
  have hbelow : ∀ {x y : NodeId} {p : Payload}, c.tree.Region c.tree.root x → u.env.temps[x]? = some p →
      y ∈ p.nestedFrames → c.tree.Below x y := by
    intro x y p hx hp hy
    rcases hmain with ⟨_, hidle⟩ | hsus
    · rw [hidle x hx] at hp
      cases hp
    · obtain ⟨s, hs, hy⟩ := List.mem_flatMap.mp hy
      obtain ⟨d, hd, hdsus⟩ := hsus.nested ht hx hp hs
      exact ⟨d, hd, (hdsus.mem_frames hy).1⟩
  rw [hspilled]
  refine ⟨hmain, ?_, ?_, ?_, ?_, ?_, ?_, ?_⟩
  · intro x hx
    by_cases hr : c.tree.Region c.tree.root x
    · exact ⟨_, Tree.base_root, hr⟩
    · rw [htemps hr] at hx
      exact ho.based hx
  · intro x y p hp hy
    by_cases hr : c.tree.Region c.tree.root x
    · exact hbelow hr hp hy
    · rw [htemps hr] at hp
      exact ho.inward hp hy
  · intro l s hl
    rw [hdet] at hl
    exact ho.detached hl
  · intro l j s hw hl hs
    rw [hdet] at hs
    exact (ho.parked hw hl hs).congr ht fun x hx => helse hl.base (ht.listens_ne_root hl) hx
  · intro l j hw hl hs
    rw [hdet] at hs
    exact (ho.unparked hw hl hs).congr fun x hx => helse hl.base (ht.listens_ne_root hl) hx
  · intro d j hw hd
    exact (ho.delayed hw hd).congr fun x hx => helse hd.base (ht.putsOff_ne_root hd) hx
  · intro hw
    obtain ⟨z, hz⟩ := ho.stray hw
    have hroot := ho.not_region_of_stray ht hz
    refine ⟨z, ?_, ?_, ?_, ?_⟩
    · rw [htemps hroot]
      exact hz.payload
    · intro hm
      rcases hmain with ⟨hnil, _⟩ | hsus
      · rw [hnil] at hm
        cases hm
      · exact hroot (hsus.mem_frames hm).1
    · intro l s hl
      rw [hdet] at hl
      exact hz.detached hl
    · intro x p hp hm
      by_cases hr : c.tree.Region c.tree.root x
      · exact hroot (hr.trans (hbelow hr hp hm).region)
      · rw [htemps hr] at hp
        exact hz.nested hp hm

structure Tick.Ticked (R : Rules σ) (c : Activation) (t : Tick σ) (result : Except RunError Status) (u : Tick σ) :
    Prop where
  runs : u.Runs R c
  advances : t.world.Advances (!R.swap) (Part.working.only c.owner) u.world
  rests {status : Status} : result = .ok status → ¬ u.Flagged c → R.Rests c.tree u.env (u.watch c).spilled
  running {status : Status} : result = .ok status → ¬ u.Flagged c → R.swap = false →
    (status = .running ↔ u.env.stack ≠ ∅)
  blames {error : RunError} : result = .error error → R.swap = false → c.tree.Blames error

namespace Engine

namespace Sound

variable (he : e.Sound R)
include he

omit he in
theorem working {z : Zone c.tree} (h : z.From R t u) :
    t.world.Advances (!R.swap) (Part.working.only c.owner) u.world := by
  refine h.advances.mono id ?_
  intro o j j' acts _ _ hallow
  by_cases ho : o = c.owner
  · subst ho
    rw [Part.only_self] at hallow ⊢
    exact Instance.Carries.works hallow
  · rw [Part.only_of_ne ho] at hallow
    exact hallow.of_guest

omit he in
theorem ticked_of_ran (ho : t.env.Ordered c.tree (t.watch c).spilled) (ht : c.tree.Orderly) {status : Status}
    (h : t.Ran R c c.tree.root [] status u) : t.Ticked R c (.ok status) u := by
  obtain ⟨happ, hf⟩ := h.stays
  have hends : ¬ u.Flagged c → (u.env.stack.frames = [] ∧ c.tree.Idle u.env.temps c.tree.root ∧ status ≠ .running) ∨
      c.tree.Suspended u.env.temps c.tree.root u.env.stack.frames ∧ status = .running := by
    intro hnot
    by_cases hs : status = .running
    · obtain ⟨above, hframes, hsus⟩ := h.ends.suspended hnot hs
      rw [List.append_nil] at hframes
      exact .inr ⟨by rw [hframes]; exact hsus, hs⟩
    · obtain ⟨hframes, hidle, _⟩ := h.ends.ended hs
      exact .inl ⟨hframes, hidle, hs⟩
  refine ⟨hf.runs, working hf, ?_, ?_, by simp⟩
  · intro _ _ hnot
    refine ⟨hf.holds.fits, fun _ => ho.of_tick ht hf (h.spilled hnot) ?_⟩
    exact (hends hnot).imp (fun h => ⟨h.1, h.2.1⟩) fun h => h.1
  · rintro _ ⟨⟩ hnot _
    rcases hends hnot with ⟨hframes, _, hs⟩ | ⟨hsus, hs⟩
    · exact ⟨fun hr => absurd hr hs, fun hne => absurd (congrArg Stack.mk hframes) hne⟩
    · exact ⟨fun _ hnil => hsus.ne_nil (congrArg Stack.frames hnil), fun _ => hs⟩

/-- The tree runs from its root, or goes on where it was suspended. -/
theorem ticked (hr : t.Runs R c) (hrests : R.Rests c.tree t.env (t.watch c).spilled) :
    ((if t.env.stack.isEmpty then e.run c.tree.root else e.resume 0) c t).Meets
      (fun status => t.Ticked R c (.ok status)) fun error => t.Ticked R c (.error error) := by
  have ht := hr.orderly
  cases hswap : R.swap with
  | true =>
    have hz : (Zone.whole c.tree).Holds t.env := Zone.whole_holds hrests.fits
    have hdone : ∀ (result : Except RunError Status) (u : Tick σ), (Zone.whole c.tree).From R t u →
        t.Ticked R c result u := fun result u hu =>
      ⟨hu.runs, working hu, fun _ _ => ⟨hu.holds.fits, fun hs => by simp [hs] at hswap⟩,
        fun _ _ hs => by simp [hs] at hswap, fun _ hs => by simp [hs] at hswap⟩
    have hhalts : ∀ h, R.Tolerates t.world c.owner h → h = .tooDeep := fun _ h =>
      h.tooDeep fun hs _ => by simp [hs] at hswap
    split
    · have hstays : (Zone.whole c.tree).Stays R t.env.stack.frames (e.run c.tree.root) _ :=
        he.confined.run trivial fun hz => hz.elim
      exact ((hstays t t (.refl hr hz) rfl).halts hhalts).mono (fun _ u hu => hdone _ u hu.1) fun _ u hu => hdone _ u hu
    · have hstays : (Zone.whole c.tree).Stays R t.env.stack.frames (e.resume ([] : List NodeId).length)
          (Zone.Rises _ (c.tree.Below c.tree.root) []) :=
        he.confined.resume (Nat.zero_le _) (fun hz => hz.elim) fun hz => hz.elim
      exact ((hstays t t (.refl hr hz) rfl).halts hhalts).mono (fun _ u hu => hdone _ u hu.1) fun _ u hu => hdone _ u hu
  | false =>
    have ho := hrests.ordered hswap
    split
    · rename_i hempty
      have hnil : t.env.stack.frames = [] := List.isEmpty_iff.mp hempty
      have hrun := he.fresh (hr.fresh_root hrests hswap hnil)
      rw [hnil] at hrun
      refine hrun.mono (fun status u hran => ticked_of_ran ho ht hran) fun error u hbroke => ?_
      obtain ⟨_, hf⟩ := hbroke.stays
      exact ⟨hf.runs, working hf, by simp, (by simp), fun h _ => by cases h; exact hbroke.blames⟩
    · rename_i hne
      have hresumes := hr.resumes_root hrests hswap fun hnil => hne (List.isEmpty_iff.mpr hnil)
      have hstays : (Zone.above (t := c.tree) c.tree.root [] hresumes.apart).Stays R t.env.stack.frames
          (e.resume ([] : List NodeId).length) (Zone.Rises _ (c.tree.Below c.tree.root) []) :=
        he.confined.resume (Nat.le_refl _) (fun hz => hz.elim) fun hz => hz.elim
      refine ((hstays t t (.refl hr hresumes.holds) rfl).and (he.resumes hresumes)).mono ?_ ?_
      · exact fun status u hran => ticked_of_ran ho ht hran.2
      · rintro error u ⟨hf, hblames⟩
        exact ⟨hf.runs, working hf, by simp, (by simp), fun h _ => by cases h; exact hblames⟩

end Sound

end Engine

/-- What a tick returned, and the state that it left. -/
structure World.Answered (R : Rules σ) (owner : Tag) (result : Except RunError Status) (w : World σ) (i : Instance) :
    Prop where
  settled {status : Status} : result = .ok status → i.interrupted = false → w.Settled R owner i
  running {status : Status} : result = .ok status → i.interrupted = false → R.swap = false →
    (status = .running ↔ i.env.stack ≠ ∅)
  blames {error : RunError} : result = .error error → R.swap = false → i.tree.Blames error

/-- Those who listen have been told, and nothing else has happened. -/
structure World.Told (R : Rules σ) (owner : Tag) (w : World σ) (i : Instance) (w' : World σ) (i' : Instance)
    (acts : List Activity) : Prop where
  goes : w.Goes R .acted owner i w' i' acts
  settled : w'.Settled R owner i'
  interrupted : i'.interrupted = acts.any Activity.isRequest
  clearRequested : i'.clearRequested = (i.clearRequested || acts.any Activity.isClear)
  stack : i'.env.stack = i.env.stack

namespace World.Busy

variable (h : w.Busy R owner i)
include h

theorem entered : w.Goes R .working owner i (w.observe owner .entered) i [.entered] :=
  h.changes ((Changes.refl h.here).observe .entered) rfl h.executing (fun _ hm => hm)
    (Instance.Works.of_activity trivial rfl rfl rfl)

/-- The state of an executing instance may be lent to its tree. -/
theorem runs : (⟨i.env, w.observe owner .entered⟩ : Tick σ).Runs R ⟨owner, i.tree⟩ :=
  ⟨h.entered.good, i, h.entered.here, h.executing, rfl⟩

theorem rests (hs : w.Settled R owner i) :
    R.Rests i.tree i.env ((w.observe owner .entered).spilled owner i.tree) := by
  rw [World.spilled, World.watch_of_acts h.entered.acts]
  exact hs

end World.Busy

namespace Engine.Serves

open World

variable (he : e.Serves R)
include he

theorem tick (h : w.Busy R owner i) (hs : w.Settled R owner i) :
    w.After (e.tick owner) fun result w' => ∃ i' acts,
      w.Goes R .working owner i w' i' acts ∧ i.Works i' acts ∧ w'.Answered R owner result i' := by
  rw [Engine.tick, after_bind, after_get, instanceOf_eq h.here]
  simp only
  split
  · rename_i hf
    refine ⟨i, [], .refl h.good h.here, .refl i, ⟨fun _ hn => ?_, fun _ hn => ?_, by simp⟩⟩ <;>
      · rw [hf] at hn
        cases hn
  · have hopen := h.entered
    have hbusy := hopen.busy h.executing
    have hticked := he.sound.ticked h.runs (h.rests hs)
    have hback : ∀ (result : Except RunError Status) (u : Tick σ),
        (⟨i.env, w.observe owner .entered⟩ : Tick σ).Ticked R ⟨owner, i.tree⟩ result u → ∃ i' acts,
          w.Goes R .working owner i (giveBack owner u) i' acts ∧ i.Works i' acts ∧
          (giveBack owner u).Answered R owner result i' := by
      intro result u hu
      obtain ⟨j, acts, hj, hworks⟩ := hbusy.goes (p := .working) hu.runs.good hu.advances
      have hleft := (hj.busy h.executing).giveBack
      have hflag : j.interrupted = false → ¬ u.Flagged ⟨owner, i.tree⟩ := by
        intro hn
        rw [Tick.Flagged, instanceOf_eq hj.here, hn]
        simp
      have hworksLeft : j.Works { j with env := u.env } [.left] := .of_activity trivial rfl rfl rfl
      have hworksEntered : i.Works i [.entered] := .of_activity trivial rfl rfl rfl
      have hworks' := hworksEntered.trans (Instance.Works.trans hworks hworksLeft)
      refine ⟨_, _, hopen.trans (hj.trans hleft), hworks', ?_, ?_, ?_⟩
      · intro status hr hn
        have hspilled : (giveBack owner u).spilled owner j.tree = u.world.spilled owner j.tree := by
          rw [World.spilled, World.watch_of_acts hleft.acts]
          rfl
        change R.Rests j.tree u.env ((giveBack owner u).spilled owner j.tree)
        rw [hspilled, show j.tree = i.tree from hj.tree]
        exact hu.rests hr (hflag hn)
      · exact fun hr hn hswap => hu.running hr (hflag hn) hswap
      · intro error hr hswap
        change j.tree.Blames error
        rw [show j.tree = i.tree from hj.tree]
        exact hu.blames hr hswap
    cases hempty : i.env.stack.isEmpty <;>
      simp only [hempty, if_true, if_false, Bool.false_eq_true, after_activate, instanceOf_eq h.here] at hticked ⊢ <;>
      exact hticked.mono (fun _ u hu => hback _ u hu) fun _ u hu => hback _ u hu

/-- Those who listen for the beginning of a run act, and the tick runs. -/
theorem openRun (hg : w.Good R) (hi : w.instances[owner]? = some i) (hexec : i.executing = false) :
    w.After (e.openRun owner) fun result w' => ∃ i' acts,
      (w.lock owner).Goes R .acted owner { i with executing := true } w' i' acts ∧
      i'.interrupted = acts.any Activity.isRequest ∧
      i'.clearRequested = (i.clearRequested || acts.any Activity.isClear) ∧
      acts.countP Activity.tellsInterruption = 0 ∧ w'.Answered R owner result i' := by
  have hlock := lock_busy hg hi
  obtain ⟨hf, _, hs⟩ := (hg.holds hi).idle hexec
  simp only [Engine.openRun, after_bind, after_modify]
  refine (he.sound.honors.announce hlock .beforeRun []).mono ?_
  rintro _ w₁ ⟨i₁, acts₁, hgoes₁, hcarries, hsettled⟩
  have hbusy₁ := hgoes₁.busy hlock.executing
  refine (he.tick hbusy₁ (hsettled hs)).mono ?_
  rintro result w₂ ⟨i₂, acts₂, hgoes₂, hworks, hanswered⟩
  refine ⟨i₂, _, hgoes₁.trans hgoes₂.acted, ?_, ?_, ?_, hanswered⟩
  · rw [hworks.interrupted, hcarries.interrupted]
    change ((i.interrupted || acts₁.any Activity.isRequest) || _) = _
    rw [hf]
    simp [Activity.isRequest]
  · rw [hworks.clearRequested, hcarries.clearRequested]
    simp [Activity.isClear, Bool.or_assoc]
  · rw [List.countP_append, List.countP_cons, Activity.countP_tellsInterruption fun a ha => (hcarries.quiet a ha).inner,
      Activity.countP_tellsInterruption hworks.inner]
    rfl

theorem settleTick_interrupted (h : w.Busy R owner i) (hf : i.interrupted = true) (status : Status) :
    w.After (e.settleTick owner status) fun status' w' => status' = .failure ∧ ∃ i' acts,
      w.Goes R .acted owner i w' i' acts ∧ w'.Bare owner i' ∧
      i'.clearRequested = (i.clearRequested || acts.any Activity.isClear) ∧
      acts.countP Activity.tellsInterruption = 1 := by
  rw [Engine.settleTick, after_bind, after_get, instanceOf_eq h.here, hf]
  simp only [if_true, after_bind]
  exact (he.interruptNow h.good h.here).mono fun _ w' hw => ⟨rfl, hw⟩

theorem told (h : w.Busy R owner i) {acts : List Activity} (ht : w.Told R owner i w' i' acts) (event : Lifecycle)
    (args : List Value) :
    w'.After (e.announce owner event args) fun _ w'' => ∃ i'' acts', w.Told R owner i w'' i'' acts' := by
  refine (he.sound.honors.announce (ht.goes.busy h.executing) event args).mono ?_
  rintro _ w'' ⟨i'', acts', hgoes, hcarries, hsettled⟩
  obtain ⟨vars, hvars⟩ := hcarries.env
  refine ⟨i'', _, ht.goes.trans hgoes, hsettled ht.settled, ?_, ?_, by rw [hvars]; exact ht.stack⟩
  · rw [hcarries.interrupted, ht.interrupted, List.any_append]
    simp [Activity.isRequest]
  · rw [hcarries.clearRequested, ht.clearRequested, List.any_append]
    simp [Activity.isClear, Bool.or_assoc]

theorem toldSettled (h : w.Busy R owner i) {acts : List Activity} (ht : w.Told R owner i w' i' acts)
    (status : Status) :
    w'.After (e.announceSettled owner status) fun _ w'' => ∃ i'' acts', w.Told R owner i w'' i'' acts' := by
  rw [announceSettled]
  cases settledEvent? status with
  | none => exact ⟨i', acts, ht⟩
  | some event => exact he.told h ht event []

/-- The end of a tick is told, and the jobs are run. -/
theorem settleTick (h : w.Busy R owner i) (hf : i.interrupted = false) (hs : w.Settled R owner i) (status : Status) :
    w.After (e.settleTick owner status) fun status' w' => status' = status ∧ ∃ i' acts,
      w.Goes R .acted owner i w' i' acts ∧ w'.Quiet R owner i' ∧
      i'.clearRequested = (i.clearRequested || acts.any Activity.isClear) ∧
      (acts.any Activity.isRequest = false → R.swap = false → i'.env.stack = i.env.stack) := by
  have hdrain : ∀ {w₁ i₁ acts₁}, w.Told R owner i w₁ i₁ acts₁ → w₁.After (do
      e.drain owner
      return status) fun status' w' => status' = status ∧ ∃ i' acts,
        w.Goes R .acted owner i w' i' acts ∧ w'.Quiet R owner i' ∧
        i'.clearRequested = (i.clearRequested || acts.any Activity.isClear) ∧
        (acts.any Activity.isRequest = false → R.swap = false → i'.env.stack = i.env.stack) := by
    intro w₁ i₁ acts₁ ht
    have hbusy := ht.goes.busy h.executing
    rw [after_bind]
    refine (he.drain hbusy.here (lock_busy hbusy.good hbusy.here) ht.settled).mono ?_
    rintro _ w₂ ⟨i₂, acts₂, hgoes, hquiet, hclear, hsame⟩
    refine ⟨rfl, i₂, _, ht.goes.trans hgoes, hquiet, ?_, fun hnone hswap => ?_⟩
    · rw [hclear, ht.clearRequested, List.any_append, Bool.or_assoc]
    · rw [List.any_append, ← ht.interrupted] at hnone
      rw [(hsame hnone).2 hswap, ht.stack]
  have hstart : w.Told R owner i w i [] := ⟨.refl h.good h.here, hs, by simp [hf], by simp, rfl⟩
  rw [Engine.settleTick, after_bind, after_get, instanceOf_eq h.here, hf]
  simp only [Bool.false_eq_true, if_false]
  rw [after_bind]
  refine (he.told h hstart .afterRun _).mono ?_
  rintro _ w₁ ⟨i₁, acts₁, ht₁⟩
  rw [after_bind]
  refine (he.toldSettled h ht₁ status).mono ?_
  rintro _ w₂ ⟨i₂, acts₂, ht₂⟩
  exact hdrain ht₂

theorem clearIfAsked (hg : w.Good R) (hi : w.instances[owner]? = some i) (hq : w.Quiet R owner i)
    (result : Except RunError Status) :
    w.After (do
      if ((← get).instanceOf owner).clearRequested then e.clearNow owner
      return result) fun result' w' => result' = result ∧ ∃ i' acts,
        w.Goes R .acted owner i w' i' acts ∧ w'.Quiet R owner i' ∧ acts.countP Activity.tellsInterruption = 0 ∧
        (w.Bare owner i → w'.Bare owner i') ∧ (i.clearRequested = false → i' = i ∧ acts = []) := by
  rw [after_bind, after_get, instanceOf_eq hi]
  cases hc : i.clearRequested with
  | false => exact ⟨rfl, i, [], .refl hg hi, hq, rfl, id, fun _ => ⟨rfl, rfl⟩⟩
  | true =>
    simp only [if_true]
    rw [after_bind]
    refine (he.clearNow hg hi hq.settled).mono ?_
    rintro _ w' ⟨i', acts, hgoes, hbare, _, hcount⟩
    exact ⟨rfl, i', acts, hgoes, hbare.quiet, hcount, fun _ => hbare, by simp⟩

omit he in
theorem afterTick_error (h : w.Busy R owner i) (error : RunError) :
    w.After (e.afterTick owner (.error error)) fun result w' => result = .error error ∧ ∃ i' acts,
      w.Goes R .acted owner i w' i' acts ∧ w'.Bare owner i' := by
  have hreport := Goes.report (p := .acted) (.refl h.good h.here) (.tickFailed i.tree.name error)
  simp only [Engine.afterTick, after_bind, after_get, after_modify, instanceOf_eq h.here]
  refine (after_release hreport.good hreport.here).mono ?_
  rintro _ w₁ ⟨hgoes, howns⟩
  have hchanges := (Changes.refl hgoes.here).modify fun i => { i with interrupted := false }
  have hlast := (hgoes.busy h.executing).changes (p := .acted) hchanges rfl h.executing (fun _ hj => hj) trivial
  refine ⟨rfl, _, _, hreport.trans (hgoes.trans hlast), rfl, rfl, rfl, rfl, rfl, howns.of_eq rfl rfl, ?_⟩
  exact spilled_of_unwound _ (hgoes.acts.trans rfl)

theorem afterTick_interrupted (h : w.Busy R owner i) (hf : i.interrupted = true) (status : Status) :
    w.After (e.afterTick owner (.ok status)) fun result w' => result = .ok .failure ∧ ∃ i' acts,
      w.Goes R .acted owner i w' i' acts ∧ w'.Bare owner i' ∧ acts.countP Activity.tellsInterruption = 1 := by
  rw [Engine.afterTick, after_bind]
  refine (he.settleTick_interrupted h hf status).mono ?_
  rintro _ w₁ ⟨rfl, i₁, acts₁, hgoes₁, hbare, _, hcount⟩
  refine (he.clearIfAsked hgoes₁.good hgoes₁.here hbare.quiet _).mono ?_
  rintro _ w₂ ⟨rfl, i₂, acts₂, hgoes₂, _, hcount₂, hbare₂, _⟩
  refine ⟨rfl, i₂, _, hgoes₁.trans hgoes₂, hbare₂ hbare, ?_⟩
  rw [List.countP_append, hcount, hcount₂]

/-- What a tick returned is returned, and its stack stays unless someone asks for an interruption or a clearing. -/
theorem afterTick (h : w.Busy R owner i) (hf : i.interrupted = false) (hs : w.Settled R owner i) (status : Status) :
    w.After (e.afterTick owner (.ok status)) fun result w' => result = .ok status ∧ ∃ i' acts,
      w.Goes R .acted owner i w' i' acts ∧ w'.Quiet R owner i' ∧
      (i.clearRequested = false → acts.any Activity.isRequest = false → R.swap = false →
        i'.env.stack = i.env.stack) := by
  rw [Engine.afterTick, after_bind]
  refine (he.settleTick h hf hs status).mono ?_
  rintro _ w₁ ⟨rfl, i₁, acts₁, hgoes₁, hquiet, hclear, hstack⟩
  refine (he.clearIfAsked hgoes₁.good hgoes₁.here hquiet _).mono ?_
  rintro _ w₂ ⟨rfl, i₂, acts₂, hgoes₂, hquiet₂, _, _, hsame⟩
  refine ⟨rfl, i₂, _, hgoes₁.trans hgoes₂, hquiet₂, fun hnot hnone hswap => ?_⟩
  rw [List.any_append, Bool.or_eq_false_iff] at hnone
  have hunclear : i₁.clearRequested = false := by
    rw [hclear, hnot, Bool.false_or]
    exact Activity.any_isClear hnone.1
  obtain ⟨rfl, _⟩ := hsame hunclear
  exact hstack hnone.1 hswap

section Closing

variable {w₁ : World σ} {i₁ : Instance} {acts₁ : List Activity} (hi : w.instances[owner]? = some i)
  (hexec : i.executing = false) (hgoes : (w.lock owner).Goes R .acted owner { i with executing := true } w₁ i₁ acts₁)
include hi hexec hgoes

omit he in
/-- What follows a tick is done under the lock, which is then given back. -/
theorem closeRun {result : Except RunError Status}
    {Q : Except RunError Status → World σ → Instance → List Activity → Prop}
    (h : w₁.After (e.afterTick owner result) fun result' w₂ => ∃ i₂ acts₂,
      w₁.Goes R .acted owner i₁ w₂ i₂ acts₂ ∧ w₂.Quiet R owner i₂ ∧
      (∀ w', w'.subscriptions = w₂.subscriptions → w'.delays = w₂.delays → w'.acts owner = w₂.acts owner →
        Q result' w' { i₂ with executing := false } acts₂)) :
    w₁.After (e.closeRun owner result) fun result' w' => ∃ i' acts,
      w.Goes R .acted owner i w' i' (acts₁ ++ acts) ∧ w'.Quiet R owner i' ∧ Q result' w' i' acts := by
  rw [Engine.closeRun, after_bind]
  refine h.mono ?_
  rintro result' w₂ ⟨i₂, acts₂, hgoes₂, hquiet, hq⟩
  have hall := (hgoes.trans hgoes₂).unlock hi hquiet
  rw [hexec] at hall
  exact ⟨_, acts₂, hall, ⟨hquiet.interrupted, hquiet.pending, hquiet.settled⟩, hq _ rfl rfl rfl⟩

theorem closeRun_interrupted (hf : i₁.interrupted = true) (status : Status) :
    w₁.After (e.closeRun owner (.ok status)) fun result w' => ∃ i' acts,
      w.Goes R .acted owner i w' i' (acts₁ ++ acts) ∧ w'.Quiet R owner i' ∧
      (result = .ok .failure ∧ w'.Bare owner i' ∧ acts.countP Activity.tellsInterruption = 1) := by
  refine closeRun (Q := fun result w' i' acts =>
    result = .ok .failure ∧ w'.Bare owner i' ∧ acts.countP Activity.tellsInterruption = 1) hi hexec hgoes ?_
  refine (he.afterTick_interrupted (hgoes.busy rfl) hf status).mono ?_
  rintro result w₂ ⟨rfl, i₂, acts₂, hgoes₂, hbare, hcount⟩
  refine ⟨i₂, acts₂, hgoes₂, hbare.quiet, fun w' hs hd ha => ⟨rfl, ?_, hcount⟩⟩
  exact ⟨hbare.interrupted, hbare.pending, hbare.stack, hbare.temps, hbare.detached, hbare.owns.of_eq hs hd,
    by rw [spilled_eq ha]; exact hbare.spilled⟩

end Closing

/-- A run of an idle instance. Its errors are those that a tick may return; without an interruption or a clearing asked
for, it returns that it is running just when frames are left. -/
theorem runTree (hg : w.Good R) (hi : w.instances[owner]? = some i) (hexec : i.executing = false) :
    w.After (e.runTree owner) fun result w' => ∃ i' acts,
      w.Goes R .acted owner i w' i' acts ∧ w'.Quiet R owner i' ∧
      (R.swap = false → (∀ error, result = .error error → i.tree.Blames error) ∧
        (i.clearRequested = false → acts.any Activity.isRequest = false → ∀ status, result = .ok status →
          (status = .running ↔ i'.env.stack ≠ ∅))) := by
  rw [Engine.runTree, after_bind, after_get, instanceOf_eq hi]
  simp only [hexec, Bool.false_eq_true, if_false]
  rw [after_bind]
  refine (he.openRun hg hi hexec).mono ?_
  rintro result w₁ ⟨i₁, acts₁, hgoes, hreq, hclear, _, hanswered⟩
  have hbusy : w₁.Busy R owner i₁ := hgoes.busy rfl
  have htree : i₁.tree = i.tree := hgoes.tree
  cases result with
  | error error =>
    refine (closeRun (e := e) (Q := fun result _ _ _ => result = .error error) hi hexec hgoes ?_).mono ?_
    · refine (afterTick_error hbusy error).mono ?_
      rintro _ w₂ ⟨rfl, i₂, acts₂, hgoes₂, hbare⟩
      exact ⟨i₂, acts₂, hgoes₂, hbare.quiet, fun _ _ _ _ => rfl⟩
    · rintro _ w' ⟨i', acts, hall, hquiet, rfl⟩
      refine ⟨i', _, hall, hquiet, fun hswap => ⟨?_, by simp⟩⟩
      rintro _ ⟨⟩
      rw [← htree]
      exact hanswered.blames rfl hswap
  | ok status =>
    cases hf : i₁.interrupted with
    | true =>
      refine (he.closeRun_interrupted hi hexec hgoes hf status).mono ?_
      rintro _ w' ⟨i', acts, hall, hquiet, rfl, _⟩
      refine ⟨i', _, hall, hquiet, fun _ => ⟨by simp, fun _ hnone => ?_⟩⟩
      rw [List.any_append, ← hreq, hf] at hnone
      cases hnone
    | false =>
      have hs := hanswered.settled rfl hf
      refine (closeRun (e := e) (Q := fun result _ i' acts => result = .ok status ∧ (i₁.clearRequested = false →
        acts.any Activity.isRequest = false → R.swap = false → i'.env.stack = i₁.env.stack)) hi hexec hgoes ?_).mono ?_
      · refine (he.afterTick hbusy hf hs status).mono ?_
        rintro _ w₂ ⟨rfl, i₂, acts₂, hgoes₂, hquiet, hstack⟩
        exact ⟨i₂, acts₂, hgoes₂, hquiet, fun _ _ _ _ => ⟨rfl, hstack⟩⟩
      · rintro _ w' ⟨i', acts, hall, hquiet, rfl, hstack⟩
        refine ⟨i', _, hall, hquiet, fun hswap => ⟨by simp, ?_⟩⟩
        rintro hnot hnone _ ⟨⟩
        rw [List.any_append] at hnone
        obtain ⟨hnone₁, hnone₂⟩ := Bool.or_eq_false_iff.mp hnone
        have hunclear : i₁.clearRequested = false := by
          rw [hclear, hnot, Bool.false_or]
          exact Activity.any_isClear hnone₁
        rw [hstack hunclear hnone₂ hswap]
        exact hanswered.running rfl hf hswap

end Engine.Serves

end BehaviorTree
