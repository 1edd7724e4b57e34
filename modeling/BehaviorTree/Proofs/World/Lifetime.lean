import BehaviorTree.Proofs.World.Jobs

/-!
The life of an instance, one call at a time. While anything of it is under way it counts as executing, and others may
only queue jobs and ask for interruptions. Whatever is done to an instance gives it back with its queue empty, with no
interruption outstanding, and in a state between jobs.
-/

namespace BehaviorTree
set_option autoImplicit false

variable {σ α : Type}

namespace Activity

def tellsInterruption : Activity → Bool
  | announced event _ => event == Lifecycle.interrupted.name
  | _ => false

theorem countP_tellsInterruption {acts : List Activity} (h : ∀ a ∈ acts, a.Inner) :
    acts.countP tellsInterruption = 0 := by
  refine List.countP_eq_zero.mpr ?_
  intro a ha
  have := h a ha
  cases a <;> simp_all [tellsInterruption, Inner]

end Activity

variable {R : Rules σ} {p : Part} {w w' w'' : World σ} {owner : Tag} {i i' i'' : Instance}
  {acts acts' : List Activity} {env : Env} {t : Tree}

theorem Rules.Rests.bare (hs : env.stack = ∅) (ht : env.temps = ∅) (hd : env.detached = ∅) :
    R.Rests t env false := by
  have hnone : ∀ x : NodeId, env.temps[x]? = none := by simp [ht]
  refine ⟨fun x n p _ hp => ?_, fun _ => ?_⟩
  · rw [hnone] at hp
    cases hp
  · refine ⟨.inl ⟨by rw [hs]; rfl, fun x _ => hnone x⟩, fun hx => absurd (hnone _) hx, ?_, ?_, ?_, ?_, ?_, by simp⟩
    · intro x y p hp
      rw [hnone] at hp
      cases hp
    · intro l s hl
      simp [hd] at hl
    · intro l k s _ _ hl
      simp [hd] at hl
    · exact fun _ _ _ x _ => hnone x
    · exact fun _ _ x _ => hnone x

namespace World

/-- What is asked of the state of an instance between jobs. -/
def Settled (R : Rules σ) (owner : Tag) (i : Instance) (w : World σ) : Prop :=
  R.Rests i.tree i.env (w.spilled owner i.tree)

/-- An instance is executing. -/
structure Busy (R : Rules σ) (owner : Tag) (i : Instance) (w : World σ) : Prop where
  good : w.Good R
  here : w.instances[owner]? = some i
  executing : i.executing = true

structure Goes (R : Rules σ) (p : Part) (owner : Tag) (w : World σ) (i : Instance) (w' : World σ) (i' : Instance)
    (acts : List Activity) : Prop where
  good : w'.Good R
  here : w'.instances[owner]? = some i'
  executing : i'.executing = i.executing
  tree : i'.tree = i.tree
  acts : w'.acts owner = w.acts owner ++ acts
  advances : w.Advances (!R.swap) (p.only owner) w'

/-- Nothing of an instance is outstanding. -/
structure Quiet (R : Rules σ) (owner : Tag) (i : Instance) (w : World σ) : Prop where
  interrupted : i.interrupted = false
  pending : i.pending = []
  settled : w.Settled R owner i

theorem Bare.settled (h : w.Bare owner i) : w.Settled R owner i := by
  rw [Settled, h.spilled]
  exact .bare h.stack h.temps h.detached

theorem Bare.quiet (h : w.Bare owner i) : w.Quiet R owner i := ⟨h.interrupted, h.pending, h.settled⟩

namespace Goes

theorem refl (hg : w.Good R) (hi : w.instances[owner]? = some i) : w.Goes R p owner i w i [] :=
  ⟨hg, hi, rfl, rfl, by simp, .refl w⟩

theorem trans (h : w.Goes R p owner i w' i' acts) (h' : w'.Goes R p owner i' w'' i'' acts') :
    w.Goes R p owner i w'' i'' (acts ++ acts') :=
  ⟨h'.good, h'.here, h'.executing.trans h.executing, h'.tree.trans h.tree,
    by rw [h'.acts, h.acts, List.append_assoc], h.advances.trans h'.advances⟩

theorem busy (h : w.Goes R p owner i w' i' acts) (he : i.executing = true) : w'.Busy R owner i' :=
  ⟨h.good, h.here, h.executing.trans he⟩

/-- What is done by others or as a part of its own. -/
theorem acted (h : w.Goes R p owner i w' i' acts) : w.Goes R .acted owner i w' i' acts := by
  refine ⟨h.good, h.here, h.executing, h.tree, h.acts, h.advances.mono id ?_⟩
  intro o j j' acts _ _ hallow
  by_cases ho : o = owner
  · subst ho
    rw [Part.only_self]
    trivial
  · rw [Part.only_of_ne ho] at hallow ⊢
    exact hallow

theorem report (h : w.Goes R p owner i w' i' acts) (r : Report) : w.Goes R p owner i (w'.report r) i' acts :=
  ⟨h.good.report r, h.here, h.executing, h.tree, by rw [acts_report, h.acts],
    h.advances.trans (.of_eq (fun _ => acts_report _ _ _) rfl)⟩

theorem releaseTag (h : w.Goes R p owner i w' i' acts) (tag : Tag) :
    w.Goes R p owner i (w'.releaseTag tag) i' acts :=
  ⟨h.good.releaseTag tag, by rw [instances_releaseTag]; exact h.here, h.executing, h.tree,
    by rw [acts_releaseTag, h.acts], h.advances.trans (.of_eq (fun _ => acts_releaseTag _ _ _) (instances_releaseTag _ _))⟩

/-- An instance changes in its part, but for its tree. -/
theorem of_changes (hg : w.Good R) (hi : w.instances[owner]? = some i) (hc : w.Changes w' owner i' acts)
    (htree : i'.tree = i.tree) (hexec : i'.executing = i.executing)
    (hpending : R.swap = false → ∀ job ∈ i'.pending, i.tree.Accepts job)
    (hidle : i'.executing = false → w'.Quiet R owner i') (hallow : i.executing = true → p.Allows i i' acts) :
    w.Goes R p owner i w' i' acts := by
  refine ⟨hg.of_changes hi hc htree hpending ?_, hc.self, hexec, htree, by simp [hc.acts],
    .of_changes hc hi hexec (fun _ => htree) fun he => by rw [Part.only_self]; exact hallow he⟩
  intro he
  have hq := hidle he
  rw [← htree]
  exact ⟨hq.interrupted, hq.pending, hq.settled⟩

end Goes

namespace Busy

variable (h : w.Busy R owner i)
include h

theorem goes (hg : w'.Good R) (ha : w.Advances (!R.swap) (p.only owner) w') :
    ∃ i' acts, w.Goes R p owner i w' i' acts ∧ p.Allows i i' acts := by
  obtain ⟨i', acts, hi', he', ht', hacts, hallow⟩ := ha.exists_allowed h.here h.executing
  rw [Part.only_self] at hallow
  exact ⟨i', acts, ⟨hg, hi', he'.trans h.executing.symm, ht', hacts, ha⟩, hallow⟩

theorem changes (hc : w.Changes w' owner i' acts) (htree : i'.tree = i.tree) (hexec : i'.executing = true)
    (hpending : ∀ job ∈ i'.pending, job ∈ i.pending) (hallow : p.Allows i i' acts) :
    w.Goes R p owner i w' i' acts := by
  refine .of_changes h.good h.here hc htree (hexec.trans h.executing.symm) ?_ ?_ fun _ => hallow
  · exact fun hs job hj => (h.good.holds h.here).pending hs job (hpending job hj)
  · intro he
    rw [hexec] at he
    cases he

omit h in
/-- A tick or job gives the state of its instance back. -/
theorem giveBack {u : Tick σ} (h : u.world.Busy R owner i) :
    u.world.Goes R .working owner i (Engine.giveBack owner u) { i with env := u.env } [.left] :=
  h.changes (((Changes.refl h.here).modify fun i => { i with env := u.env }).observe .left) rfl h.executing
    (fun _ hm => hm) (Instance.Works.of_activity trivial rfl rfl rfl)

theorem accepts (hs : R.swap = false) {job : Job} (hj : job ∈ i.pending) : i.tree.Accepts job :=
  (h.good.holds h.here).pending hs job hj

end Busy

theorem lock_busy (hg : w.Good R) (hi : w.instances[owner]? = some i) :
    (w.lock owner).Busy R owner { i with executing := true } := by
  have hc := (Changes.refl hi).modify fun i => { i with executing := true }
  exact ⟨hg.of_changes hi hc rfl (hg.holds hi).pending (by simp), hc.self, rfl⟩

/-- What is done under the lock, which is then given back. -/
theorem Goes.unlock (hi : w.instances[owner]? = some i)
    (h : (w.lock owner).Goes R .acted owner { i with executing := true } w' i' acts) (hq : w'.Quiet R owner i') :
    w.Goes R .acted owner i (w'.modifyInstance owner fun j => { j with executing := i.executing })
      { i' with executing := i.executing } acts := by
  have hc := (Changes.refl h.here).modify fun j => { j with executing := i.executing }
  have hi' := (Changes.refl hi).modify fun i => { i with executing := true }
  refine ⟨?_, hc.self, rfl, h.tree, h.acts, ?_, ?_⟩
  · exact h.good.of_changes h.here hc rfl (h.good.holds h.here).pending fun _ =>
      ⟨hq.interrupted, hq.pending, hq.settled⟩
  · intro o
    obtain ⟨more, hmore, heach⟩ := h.advances.each o
    refine ⟨more, hmore, ?_⟩
    intro j hj
    by_cases ho : owner = o
    · subst ho
      obtain rfl : i = j := Option.some.inj (hi.symm.trans hj)
      refine ⟨_, hc.self, rfl, fun _ => h.tree, fun _ => ?_⟩
      rw [Part.only_self]
      trivial
    · obtain ⟨j', hj', hrest⟩ := heach j (by rw [lock, hi'.instances, if_neg ho]; exact hj)
      exact ⟨j', by rw [hc.instances, if_neg ho]; exact hj', hrest⟩
  · intro o j hn hj
    have ho : owner ≠ o := by
      rintro rfl
      rw [hi] at hn
      cases hn
    rw [hc.instances, if_neg ho] at hj
    exact h.advances.fresh (by rw [lock, hi'.instances, if_neg ho]; exact hn) hj

theorem Settled.carries (h : w.Settled R owner i) (hg : w.Goes R p owner i w' i' acts)
    (hc : i.Carries false i' acts') (hacts : w'.spilled owner i.tree = w.spilled owner i.tree) :
    w'.Settled R owner i' := by
  obtain ⟨vars, hv⟩ := hc.env
  rw [Settled, hg.tree, hv, hacts]
  refine ⟨h.fits, fun hs => ?_⟩
  have ho := h.ordered hs
  refine ⟨ho.main, ho.based, ho.inward, ho.detached, ho.parked, ho.unparked, ho.delayed, fun hsp => ?_⟩
  obtain ⟨z, hz⟩ := ho.stray hsp
  exact ⟨z, hz.payload, hz.stack, hz.detached, hz.nested⟩

/-- The jobs of an instance have been run: none waits unless an interruption is asked for, and then the frames of the
tree are as they were. -/
def Worked (R : Rules σ) (owner : Tag) (w : World σ) (i : Instance) (w' : World σ) : Prop :=
  ∃ i' acts, w.Goes R .working owner i w' i' acts ∧ i.Works i' acts ∧
    (i'.interrupted = false → w'.Quiet R owner i' ∧ (R.swap = false → i'.env.stack = i.env.stack))

end World

/-- Calls keep what they are asked for, those that run the jobs of an instance included. -/
structure Engine.Serves (e : Engine σ) (R : Rules σ) : Prop where
  sound : e.Sound R
  runPending {w : World σ} {owner : Tag} {i : Instance} : w.Busy R owner i → w.Settled R owner i →
    w.After (e.runPending owner) fun _ w' => w.Worked R owner i w'

namespace Engine

open World

variable {e : Engine σ}

/-- Those who listen to a lifecycle event leave the instance alone. -/
theorem Honors.announce (he : e.Honors R) (h : w.Busy R owner i) (event : Lifecycle) (args : List Value) :
    w.After (e.announce owner event args) fun _ w' => ∃ i' acts,
      w.Goes R .acted owner i w' i' (.announced event.name args :: acts) ∧ i.Carries false i' acts ∧
      (w.Settled R owner i → w'.Settled R owner i') := by
  have hobserve : w.Goes R .acted owner i _ i [.announced event.name args] :=
    h.changes ((Changes.refl h.here).observe _) rfl h.executing (fun _ hj => hj) trivial
  rw [Engine.announce, after_bind, after_modify, after_bind]
  refine (he.dispatch hobserve.good _ _).mono ?_
  rintro _ w' ⟨hg, hadv⟩
  obtain ⟨i', acts, hgoes, hcarries⟩ := (hobserve.busy h.executing).goes (p := .guest) hg
    (hadv.of_guests id)
  refine ⟨i', acts, hobserve.trans hgoes.acted, hcarries, fun hs => ?_⟩
  refine Settled.carries hs (hobserve.trans hgoes.acted) hcarries ?_
  rw [World.spilled, watch_of_acts (hobserve.trans hgoes.acted).acts, List.singleton_append, List.foldl_cons,
    Watch.foldl_quiet hcarries.quiet]
  rfl

/-- A job of an instance has been done. Whether it failed or not, its state is given back, and the next job is run unless
an interruption is asked for. -/
theorem Serves.goOn (he : e.Serves R) (h : w.Busy R owner i) {job : Job} {rest : List Job} {u : Tick σ}
    {w₁ w₂ : World σ} (hpop : w.Goes R .working owner i w₁ { i with pending := rest } [.entered])
    (hdid : (⟨i.env, w₁⟩ : Tick σ).Did R ⟨owner, i.tree⟩ job u)
    (hreport : ∀ {j acts}, w₁.Goes R .working owner { i with pending := rest } (giveBack owner u) j acts →
      w₁.Goes R .working owner { i with pending := rest } w₂ j acts) :
    w₂.After (do
      if ((← get).instanceOf owner).interrupted then return
      else e.runPending owner) fun _ w' => w.Worked R owner i w' := by
  have hbusy := hpop.busy h.executing
  obtain ⟨j, acts, hj, hworks⟩ := hbusy.goes (p := .working) hdid.runs.good hdid.advances
  have hw₂ := hreport (hj.trans (hj.busy h.executing).giveBack)
  have hall := hpop.trans hw₂
  have hentered : i.Works { i with pending := rest } [.entered] := .of_activity trivial rfl rfl rfl
  have hleft : j.Works { j with env := u.env } [.left] := .of_activity trivial rfl rfl rfl
  have hworks' := hentered.trans (Instance.Works.trans hworks hleft)
  rw [after_bind, after_get, instanceOf_eq hw₂.here]
  simp only
  cases hf : j.interrupted with
  | true =>
    refine ⟨_, _, hall, hworks', fun hn => ?_⟩
    change j.interrupted = false at hn
    rw [hf] at hn
    cases hn
  | false =>
    have hrests : w₂.Settled R owner { j with env := u.env } := by
      have hflag : ¬ u.Flagged ⟨owner, i.tree⟩ := by
        rw [Tick.Flagged, instanceOf_eq hj.here, hf]
        simp
      have hspilled : w₂.spilled owner i.tree = (u.watch ⟨owner, i.tree⟩).spilled := by
        rw [Tick.watch, World.spilled, World.watch_of_acts hw₂.acts, World.watch_of_acts hj.acts, List.foldl_append]
        rfl
      change R.Rests j.tree u.env (w₂.spilled owner j.tree)
      rw [show j.tree = i.tree from hj.tree, hspilled]
      exact hdid.rests hflag
    refine (he.runPending (hw₂.busy h.executing) hrests).mono ?_
    rintro _ w' ⟨i', acts', hgoes, hworks'', hquiet⟩
    refine ⟨i', _, hall.trans hgoes, hworks'.trans hworks'', fun hn => ?_⟩
    obtain ⟨hq, hstack⟩ := hquiet hn
    exact ⟨hq, fun hs => (hstack hs).trans (hdid.unseen hs).stack⟩

/-- One job is run, in whatever way does what a job does, and then the others. -/
theorem Serves.runNextWith (he : e.Serves R) {exec : Job → TickM σ Unit}
    (hexec : ∀ {c : Activation} {t : Tick σ} {job : Job}, t.Runs R c → R.Rests c.tree t.env (t.watch c).spilled →
      (R.swap = false → c.tree.Accepts job) → (exec job c t).Meets (fun _ => t.Did R c job) fun _ => t.Did R c job)
    (h : w.Busy R owner i) (hs : w.Settled R owner i) :
    w.After (e.runNextWith exec owner) fun _ w' => w.Worked R owner i w' := by
  rw [Engine.runNextWith, after_bind, after_get, instanceOf_eq h.here]
  cases hp : i.pending with
  | nil =>
    exact ⟨i, [], .refl h.good h.here, .refl i, fun hf => ⟨⟨hf, hp, hs⟩, fun _ => rfl⟩⟩
  | cons job rest =>
    have hchanges := (Changes.refl h.here).modify fun i => { i with pending := rest }
    have hpop : w.Goes R .working owner i _ { i with pending := rest } [.entered] :=
      h.changes (hchanges.observe .entered) rfl h.executing (fun j hj => hp ▸ List.mem_cons_of_mem _ hj)
        (Instance.Works.of_activity trivial rfl rfl rfl)
    simp only [after_bind, after_modify, after_activate]
    rw [instanceOf_eq hchanges.self]
    generalize (w.modifyInstance owner fun i => { i with pending := rest }).observe owner .entered = w₁ at hpop ⊢
    have hsettled : w₁.Settled R owner { i with pending := rest } := by
      change R.Rests i.tree i.env (w₁.spilled owner i.tree)
      rw [World.spilled, World.watch_of_acts hpop.acts]
      exact hs
    have hbusy := hpop.busy h.executing
    have hruns : (⟨i.env, w₁⟩ : Tick σ).Runs R ⟨owner, i.tree⟩ := ⟨hbusy.good, _, hbusy.here, hbusy.executing, rfl⟩
    have hjob := hexec hruns hsettled fun hs => h.accepts hs (hp ▸ List.mem_cons_self)
    refine hjob.mono ?_ ?_
    · intro _ u hdid
      exact he.goOn h hpop hdid fun h => h
    · intro err u hdid
      exact he.goOn h hpop hdid fun h => h.report _

theorem Serves.runNext (he : e.Serves R) (h : w.Busy R owner i) (hs : w.Settled R owner i) :
    w.After (e.runNext owner) fun _ w' => w.Worked R owner i w' := by
  rw [← runNextWith_runJob]
  exact he.runNextWith he.sound.runJob h hs

/-- Whatever an instance left in the world, in its queue and on its stacks is dropped. -/
theorem after_release (hg : w.Good R) (hi : w.instances[owner]? = some i) :
    w.After (release owner) fun _ w' =>
      w.Goes R .acted owner i w' { i with pending := [], env := i.env.unwind } [.unwound] ∧ w'.OwnsNothing owner := by
  simp only [release, after_bind, after_modify]
  have hfree : w.Goes R .acted owner i (w.releaseTag owner) i [] := Goes.releaseTag (.refl hg hi) owner
  have hc := ((Changes.refl hfree.here).observe .unwound).modify fun i => { i with pending := [], env := i.env.unwind }
  have hgoes := hfree.trans (.of_changes (p := .acted) hfree.good hfree.here hc rfl rfl (by simp) ?_ fun _ => trivial)
  · exact ⟨hgoes, (ownsNothing_releaseTag hg.subscriptions hg.delays owner).of_eq rfl rfl⟩
  · intro he
    refine ⟨((hg.holds hi).idle he).1, rfl, ?_⟩
    rw [World.Settled, spilled_of_unwound ((w.releaseTag owner).acts owner) (by rw [hc.acts, if_pos rfl]; rfl)]
    exact .bare rfl rfl rfl

/-- Those who listen for the end of an instance act, and then nothing of it is left. -/
theorem Serves.windUp (he : e.Serves R) (hg : w.Good R) (hi : w.instances[owner]? = some i)
    (hs : w.Settled R owner i) (event : Lifecycle) {forget : Env → Env}
    (hforget : ∀ env : Env, (forget env.unwind).stack = ∅ ∧ (forget env.unwind).temps = ∅ ∧
      (forget env.unwind).detached = ∅) :
    w.After (e.windUp owner event forget) fun _ w' => ∃ i' acts,
      w.Goes R .acted owner i w' i' acts ∧ w'.Bare owner i' ∧
      i'.clearRequested = (i.clearRequested || acts.any Activity.isClear) ∧
      acts.countP Activity.tellsInterruption = if event = .interrupted then 1 else 0 := by
  have hlock := lock_busy hg hi
  simp only [Engine.windUp, whileExecuting, after_bind, after_get, after_modify, instanceOf_eq hi]
  refine (he.sound.honors.announce hlock event []).mono ?_
  rintro _ w₁ ⟨i₁, acts₁, hgoes₁, hcarries, hsettled⟩
  have hbusy₁ := hgoes₁.busy hlock.executing
  refine (he.runPending hbusy₁ (hsettled hs)).mono ?_
  rintro _ w₂ ⟨i₂, acts₂, hgoes₂, hworks, _⟩
  have hbusy₂ := hgoes₂.busy hbusy₁.executing
  refine (after_release hbusy₂.good hbusy₂.here).mono ?_
  rintro _ w₃ ⟨hgoes₃, howns⟩
  have hbusy₃ := hgoes₃.busy hbusy₂.executing
  have hchanges := (Changes.refl hbusy₃.here).modify fun i => { i with env := forget i.env, interrupted := false }
  have hgoes₄ := hbusy₃.changes (p := .acted) hchanges rfl hbusy₃.executing (fun _ hj => hj) trivial
  have hall := hgoes₁.trans (hgoes₂.acted.trans (hgoes₃.trans hgoes₄))
  obtain ⟨hstack, htemps, hdetached⟩ := hforget i₂.env
  have hspilled : ∀ t, (w₃.modifyInstance owner fun i =>
      { i with env := forget i.env, interrupted := false }).spilled owner t = false := by
    intro t
    exact spilled_of_unwound (w₂.acts owner) (hgoes₃.acts.trans rfl)
  have hquiet : (w₃.modifyInstance owner fun i => { i with env := forget i.env, interrupted := false }).Quiet R owner
      { i₂ with pending := [], env := forget i₂.env.unwind, interrupted := false } :=
    Bare.quiet ⟨rfl, rfl, hstack, htemps, hdetached, howns.of_eq rfl rfl, hspilled _⟩
  refine ⟨_, _, hall.unlock hi hquiet, ⟨rfl, rfl, hstack, htemps, hdetached, howns.of_eq rfl rfl, hspilled _⟩, ?_, ?_⟩
  · change i₂.clearRequested = _
    rw [hworks.clearRequested, hcarries.clearRequested]
    simp [Activity.isClear, Bool.or_assoc]
  · have hquiet₁ := Activity.countP_tellsInterruption fun a ha => (hcarries.quiet a ha).inner
    have hquiet₂ := Activity.countP_tellsInterruption hworks.inner
    rw [List.countP_append, List.countP_cons, hquiet₁, List.countP_append, hquiet₂]
    cases event <;> rfl

/-- An interruption that is served drops everything, and is told once. -/
theorem Serves.interruptNow (he : e.Serves R) (hg : w.Good R) (hi : w.instances[owner]? = some i) :
    w.After (e.interruptNow owner) fun _ w' => ∃ i' acts,
      w.Goes R .acted owner i w' i' acts ∧ w'.Bare owner i' ∧
      i'.clearRequested = (i.clearRequested || acts.any Activity.isClear) ∧
      acts.countP Activity.tellsInterruption = 1 := by
  have hchanges := ((Changes.refl hi).observe .unwound).modify fun i =>
    { i with interrupted := false, pending := [], env := i.env.unwind }
  have hsettled : World.Settled R owner { i with interrupted := false, pending := [], env := i.env.unwind }
      ((w.observe owner .unwound).modifyInstance owner fun i =>
        { i with interrupted := false, pending := [], env := i.env.unwind }) := by
    rw [World.Settled, spilled_of_unwound (w.acts owner) (by rw [hchanges.acts, if_pos rfl]; rfl)]
    exact .bare rfl rfl rfl
  have hgoes : w.Goes R .acted owner i _ _ [.unwound] :=
    .of_changes hg hi hchanges rfl rfl (by simp) (fun _ => ⟨rfl, rfl, hsettled⟩) fun _ => trivial
  simp only [Engine.interruptNow, after_bind, after_modify]
  refine (he.windUp hgoes.good hgoes.here hsettled .interrupted fun _ => ⟨rfl, rfl, rfl⟩).mono ?_
  rintro _ w' ⟨i', acts, hgoes', hbare, hclear, hcount⟩
  refine ⟨i', _, (hgoes.trans hgoes').report _, ?_, ?_, ?_⟩
  · exact ⟨hbare.interrupted, hbare.pending, hbare.stack, hbare.temps, hbare.detached, hbare.owns.of_eq rfl rfl,
      by rw [spilled_eq (acts_report _ _ _)]; exact hbare.spilled⟩
  · rw [hclear]
    simp [Activity.isClear]
  · rw [List.singleton_append, List.countP_cons, hcount]
    rfl

/-- A clearing forgets everything and is told, but not as an interruption. -/
theorem Serves.clearNow (he : e.Serves R) (hg : w.Good R) (hi : w.instances[owner]? = some i)
    (hs : w.Settled R owner i) :
    w.After (e.clearNow owner) fun _ w' => ∃ i' acts,
      w.Goes R .acted owner i w' i' acts ∧ w'.Bare owner i' ∧ i'.clearRequested = acts.any Activity.isClear ∧
      acts.countP Activity.tellsInterruption = 0 := by
  have hchanges := (Changes.refl hi).modify fun i => { i with clearRequested := false }
  have hgoes := Goes.of_changes (p := .acted) hg hi hchanges rfl rfl (hg.holds hi).pending
    (fun hn => ⟨((hg.holds hi).idle hn).1, ((hg.holds hi).idle hn).2.1, hs⟩) fun _ => trivial
  simp only [Engine.clearNow, after_bind, after_modify]
  refine (he.windUp hgoes.good hgoes.here hs .cleaned fun _ => ⟨rfl, rfl, rfl⟩).mono ?_
  rintro _ w' ⟨i', acts, hgoes', hbare, hclear, hcount⟩
  refine ⟨i', acts, (hgoes.trans hgoes').report _, ?_, ?_, hcount⟩
  · exact ⟨hbare.interrupted, hbare.pending, hbare.stack, hbare.temps, hbare.detached, hbare.owns.of_eq rfl rfl,
      by rw [spilled_eq (acts_report _ _ _)]; exact hbare.spilled⟩
  · rw [hclear, Bool.false_or]

/-- The jobs that wait are run, and an interruption that is asked for is served. Unless there was one, the frames of
the tree are as they were. -/
theorem Serves.drain (he : e.Serves R) (hi : w.instances[owner]? = some i)
    (hlock : (w.lock owner).Busy R owner { i with executing := true }) (hs : w.Settled R owner i) :
    w.After (e.drain owner) fun _ w' => ∃ i' acts,
      w.Goes R .acted owner i w' i' acts ∧ w'.Quiet R owner i' ∧
      i'.clearRequested = (i.clearRequested || acts.any Activity.isClear) ∧
      ((i.interrupted || acts.any Activity.isRequest) = false →
        acts.countP Activity.tellsInterruption = 0 ∧ (R.swap = false → i'.env.stack = i.env.stack)) := by
  simp only [Engine.drain, whileExecuting, after_bind, after_get, after_modify, instanceOf_eq hi]
  refine (he.runPending hlock hs).mono ?_
  rintro _ w₁ ⟨i₁, acts, hgoes, hworks, hquiet⟩
  have hbusy := hgoes.busy hlock.executing
  simp only [instanceOf_eq hgoes.here]
  cases hf : i₁.interrupted with
  | false =>
    obtain ⟨hq, hstack⟩ := hquiet hf
    refine ⟨_, _, hgoes.acted.unlock hi hq, ⟨hq.interrupted, hq.pending, hq.settled⟩, hworks.clearRequested, ?_⟩
    exact fun _ => ⟨Activity.countP_tellsInterruption hworks.inner, hstack⟩
  | true =>
    refine (he.interruptNow hbusy.good hbusy.here).mono ?_
    rintro _ w₂ ⟨i₂, acts', hgoes', hbare, hclear, hcount⟩
    have hq : w₂.Quiet R owner i₂ := hbare.quiet
    refine ⟨_, _, (hgoes.acted.trans hgoes').unlock hi hq, ⟨hq.interrupted, hq.pending, hq.settled⟩, ?_, ?_⟩
    · change i₂.clearRequested = _
      rw [hclear, hworks.clearRequested, List.any_append, Bool.or_assoc]
    · intro hnone
      have hreq := hworks.interrupted
      rw [hf] at hreq
      rw [List.any_append, ← Bool.or_assoc] at hnone
      change true = (i.interrupted || acts.any Activity.isRequest) at hreq
      rw [← hreq] at hnone
      cases hnone

/-- A job is queued, and run at once if its instance is idle. -/
theorem Serves.schedule (he : e.Serves R) (hg : w.Good R) (hi : w.instances[owner]? = some i) {job : Job}
    (hj : R.swap = false → i.tree.Accepts job) :
    w.After (e.schedule owner job) fun _ w' => w'.Good R ∧ w.Advances (!R.swap) Part.none w' := by
  have hchanges := ((Changes.refl hi).observe (.queued job)).modify fun i => { i with pending := i.pending ++ [job] }
  have hpending : R.swap = false → ∀ j ∈ i.pending ++ [job], i.tree.Accepts j := by
    intro hs j hmem
    rcases List.mem_append.mp hmem with hmem | hmem
    · exact (hg.holds hi).pending hs j hmem
    · rw [List.mem_singleton.mp hmem]
      exact hj hs
  simp only [Engine.schedule, after_bind, after_get, instanceOf_eq hi]
  cases hexec : i.executing with
  | true =>
    simp only [Bool.not_true, Bool.and_false, Bool.false_eq_true, if_false, after_bind, after_modify, if_true]
    refine ⟨hg.of_changes hi hchanges rfl hpending fun he => ?_, ?_⟩
    · rw [show (_ : Bool) = true from hexec] at he
      cases he
    · refine .of_changes hchanges hi rfl (fun _ => rfl) fun _ => ?_
      exact ⟨⟨i.env.vars, rfl⟩, by simp [Activity.job?], by simp [Activity.isRequest], by simp [Activity.isClear],
        by simp [Activity.Quiet]⟩
  | false =>
    simp only [Bool.not_false, Bool.and_true, Bool.false_eq_true, if_false]
    split
    · exact ⟨hg, .refl w⟩
    · simp only [after_bind, after_modify]
      generalize (w.observe owner (.queued job)).modifyInstance owner (fun i =>
        { i with pending := i.pending ++ [job] }) = w₁ at hchanges
      have hlock := hchanges.modify fun i => { i with executing := true }
      have hsettled : w₁.Settled R owner { i with pending := i.pending ++ [job] } := by
        obtain ⟨_, _, hr⟩ := (hg.holds hi).idle hexec
        change R.Rests i.tree i.env (w₁.watch owner i.tree).spilled
        rw [watch_of_acts hchanges.acts_self]
        exact hr
      refine (he.drain hchanges.self ⟨?_, hlock.self, rfl⟩ hsettled).mono ?_
      · exact hg.of_changes hi hlock rfl hpending (by simp)
      · rintro _ w' ⟨i', acts, hgoes, _⟩
        refine ⟨hgoes.good, (Advances.trans (.of_changes hchanges hi rfl (fun _ => rfl) fun he => ?_)
          hgoes.advances).of_idle hi hexec⟩
        rw [hexec] at he
        cases he

end Engine

end BehaviorTree
