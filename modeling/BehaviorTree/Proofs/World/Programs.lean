import BehaviorTree.Proofs.Engine.Congruence
import BehaviorTree.Proofs.World.Runs

/-!
Programs that follow the rules keep them. Whatever a host may do with a world leaves a good one, and so calls of any
depth keep what they are asked for: what holds of good worlds holds of every world that such a program makes.
-/

namespace BehaviorTree
set_option autoImplicit false

variable {σ : Type} {R : Rules σ} {e : Engine σ} {w w' w'' : World σ} {o tag : Tag} {i : Instance} {may : Bool}

namespace World

/-- What a program leaves: a good world, in which instances that execute go on undisturbed unless the program may do
more than a callback. -/
structure Abides (R : Rules σ) (may : Bool) (w w' : World σ) : Prop where
  good : w'.Good R
  advances : may = R.swap → w.Advances (!R.swap) Part.none w'

namespace Abides

theorem refl (h : w.Good R) : w.Abides R may w := ⟨h, fun _ => .refl w⟩

theorem trans (h : w.Abides R may w') (h' : w'.Abides R may w'') : w.Abides R may w'' :=
  ⟨h'.good, fun hm => (h.advances hm).trans (h'.advances hm)⟩

theorem of_advances (hg : w'.Good R) (ha : w.Advances (!R.swap) Part.none w') : w.Abides R may w' := ⟨hg, fun _ => ha⟩

/-- Only what is in neither an instance nor the journal of one changes. -/
theorem of_eq (hg : w'.Good R) (hi : w'.instances = w.instances) (ha : ∀ o, w'.acts o = w.acts o) :
    w.Abides R may w' := .of_advances hg (.of_eq ha hi)

theorem reports (h : w.Good R) (rs : List Report) : w.Abides R may (rs.foldl World.report w) := by
  induction rs generalizing w with
  | nil => exact .refl h
  | cons r rs ih =>
    exact trans (.of_eq (h.report r) rfl fun _ => acts_report _ _ _) (ih (h.report r))

theorem releaseTag (h : w.Good R) (tag : Tag) : w.Abides R may (w.releaseTag tag) :=
  .of_eq (h.releaseTag tag) (instances_releaseTag _ _) fun _ => acts_releaseTag _ _ _

/-- A new instance has nothing under way, and no other is concerned. -/
theorem create (h : w.Good R) {tree : Tree} (ht : R.registry.Loads tree) (vars : Variables) :
    w.Abides R may (w.create tree vars).2 := by
  have hnone : w.instances[(⟨w.nextTag⟩ : Tag)]? = none := by
    cases hi : w.instances[(⟨w.nextTag⟩ : Tag)]? with
    | none => rfl
    | some i => exact absurd (h.holds hi).given (Nat.lt_irrefl _)
  have hget : ∀ o : Tag, (w.create tree vars).2.instances[o]? =
      if ⟨w.nextTag⟩ = o then some { tree, env := { vars } } else w.instances[o]? := by
    simp [World.create, newTag, setInstance, Std.ExtTreeMap.getElem?_insert]
  have hold : ∀ {o : Tag} {i : Instance}, w.instances[o]? = some i →
      (w.create tree vars).2.instances[o]? = some i := by
    intro o i hi
    rw [hget, if_neg, hi]
    rintro rfl
    rw [hnone] at hi
    cases hi
  refine .of_advances ⟨h.registry, h.host, h.subscriptions, h.delays, ?_, ?_, ?_, ?_⟩ ⟨?_, ?_⟩
  · exact fun hs => (h.listeners hs).mono fun o i _ hi => ⟨i, hold hi, fun _ => rfl⟩
  · exact fun hd => (h.alarms hd).mono fun o i _ hi => ⟨i, hold hi, fun _ => rfl⟩
  · intro o ho
    rw [hget] at ho
    split at ho
    · cases ho
    · exact h.silent ho
  · intro o i hi
    rw [hget] at hi
    split at hi
    · rename_i hnew
      subst hnew
      obtain rfl := Option.some.inj hi
      have hspilled : (w.create tree vars).2.spilled ⟨w.nextTag⟩ tree = false := by
        rw [spilled, watch, show (w.create tree vars).2.acts ⟨w.nextTag⟩ = [] from h.silent hnone]
        rfl
      refine ⟨Nat.lt_succ_self _, ht, by simp, fun _ => ⟨rfl, rfl, ?_⟩⟩
      rw [hspilled]
      exact .bare rfl rfl rfl
    · exact (h.holds hi).of_eq (Nat.le_succ _) rfl
  · intro o
    exact ⟨[], (List.append_nil _).symm, fun i hi => ⟨i, hold hi, rfl, fun _ => rfl, fun _ => .refl _ i⟩⟩
  · intro o i hn hi
    rw [hget] at hi
    split at hi
    · obtain rfl := Option.some.inj hi
      rfl
    · rw [hn] at hi
      cases hi

/-- What is done to an idle instance as a whole concerns no other. -/
theorem of_idle {i' : Instance} {acts : List Activity} (h : w.Goes R .acted o i w' i' acts)
    (hi : w.instances[o]? = some i) (he : i.executing = false) : w.Abides R may w' :=
  .of_advances h.good (h.advances.of_idle hi he)

/-- Others change the variables of an instance, or give it up. -/
theorem modify (h : w.Good R) (hi : w.instances[o]? = some i) (f : Instance → Instance)
    (hf : ∀ i : Instance, ∃ vars dropped, f i = { i with env := { i.env with vars }, dropped }) :
    w.Abides R may (w.modifyInstance o f) := by
  obtain ⟨vars, dropped, hv⟩ := hf i
  have hc := (Changes.refl hi).modify f
  rw [hv] at hc
  have hold := h.holds hi
  refine .of_advances (h.of_changes hi hc rfl hold.pending fun he => ?_)
    (.of_changes hc hi rfl (fun _ => rfl) fun _ => ?_)
  · obtain ⟨hf, hp, hr⟩ := hold.idle he
    refine ⟨hf, hp, hr.fits, fun hs => ?_⟩
    have ho := hr.ordered hs
    rw [spilled_eq (acts_modifyInstance _ _ _ _)]
    exact ⟨ho.main, ho.based, ho.inward, ho.detached, ho.parked, ho.unparked, ho.delayed, fun hsp => by
      obtain ⟨z, hz⟩ := ho.stray hsp
      exact ⟨z, hz.payload, hz.stack, hz.detached, hz.nested⟩⟩
  · exact ⟨⟨vars, rfl⟩, by simp, by simp, by simp, by simp⟩

theorem assign (h : w.Good R) (hi : w.instances[o]? = some i) (name : String) (value : Option Value) :
    w.Abides R may (w.assign o name value) := by
  have hc := (Changes.refl hi).observe (.assigned name value)
  have hold := h.holds hi
  have hseen : w.Abides R may (w.observe o (.assigned name value)) := by
    refine .of_advances (h.of_changes hi hc rfl hold.pending fun he => ?_)
      (.of_changes hc hi rfl (fun _ => rfl) fun _ => ?_)
    · obtain ⟨hf, hp, hr⟩ := hold.idle he
      refine ⟨hf, hp, ?_⟩
      rw [spilled, watch_of_acts hc.acts_self]
      exact hr
    · exact ⟨⟨i.env.vars, rfl⟩, by simp [Activity.job?], by simp [Activity.isRequest], by simp [Activity.isClear],
        by simp [Activity.Quiet]⟩
  exact hseen.trans (.modify hseen.good hi _ fun i => ⟨i.env.vars.assign name value, i.dropped, rfl⟩)

/-- An executing instance is asked to be interrupted, or to be cleared as well. -/
theorem request (h : w.Good R) (hi : w.instances[o]? = some i) (he : i.executing = true) (clear : Bool) :
    w.Abides R may ((w.observe o (.requested clear)).modifyInstance o fun i =>
      { i with interrupted := true, clearRequested := i.clearRequested || clear }) := by
  have hc := ((Changes.refl hi).observe (.requested clear)).modify fun i =>
    { i with interrupted := true, clearRequested := i.clearRequested || clear }
  refine .of_advances (h.of_changes hi hc rfl (h.holds hi).pending fun hx => ?_)
    (.of_changes hc hi rfl (fun _ => rfl) fun _ => ?_)
  · rw [show _ = true from he] at hx
    cases hx
  · exact ⟨⟨i.env.vars, rfl⟩, by simp [Activity.job?], by simp [Activity.isRequest], by simp [Activity.isClear],
      by simp [Activity.Quiet]⟩

end Abides

theorem Good.shows (h : w.Good R) : R.Shows w.overview := by
  refine ⟨h.host, fun owner => ?_⟩
  cases hi : w.instances[owner]? with
  | none =>
    refine .inl ?_
    change (w.instanceOf owner).tree = {}
    rw [instanceOf, Std.ExtTreeMap.getD_eq_getD_getElem?, hi]
    rfl
  | some i =>
    refine .inr ?_
    change R.registry.Loads (w.instanceOf owner).tree
    rw [instanceOf_eq hi]
    exact (h.holds hi).loaded

/-- An idle instance is asked for something, which changes nothing of it yet. -/
theorem Goes.requested (h : w.Good R) (hi : w.instances[o]? = some i) (he : i.executing = false) (clear : Bool) :
    w.Goes R .acted o i (w.observe o (.requested clear)) i [.requested clear] := by
  obtain ⟨hf, hp, hr⟩ := (h.holds hi).idle he
  have hc := (Changes.refl hi).observe (.requested clear)
  refine .of_changes h hi hc rfl rfl (by simp [hp]) (fun _ => ⟨hf, hp, ?_⟩) fun _ => trivial
  rw [Settled, spilled, watch_of_acts hc.acts_self]
  exact hr

end World

open World

namespace Engine

theorem after_withInstance {α : Type} {absent : α} {m : WorldM σ α} {Q : α → World σ → Prop}
    (hnone : w.instances[o]? = none → Q absent w) (hsome : ∀ i, w.instances[o]? = some i → w.After m Q) :
    w.After (withInstance o absent m) Q := by
  rw [withInstance, after_bind, after_get, Std.ExtTreeMap.contains_eq_isSome_getElem?]
  cases hi : w.instances[o]? with
  | none => exact hnone hi
  | some i => exact hsome i hi

/-- An idle instance gets another loaded tree; nothing of the old one is left. -/
theorem after_setTree (h : w.Good R) (hi : w.instances[o]? = some i) {tree : Tree} (ht : R.registry.Loads tree)
    (hmay : may = true) : w.After (setTree o tree) fun _ => w.Abides R may := by
  rw [Engine.setTree, after_bind, after_get, instanceOf_eq hi]
  cases he : i.executing with
  | true =>
    simp only [he, if_true]
    exact Abides.refl h
  | false =>
    simp only [he, Bool.false_eq_true, if_false, after_bind, after_modify]
    refine (after_release h hi).mono ?_
    rintro _ w₁ ⟨hgoes, howns⟩
    have hc := (Changes.refl hgoes.here).modify fun i => { i with tree, env := { i.env with privates := ∅ } }
    have hspilled := spilled_of_unwound (t := tree) (w.acts o)
      (hc.acts_self.trans ((List.append_nil _).trans hgoes.acts))
    refine ⟨hgoes.good.of_replaced hgoes.here hc ht (.inr howns) (by simp) fun _ => ⟨?_, rfl, ?_⟩, fun hs => ?_⟩
    · exact ((h.holds hi).idle he).1
    · rw [hspilled]
      exact .bare rfl rfl rfl
    · refine (hgoes.advances.of_idle hi he).trans (.of_changes hc hgoes.here rfl (fun hk => ?_) fun hx => ?_)
      · rw [← hs, hmay, show _ = false from he] at hk
        simp at hk
      · rw [show _ = false from he] at hx
        cases hx

theorem Honors.update (he : e.Honors R) (h : w.Good R) (dt : Float) :
    w.After (e.update dt) fun _ => w.Abides R may := by
  simp only [Engine.update, after_bind, after_get, after_modify]
  have habides : w.Abides R may { w with time := w.time + dt, delays := (w.delays.takeDue (w.time + dt)).2 } := by
    refine .of_eq (h.of_delays (h.delays.takeEach _) fun id entry hentry => ?_) rfl fun _ => rfl
    exact h.alarms (Delays.pending_of_takeEach hentry)
  refine (after_forM (P := fun w' => w.Abides R may w' ∧ w.Advances (!R.swap) Part.none w') ⟨habides, ?_⟩ ?_).mono
    fun _ _ hw => hw.1
  · exact .of_eq (fun _ => rfl) rfl
  · rintro a ha w' ⟨hw', hadv⟩
    obtain ⟨id, entry, hentry, rfl⟩ := Delays.mem_takeEach ha
    refine (he.alarm hw'.good ((h.alarms hentry).advance hadv)).mono ?_
    rintro _ w'' ⟨hg, hadv'⟩
    exact ⟨hw'.trans (.of_advances hg hadv'), hadv.trans hadv'⟩

namespace Serves

variable (he : e.Serves R)
include he

theorem runTree_abides (h : w.Good R) (hi : w.instances[o]? = some i) :
    w.After (e.runTree o) fun _ => w.Abides R may := by
  cases hexec : i.executing with
  | true =>
    rw [Engine.runTree, after_bind, after_get, instanceOf_eq hi]
    simp only [hexec, if_true]
    exact .refl h
  | false =>
    refine (he.runTree h hi hexec).mono ?_
    rintro _ w' ⟨i', acts, hgoes, _⟩
    exact .of_idle hgoes hi hexec

theorem interruptTree_abides (h : w.Good R) (hi : w.instances[o]? = some i) :
    w.After (e.interruptTree o) fun _ => w.Abides R may := by
  rw [Engine.interruptTree, after_bind, after_modify, after_bind, after_get,
    show (w.observe o (.requested false)).instanceOf o = i from instanceOf_eq hi]
  cases hexec : i.executing with
  | true =>
    have hasked : w.Abides R may _ := .request h hi hexec false
    simp only [if_true, after_modify]
    simpa using hasked
  | false =>
    have hgoes := Goes.requested h hi hexec false
    refine (he.interruptNow hgoes.good hgoes.here).mono ?_
    rintro _ w' ⟨i', acts, hgoes', _⟩
    exact .of_idle (hgoes.trans hgoes') hi hexec

theorem clearTree_abides (h : w.Good R) (hi : w.instances[o]? = some i) :
    w.After (e.clearTree o) fun _ => w.Abides R may := by
  rw [Engine.clearTree, after_bind, after_modify, after_bind, after_get,
    show (w.observe o (.requested true)).instanceOf o = i from instanceOf_eq hi]
  cases hexec : i.executing with
  | true =>
    have hasked : w.Abides R may _ := .request h hi hexec true
    simp only [if_true, after_modify]
    simpa using hasked
  | false =>
    have hgoes := Goes.requested h hi hexec true
    refine (he.clearNow hgoes.good hgoes.here ((hgoes.good.holds hgoes.here).idle hexec).2.2).mono ?_
    rintro _ w' ⟨i', acts, hgoes', _⟩
    exact .of_idle (hgoes.trans hgoes') hi hexec

/-- Whatever a program does that follows the rules keeps them. -/
theorem perform {p : Program σ} (hp : p.Obeys R may) (h : w.Good R) :
    w.After (e.perform p) fun _ => w.Abides R may := by
  -- an operation, and then the rest of the program
  have hstep : ∀ {β : Type} {m : WorldM σ β} {next : β → Program σ} {w : World σ} {P : β → Prop},
      w.After m (fun r w' => w.Abides R may w' ∧ P r) →
      (∀ r {w : World σ}, P r → w.Good R → w.After (e.perform (next r)) fun _ => w.Abides R may) →
      w.After (m >>= fun r => e.perform (next r)) fun _ => w.Abides R may := by
    intro β m next w P hm hnext
    rw [after_bind]
    refine hm.mono ?_
    rintro r w₁ ⟨hw₁, hr⟩
    exact (hnext r hr hw₁.good).mono fun _ _ hw₂ => hw₁.trans hw₂
  have hthen : ∀ {m : WorldM σ Unit} {next : Program σ} {w : World σ},
      w.After m (fun _ => w.Abides R may) →
      (∀ {w : World σ}, w.Good R → w.After (e.perform next) fun _ => w.Abides R may) →
      w.After (m >>= fun _ => e.perform next) fun _ => w.Abides R may := fun hm hnext =>
    hstep (P := fun _ => True) (hm.mono fun _ _ hw => ⟨hw, trivial⟩) fun _ _ _ => hnext
  have hany : ∀ {β : Type} {m : WorldM σ β} {next : β → Program σ} {w : World σ},
      w.After m (fun _ => w.Abides R may) →
      (∀ r {w : World σ}, w.Good R → w.After (e.perform (next r)) fun _ => w.Abides R may) →
      w.After (m >>= fun r => e.perform (next r)) fun _ => w.Abides R may := fun hm hnext =>
    hstep (P := fun _ => True) (hm.mono fun _ _ hw => ⟨hw, trivial⟩) fun r _ _ => hnext r
  induction p generalizing w with
  | done => exact .refl h
  | look next ih =>
    exact hstep (P := fun v => R.Shows v.overview) ((after_get _).mpr ⟨.refl h, h.shows⟩)
      fun v _ hv hw => ih v.overview (hp _ hv) hw
  | store host next ih =>
    refine hthen ((after_modify _ _).mpr (.of_eq ?_ rfl fun _ => rfl)) fun hw => ih hp.2 hw
    exact h.of_eq rfl hp.1 rfl rfl rfl (Nat.le_refl _) fun _ => rfl
  | note v next ih =>
    refine hthen ((after_modify _ _).mpr (.of_eq (h.note v) rfl fun _ => ?_)) fun hw => ih hp hw
    simp [acts_record, Entry.of?]
  | load spec strict next ih =>
    refine hstep (P := fun r => ∀ t, r = .ok t → R.registry.Loads t) ((after_apply _).mpr ⟨.reports h _, ?_⟩)
      fun r _ hr hw => ih r (hp r hr) hw
    intro t ht
    refine ⟨w.compile, strict, spec, (Tree.load w.registry w.compile strict spec).2, ?_⟩
    rw [← h.registry]
    exact Prod.ext ht rfl
  | install code f next ih =>
    refine hthen ((after_modify _ _).mpr (.of_eq ?_ rfl fun _ => rfl)) fun hw => ih hp hw
    exact h.of_eq rfl h.host rfl rfl rfl (Nat.le_refl _) fun _ => rfl
  | newTag next ih =>
    refine hany ((after_apply _).mpr (.of_eq ?_ rfl fun _ => rfl)) fun tag _ hw => ih tag (hp tag) hw
    exact h.of_eq rfl h.host rfl rfl rfl (Nat.le_succ _) fun _ => rfl
  | create tree vars next ih =>
    exact hany ((after_apply _).mpr (.create h hp.1 vars)) fun owner _ hw => ih owner (hp.2 owner) hw
  | run owner next ih =>
    exact hany (after_withInstance (fun _ => .refl h) fun _ hi => he.runTree_abides h hi)
      fun r _ hw => ih r (hp r) hw
  | interrupt owner next ih =>
    exact hthen (after_withInstance (fun _ => .refl h) fun _ hi => he.interruptTree_abides h hi) fun hw => ih hp hw
  | clear owner next ih =>
    exact hthen (after_withInstance (fun _ => .refl h) fun _ hi => he.clearTree_abides h hi) fun hw => ih hp hw
  | setTree owner tree next ih =>
    exact hany (after_withInstance (fun _ => .refl h) fun _ hi => after_setTree h hi hp.2.1 hp.1)
      fun r _ hw => ih r (hp.2.2 r) hw
  | setVar owner name value next ih =>
    refine hthen (after_withInstance (fun _ => .refl h) fun _ hi => ?_) fun hw => ih hp hw
    exact (after_modify _ _).mpr (.assign h hi name value)
  | drop owner next ih =>
    refine hthen (after_withInstance (fun _ => .refl h) fun _ hi => (after_modify _ _).mpr ?_) fun hw => ih hp hw
    have habides : w.Abides R may _ := .modify h hi _ fun i => ⟨i.env.vars, true, rfl⟩
    exact habides.trans (.releaseTag habides.good owner)
  | update dt next ih => exact hthen (he.sound.honors.update h dt) fun hw => ih hp hw
  | dispatch key args next ih =>
    refine hany ((he.sound.honors.dispatch h key args).mono ?_) fun n _ hw => ih n (hp n) hw
    exact fun _ _ hw => .of_advances hw.1 hw.2
  | subscribe key tag callback next _ ih =>
    refine hany ((after_apply _).mpr (.of_eq ?_ rfl fun _ => rfl)) fun id _ hw => ih id (hp.2 id) hw
    exact h.subscribe key (l := .host callback) hp.1
  | unsubscribe id next ih =>
    refine hany ((after_apply _).mpr (.of_eq ?_ rfl fun _ => rfl)) fun found _ hw => ih found (hp found) hw
    refine h.of_subscriptions (h.subscriptions.remove id) fun x entry hentry => ?_
    exact h.listeners (Subscriptions.entries_of_remove hentry)
  | unsubscribeEvent event tag next ih =>
    refine hany ((after_apply _).mpr (.of_eq ?_ rfl fun _ => rfl)) fun count _ hw => ih count (hp count) hw
    refine h.of_subscriptions (h.subscriptions.removeEvent event tag) fun x entry hentry => ?_
    exact h.listeners (Subscriptions.entries_of_removeEach hentry)
  | release tag next ih => exact hthen ((after_modify _ _).mpr (.releaseTag h tag)) fun hw => ih hp hw
  | delay time tag callback next _ ih =>
    refine hany ((after_apply _).mpr (.of_eq ?_ rfl fun _ => rfl)) fun id _ hw => ih id (hp.2 id) hw
    exact h.delay time (a := .host callback) hp.1
  | cancel id next ih =>
    refine hany ((after_apply _).mpr (.of_eq ?_ rfl fun _ => rfl)) fun found _ hw => ih found (hp found) hw
    refine h.of_delays (h.delays.cancel id) fun x entry hentry => ?_
    exact h.alarms (Delays.pending_of_take hentry)

/-- Who hears an event keeps the rules: a listening node queues a job, and a host does what it does. -/
theorem hearEvent {l : Listener σ} (h : w.Good R) (hl : l.Valid R w tag) (event : Event) :
    w.After (e.hearEvent l event) fun _ w' => w'.Good R ∧ w.Advances (!R.swap) Part.none w' := by
  cases l with
  | node owner listener child =>
    obtain ⟨_, i, hi, hlistens⟩ := hl
    exact he.schedule h hi hlistens
  | host react => exact (he.perform (hl event) h).mono fun _ _ hw => ⟨hw.good, hw.advances rfl⟩

theorem setOff {a : Alarm σ} (h : w.Good R) (ha : a.Valid R w tag) :
    w.After (e.setOff a) fun _ w' => w'.Good R ∧ w.Advances (!R.swap) Part.none w' := by
  cases a with
  | job owner job =>
    obtain ⟨_, i, hi, haccepts⟩ := ha
    exact he.schedule h hi haccepts
  | host act => exact (he.perform ha h).mono fun _ _ hw => ⟨hw.good, hw.advances rfl⟩

theorem deeper : e.deeper.Serves R := by
  have hhonors : e.deeper.Honors R := ⟨fun event h hl => he.hearEvent h hl event, he.setOff⟩
  exact ⟨he.sound.succ hhonors rfl rfl, he.runNext⟩

end Serves

theorem serves_exhausted : (exhausted : Engine σ).Serves R :=
  ⟨⟨⟨fun _ _ _ => rfl, fun _ _ => rfl⟩, ⟨fun _ _ _ _ _ _ => .inl rfl, fun _ _ _ _ _ _ _ => .inl rfl⟩,
    fun _ => rfl, fun _ => rfl, fun _ => rfl⟩, fun _ _ => rfl⟩

/-- Calls of whatever depth keep what they are asked for. -/
theorem serves_ofDepth (n : Nat) : (ofDepth n : Engine σ).Serves R := by
  induction n with
  | zero => exact serves_exhausted
  | succ n ih => exact ih.deeper

end Engine

end BehaviorTree
