import BehaviorTree.Proofs.Engine.Correspondence

/-!
Two worlds side by side, in which the same is done with one instance. What the two worlds have in common is a matter of
the relation between them. As long as the instance and what its tag owns are the same for both, and what is done to
them keeps the worlds related, the two go on in step, whatever the tree of the instance, and give the same results.
-/

namespace BehaviorTree
set_option autoImplicit false

variable {σ α β : Type} {W : World σ → World σ → Prop} {o : Tag} {Seen : String → Prop} {Fits : Node → Prop}
  {Hears : Listener σ → Prop}

/-! ### Computations in step -/

inductive World.Together (W : World σ → World σ → Prop) :
    Except Halt (α × World σ) → Except Halt (α × World σ) → Prop where
  | ok (a : α) {w w' : World σ} : W w w' → Together W (.ok (a, w)) (.ok (a, w'))
  | error (h : Halt) : Together W (.error h) (.error h)

/-- From related worlds two computations go to related worlds, with the same result. -/
def WorldM.InStep (W : World σ → World σ → Prop) (m m' : WorldM σ α) : Prop :=
  ∀ ⦃w w' : World σ⦄, W w w' → World.Together W (m.run w) (m'.run w')

namespace WorldM.InStep

theorem pure (a : α) : InStep W (pure a) (Pure.pure a) := fun _ _ hw => .ok a hw

theorem throw (h : Halt) : InStep W (throw h : WorldM σ α) (MonadExcept.throw h) := fun _ _ _ => .error h

theorem bind {m m' : WorldM σ α} {f f' : α → WorldM σ β} (hm : InStep W m m') (hf : ∀ a, InStep W (f a) (f' a)) :
    InStep W (m >>= f) (m' >>= f') := by
  intro w w' hw
  have hends := hm hw
  rw [StateT.run_bind, StateT.run_bind]
  generalize m.run w = r, m'.run w' = r' at hends
  cases hends with
  | ok a hu => exact hf a hu
  | error h => exact .error h

theorem get {f f' : World σ → WorldM σ α} (hf : ∀ w w', W w w' → InStep W (f w) (f' w')) :
    InStep W (MonadState.get >>= f) (MonadState.get >>= f') := fun w w' hw => hf w w' hw hw

theorem modify {f f' : World σ → World σ} (hf : ∀ w w', W w w' → W (f w) (f' w')) :
    InStep W (modify f) (modifyGet fun w => (⟨⟩, f' w)) := fun w w' hw => .ok _ (hf w w' hw)

theorem ite {P : Prop} [Decidable P] {m m' n n' : WorldM σ α} (hm : InStep W m m') (hn : InStep W n n') :
    InStep W (if P then m else n) (if P then m' else n') := by
  split
  · exact hm
  · exact hn

theorem forM {f f' : β → WorldM σ PUnit} {bs : List β} (hf : ∀ b ∈ bs, InStep W (f b) (f' b)) :
    InStep W (bs.forM f) (bs.forM f') := by
  induction bs with
  | nil => exact .pure _
  | cons b bs ih =>
    refine .bind (hf b List.mem_cons_self) fun _ => ih fun c hc => ?_
    exact hf c (List.mem_cons_of_mem b hc)

end WorldM.InStep

def Tick.Alike (Seen : String → Prop) (W : World σ → World σ → Prop) (t t' : Tick σ) : Prop :=
  Env.Like Seen t.env t'.env ∧ W t.world t'.world

inductive Outcome.Together (Seen : String → Prop) (W : World σ → World σ → Prop) :
    Outcome σ α → Outcome σ α → Prop where
  | ok (a : α) {t t' : Tick σ} : t.Alike Seen W t' → Together Seen W (.ok a t) (.ok a t')
  | failed (e : RunError) {t t' : Tick σ} : t.Alike Seen W t' → Together Seen W (.failed e t) (.failed e t')
  | halted (h : Halt) : Together Seen W (.halted h) (.halted h)

/-- From ticks that are alike two computations go to such ticks, with the same result. -/
def TickM.InStep (o : Tag) (Seen : String → Prop) (Fits : Node → Prop) (W : World σ → World σ → Prop) :
    TickM.Relation σ := fun _ m m' =>
  ∀ ⦃tree : Tree⦄, (∀ id n, tree.get? id = some n → Fits n) → ∀ ⦃t t' : Tick σ⦄, t.Alike Seen W t' →
    (m ⟨o, tree⟩ t).Together Seen W (m' ⟨o, tree⟩ t')

/-! ### Worlds that mirror each other -/

/-- Two instances that differ at most in variables that are not seen, of which neither a node nor a waiting job looks at
any. -/
structure Instance.Like (Seen : String → Prop) (Fits : Node → Prop) (i i' : Instance) : Prop where
  env : Env.Like Seen i.env i'.env
  rest : i' = { i with env := i'.env }
  fits (id : NodeId) (n : Node) : i.tree.get? id = some n → Fits n
  jobs : ∀ job ∈ i.pending, job.Heeds Seen

namespace Instance.Like

variable {i i' : Instance} (h : i.Like Seen Fits i')
include h

theorem tree : i'.tree = i.tree := by rw [h.rest]

theorem pending : i'.pending = i.pending := by rw [h.rest]

theorem executing : i'.executing = i.executing := by rw [h.rest]

theorem interrupted : i'.interrupted = i.interrupted := by rw [h.rest]

theorem clearRequested : i'.clearRequested = i.clearRequested := by rw [h.rest]

theorem dropped : i'.dropped = i.dropped := by rw [h.rest]

end Instance.Like

/-- Related worlds have the same clock, and the same instance under a tag, with the same listeners of its lifecycle. What
is done to the instance, or with subscriptions and delays of its tag, keeps worlds related. -/
structure World.Mirrors (o : Tag) (Seen : String → Prop) (Fits : Node → Prop) (Hears : Listener σ → Prop)
    (W : World σ → World σ → Prop) : Prop where
  time {w w' : World σ} : W w w' → w'.time = w.time
  there {w w' : World σ} : W w w' → w'.instances.contains o = w.instances.contains o
  instanceOf {w w' : World σ} : W w w' → (w.instanceOf o).Like Seen Fits (w'.instanceOf o)
  listeners {w w' : World σ} (event : Lifecycle) : W w w' →
    w'.subscriptions.callbacks ⟨event.name, some o.text⟩ = w.subscriptions.callbacks ⟨event.name, some o.text⟩ ∧
      ∀ l ∈ w.subscriptions.callbacks ⟨event.name, some o.text⟩, Hears l
  modify {w w' : World σ} {f f' : Instance → Instance} :
    (∀ i i' : Instance, i.Like Seen Fits i' → (f i).Like Seen Fits (f' i')) → W w w' →
      W (w.modifyInstance o f) (w'.modifyInstance o f')
  /-- Nothing is recorded of other instances. -/
  record {w w' : World σ} {e : Entry} : (∀ p, p ≠ o → e.of? p = none) → W w w' → W (w.record e) (w'.record e)
  subscribe {w w' : World σ} {key : EventKey} (listener child : NodeId) : key.Heard o → W w w' →
    W (w.subscribe key o (.node o listener child)).2 (w'.subscribe key o (.node o listener child)).2
  delay {w w' : World σ} (span : Float) {job : Job} : job.Heeds Seen → W w w' →
    W (w.delay span o (.job o job)).2 (w'.delay span o (.job o job)).2
  release {w w' : World σ} : W w w' → W (w.releaseTag o) (w'.releaseTag o)

namespace World.Mirrors

variable (hW : World.Mirrors o Seen Fits Hears W)
include hW

theorem observe {w w' : World σ} (a : Activity) (hw : W w w') : W (w.observe o a) (w'.observe o a) :=
  hW.record (fun _ hp => if_neg (Ne.symm hp)) hw

theorem report {w w' : World σ} (r : Report) (hw : W w w') : W (w.report r) (w'.report r) :=
  hW.record (fun _ _ => rfl) hw

/-- Something is done to an instance that leaves its tree, its state and its jobs alone. -/
theorem flag {w w' : World σ} {f : Instance → Instance}
    (hf : ∀ (i : Instance) (env : Env), f { i with env } = { f i with env }) (htree : ∀ i, (f i).tree = i.tree)
    (henv : ∀ i, (f i).env = i.env) (hpending : ∀ i, ∀ job ∈ (f i).pending, job ∈ i.pending) (hw : W w w') :
    W (w.modifyInstance o f) (w'.modifyInstance o f) := by
  refine hW.modify ?_ hw
  intro i i' hi
  have hrest : f i' = { f i with env := i'.env } := by
    rw [hi.rest]
    exact hf i i'.env
  refine ⟨?_, ?_, ?_, ?_⟩
  · rw [henv, henv]
    exact hi.env
  · rw [henv]
    exact hrest
  · rw [htree]
    exact hi.fits
  · exact fun job hjob => hi.jobs job (hpending i job hjob)

theorem respects : TickM.Respects o Seen Fits (TickM.InStep o Seen Fits W) where
  pure a := fun _ _ _ _ ht => .ok a ht
  bind {α β m m' f f'} hm hf := by
    intro tree hfits t t' ht
    have hends := hm hfits ht
    rw [TickM.bind_apply, TickM.bind_apply]
    generalize m ⟨o, tree⟩ t = r, m' ⟨o, tree⟩ t' = r' at hends
    cases hends with
    | ok a hu => exact hf a hfits hu
    | failed e hu => exact .failed e hu
    | halted h => exact .halted h
  fail e := fun _ _ _ _ ht => .failed e ht
  halt h := fun _ _ _ _ _ => .halted h
  attempt {α m m'} hm := by
    intro tree hfits t t' ht
    have hends := hm hfits ht
    rw [TickM.attempt_apply, TickM.attempt_apply]
    generalize m ⟨o, tree⟩ t = r, m' ⟨o, tree⟩ t' = r' at hends
    cases hends with
    | ok a hu => exact .ok _ hu
    | failed e hu => exact .ok _ hu
    | halted h => exact .halted h
  bindOwner hf := fun _ hfits _ _ ht => hf hfits ht
  bindTree hf := fun tree hfits _ _ ht => hf tree hfits hfits ht
  bindEnv hf := fun _ hfits t t' ht => hf t.env t'.env ht.1 hfits ht
  time := by
    intro tree _ t t' ht
    have htime := hW.time ht.2
    change Outcome.Together Seen W (.ok t.world.time t) (.ok t'.world.time t')
    rw [htime]
    exact .ok _ ht
  interrupted := by
    intro tree _ t t' ht
    change Outcome.Together Seen W (.ok (t.world.instanceOf o).interrupted t) (.ok (t'.world.instanceOf o).interrupted t')
    rw [(hW.instanceOf ht.2).interrupted]
    exact .ok _ ht
  edit hf := fun _ _ _ _ ht => .ok _ ⟨hf.like ht.1, ht.2⟩
  remember name value _ _ := fun _ _ _ _ ht => .ok _ ⟨ht.1.setPrivate _ name value, ht.2⟩
  record he := fun _ _ _ _ ht => .ok _ ⟨ht.1, hW.record (fun p _ => he p) ht.2⟩
  interrupt := by
    intro tree _ t t' ht
    refine .ok _ ⟨ht.1, ?_⟩
    exact hW.flag (f := fun i => { i with interrupted := true }) (fun _ _ => rfl) (fun _ => rfl) (fun _ => rfl)
      (fun _ _ => id) (hW.observe _ ht.2)
  delay span _ hjob := fun _ _ _ _ ht => .ok _ ⟨ht.1, hW.delay span hjob ht.2⟩

theorem startListening (site : Site) {event : String} {target : Option String} (hkey : EventKey.Heard ⟨event, target⟩ o) :
    TickM.InStep o Seen Fits W _ (Engine.startListening site event target) (Engine.startListening site event target) := by
  rintro tree _ t t' ⟨⟨vars, henv, hv⟩, hw⟩
  have hlike : Env.Like Seen { t.env with listening := t.env.listening.insert site.id }
      { t'.env with listening := t'.env.listening.insert site.id } := by
    refine ⟨vars, ?_, hv⟩
    rw [henv]
  unfold Engine.startListening TickM.child TickM.element
  cases site.children[0]? with
  | some c => exact .ok _ ⟨hlike, hW.report _ (hW.subscribe site.id c hkey hw)⟩
  | none => exact .halted _

theorem correspondence : TickM.Correspondence o Seen Fits (TickM.InStep o Seen Fits W) := by
  have hreturned : ∀ (id : NodeId) (status : Option Status),
      TickM.Relation.Self (TickM.InStep o Seen Fits W) (TickM.observe (.returned id status)) :=
    fun _ _ _ _ _ _ ht => .ok _ ⟨ht.1, hW.observe _ ht.2⟩
  exact
    { hW.respects with
      returned := fun status _ _ => hreturned _ status
      listens := fun _ hn hb => hW.respects.listens hn hb (hreturned _) fun _ => hW.startListening _ }

end World.Mirrors

/-! ### The life of an instance -/

structure Engine.InStep (o : Tag) (Seen : String → Prop) (Fits : Node → Prop) (Hears : Listener σ → Prop)
    (W : World σ → World σ → Prop) (e e' : Engine σ) : Prop where
  mirrors : World.Mirrors o Seen Fits Hears W
  heeds {n : Node} : Fits n → n.Heeds Seen
  run (id : NodeId) : TickM.InStep o Seen Fits W _ (e.run id) (e'.run id)
  resume (level : Nat) : TickM.InStep o Seen Fits W _ (e.resume level) (e'.resume level)
  runPending : WorldM.InStep W (e.runPending o) (e'.runPending o)
  /-- What the instance tells of its life is heard alike. -/
  tell (event : Lifecycle) (args : List Value) :
    WorldM.InStep W (e.dispatch ⟨event.name, some o.text⟩ args) (e'.dispatch ⟨event.name, some o.text⟩ args)
  /-- Events that nodes dispatch are heard alike. -/
  dispatch {n : Node} {event : String} : Fits n → n.behavior = .dispatch event → ∀ (key : EventKey) (args : List Value),
    WorldM.InStep W (e.dispatch key args) (e'.dispatch key args)

namespace Engine.InStep

variable {e e' : Engine σ} (he : Engine.InStep o Seen Fits Hears W e e')
include he

theorem corresponds : Engine.Corresponds o Seen Fits (TickM.InStep o Seen Fits W) e e' :=
  { he.mirrors.correspondence with
    called := fun _ _ _ _ _ _ ht => .ok _ ⟨ht.1, he.mirrors.observe _ ht.2⟩
    heeds := he.heeds
    run := he.run
    resume := he.resume
    dispatch := by
      intro n event hn hb key args tree _ t t' ht
      have hends := he.dispatch hn hb key args ht.2
      unfold TickM.onWorld
      generalize (e.dispatch key args).run t.world = r, (e'.dispatch key args).run t'.world = r' at hends
      cases hends with
      | ok heard hu => exact .ok _ ⟨ht.1, hu⟩
      | error h => exact .halted h }

omit he in
/-- What the instance gets back differs as much as what it lent. -/
theorem giveBack (hW : World.Mirrors o Seen Fits Hears W) {t t' : Tick σ} (ht : t.Alike Seen W t') :
    W (Engine.giveBack o t) (Engine.giveBack o t') := by
  refine hW.observe _ (hW.modify ?_ ht.2)
  intro i i' hi
  refine ⟨ht.1, ?_, hi.fits, hi.jobs⟩
  rw [hi.rest]

theorem activate {m m' : TickM σ α} (hm : TickM.InStep o Seen Fits W _ m m') :
    WorldM.InStep W (Engine.activate o m) (Engine.activate o m') := by
  have hW := he.mirrors
  refine .bind (.modify fun _ _ hw => hW.observe _ hw) fun _ => .get fun w w' hw => .get fun v v' hv => ?_
  have hi := hW.instanceOf hw
  have hlent : Tick.Alike Seen W ⟨(w.instanceOf o).env, v⟩ ⟨(w'.instanceOf o).env, v'⟩ := ⟨hi.env, hv⟩
  have hends := hm hi.fits hlent
  rw [hi.tree]
  generalize m ⟨o, (w.instanceOf o).tree⟩ ⟨(w.instanceOf o).env, v⟩ = r,
    m' ⟨o, (w.instanceOf o).tree⟩ ⟨(w'.instanceOf o).env, v'⟩ = r' at hends
  cases hends with
  | ok a ht => exact fun _ _ _ => .ok _ (giveBack hW ht)
  | failed error ht => exact fun _ _ _ => .ok _ (giveBack hW ht)
  | halted h => exact .throw h

theorem announce (event : Lifecycle) (args : List Value) :
    WorldM.InStep W (e.announce o event args) (e'.announce o event args) :=
  .bind (.modify fun _ _ hw => he.mirrors.observe _ hw) fun _ => .bind (he.tell event args) fun _ => .pure _

theorem runNext : WorldM.InStep W (e.runNext o) (e'.runNext o) := by
  have hW := he.mirrors
  apply WorldM.InStep.get
  intro w w' hw
  have hi := hW.instanceOf hw
  rw [hi.pending]
  cases hjobs : (w.instanceOf o).pending with
  | nil => exact .pure _
  | cons job rest =>
    have hjob : job.Heeds Seen := hi.jobs job (hjobs ▸ List.mem_cons_self)
    have hrest : ∀ job ∈ rest, Job.Heeds Seen job := fun job hmem => hi.jobs job (hjobs ▸ List.mem_cons_of_mem _ hmem)
    have hnext : WorldM.InStep W
        (MonadState.get >>= fun w => if (w.instanceOf o).interrupted then Pure.pure () else e.runPending o)
        (MonadState.get >>= fun w => if (w.instanceOf o).interrupted then Pure.pure () else e'.runPending o) := by
      apply WorldM.InStep.get
      intro u u' hu
      rw [(hW.instanceOf hu).interrupted]
      exact .ite (.pure _) he.runPending
    refine .bind (.modify fun _ _ hw => hW.modify ?_ hw) fun _ => .bind (he.activate ?_) fun r => ?_
    · intro i i' hi
      refine ⟨hi.env, ?_, hi.fits, hrest⟩
      rw [hi.rest]
    · exact he.corresponds.bind (fun _ _ _ _ ht => .ok _ ⟨ht.1, hW.observe _ ht.2⟩) fun _ => he.corresponds.runAside hjob
    · cases r with
      | ok => exact hnext
      | error error => exact .bind (.modify fun _ _ hw => hW.report _ hw) fun _ => hnext

omit he in
theorem setExecuting (hW : World.Mirrors o Seen Fits Hears W) (b : Bool) :
    WorldM.InStep W (modify (·.modifyInstance o fun i => { i with executing := b }))
      (modify (·.modifyInstance o fun i => { i with executing := b })) :=
  .modify fun _ _ hw => hW.flag (f := fun i => { i with executing := b }) (fun _ _ => rfl) (fun _ => rfl)
    (fun _ => rfl) (fun _ _ => id) hw

omit he in
theorem whileExecuting (hW : World.Mirrors o Seen Fits Hears W) {m m' : WorldM σ Unit} (hm : WorldM.InStep W m m') :
    WorldM.InStep W (Engine.whileExecuting o m) (Engine.whileExecuting o m') := by
  apply WorldM.InStep.get
  intro w w' hw
  rw [(hW.instanceOf hw).executing]
  exact .bind (setExecuting hW true) fun _ => .bind hm fun _ => setExecuting hW _

omit he in
theorem unwound {i i' : Instance} (hi : i.Like Seen Fits i') :
    Instance.Like Seen Fits { i with pending := [], env := i.env.unwind } { i' with pending := [], env := i'.env.unwind } := by
  obtain ⟨vars, henv, hv⟩ := hi.env
  refine ⟨⟨vars, ?_, hv⟩, ?_, hi.fits, nofun⟩
  · rw [henv]
    rfl
  · rw [hi.rest]

omit he in
theorem release (hW : World.Mirrors o Seen Fits Hears W) :
    WorldM.InStep W (Engine.release o) (Engine.release o) :=
  .bind (.modify fun _ _ hw => hW.release hw) fun _ => .bind (.modify fun _ _ hw => hW.observe _ hw) fun _ =>
    .modify fun _ _ hw => hW.modify (fun _ _ => unwound) hw

theorem windUp (event : Lifecycle) {forget : Env → Env}
    (hforget : ∀ env env' : Env, Env.Like Seen env env' → Env.Like Seen (forget env) (forget env')) :
    WorldM.InStep W (e.windUp o event forget) (e'.windUp o event forget) := by
  have hW := he.mirrors
  refine whileExecuting hW ?_
  refine .bind (he.announce event []) fun _ => .bind he.runPending fun _ => .bind (release hW) fun _ => ?_
  refine .modify fun _ _ hw => hW.modify (fun i i' hi => ?_) hw
  refine ⟨hforget _ _ hi.env, ?_, hi.fits, hi.jobs⟩
  rw [hi.rest]

theorem interruptNow : WorldM.InStep W (e.interruptNow o) (e'.interruptNow o) := by
  have hW := he.mirrors
  refine .bind (.modify fun _ _ hw => hW.observe _ hw) fun _ => .bind (.modify fun _ _ hw => hW.modify ?_ hw) fun _ => ?_
  · intro i i' hi
    have hu := unwound hi
    refine ⟨hu.env, ?_, hu.fits, hu.jobs⟩
    rw [hi.rest]
  · exact .bind (he.windUp .interrupted fun _ _ => id) fun _ => .modify fun _ _ hw => hW.report _ hw

theorem clearNow : WorldM.InStep W (e.clearNow o) (e'.clearNow o) := by
  have hW := he.mirrors
  refine .bind (.modify fun _ _ hw => ?_) fun _ => .bind (he.windUp .cleaned ?_) fun _ => ?_
  · exact hW.flag (f := fun i => { i with clearRequested := false }) (fun _ _ => rfl) (fun _ => rfl) (fun _ => rfl)
      (fun _ _ => id) hw
  · exact fun _ _ _ => .refl _ _
  · exact .modify fun _ _ hw => hW.report _ hw

theorem drain : WorldM.InStep W (e.drain o) (e'.drain o) := by
  have hW := he.mirrors
  refine whileExecuting hW (.bind he.runPending fun _ => .get fun w w' hw => ?_)
  rw [(hW.instanceOf hw).interrupted]
  exact .ite he.interruptNow (.pure _)

theorem schedule {job : Job} (hjob : job.Heeds Seen) : WorldM.InStep W (e.schedule o job) (e'.schedule o job) := by
  have hW := he.mirrors
  apply WorldM.InStep.get
  intro w w' hw
  have hi := hW.instanceOf hw
  dsimp only
  rw [hi.dropped, hi.executing]
  refine .ite (.pure _) (.bind (.modify fun _ _ hu => hW.observe _ hu) fun _ => ?_)
  refine .bind (.modify fun _ _ hu => hW.modify ?_ hu) fun _ => .ite (.pure _) he.drain
  intro i i' hi
  refine ⟨hi.env, ?_, hi.fits, ?_⟩
  · rw [hi.rest]
  · intro j hj
    rcases List.mem_append.mp hj with hj | hj
    · exact hi.jobs j hj
    · rw [List.mem_singleton.mp hj]
      exact hjob

theorem tick : WorldM.InStep W (e.tick o) (e'.tick o) := by
  have hW := he.mirrors
  apply WorldM.InStep.get
  intro w w' hw
  have hi := hW.instanceOf hw
  have hstack : (w'.instanceOf o).env.stack = (w.instanceOf o).env.stack := by
    obtain ⟨vars, henv, -⟩ := hi.env
    rw [henv]
  dsimp only
  rw [hi.interrupted, hi.tree, hstack]
  exact .ite (.pure _) (.ite (he.activate (he.run _)) (he.activate (he.resume 0)))

theorem announceSettled (status : Status) :
    WorldM.InStep W (e.announceSettled o status) (e'.announceSettled o status) := by
  cases status with
  | success => exact he.announce _ _
  | failure => exact he.announce _ _
  | running => exact .pure _

theorem settleTick (status : Status) : WorldM.InStep W (e.settleTick o status) (e'.settleTick o status) := by
  apply WorldM.InStep.get
  intro w w' hw
  rw [(he.mirrors.instanceOf hw).interrupted]
  refine .ite (.bind he.interruptNow fun _ => .pure _) (.bind (he.announce _ _) fun _ => ?_)
  exact .bind (he.announceSettled status) fun _ => .bind he.drain fun _ => .pure _

theorem afterTick (result : Except RunError Status) :
    WorldM.InStep W (e.afterTick o result) (e'.afterTick o result) := by
  have hW := he.mirrors
  cases result with
  | error error =>
    apply WorldM.InStep.get
    intro w w' hw
    rw [(hW.instanceOf hw).tree]
    refine .bind (.modify fun _ _ hu => hW.report _ hu) fun _ => .bind (release hW) fun _ => .bind ?_ fun _ => .pure _
    exact .modify fun _ _ hu => hW.flag (f := fun i => { i with interrupted := false }) (fun _ _ => rfl) (fun _ => rfl)
      (fun _ => rfl) (fun _ _ => id) hu
  | ok status =>
    refine .bind (he.settleTick status) fun _ => .get fun w w' hw => ?_
    rw [(hW.instanceOf hw).clearRequested]
    exact .ite (.bind he.clearNow fun _ => .pure _) (.pure _)

theorem runTree : WorldM.InStep W (e.runTree o) (e'.runTree o) := by
  have hW := he.mirrors
  apply WorldM.InStep.get
  intro w w' hw
  have hi := hW.instanceOf hw
  have hbusy : busy (w'.instanceOf o) = busy (w.instanceOf o) := by
    unfold busy
    rw [hi.tree]
  dsimp only
  rw [hi.executing, hbusy]
  refine .ite (.pure _) (.bind (m := e.openRun o) ?_ fun result => ?_)
  · exact .bind (setExecuting hW true) fun _ => .bind (he.announce _ _) fun _ => he.tick
  · exact .bind (he.afterTick result) fun _ => .bind (setExecuting hW false) fun _ => .pure _

theorem interruptTree : WorldM.InStep W (e.interruptTree o) (e'.interruptTree o) := by
  have hW := he.mirrors
  refine .bind (.modify fun _ _ hw => hW.observe _ hw) fun _ => .get fun w w' hw => ?_
  rw [(hW.instanceOf hw).executing]
  refine .ite (.modify fun _ _ hu => ?_) he.interruptNow
  exact hW.flag (f := fun i => { i with interrupted := true }) (fun _ _ => rfl) (fun _ => rfl) (fun _ => rfl)
    (fun _ _ => id) hu

theorem clearTree : WorldM.InStep W (e.clearTree o) (e'.clearTree o) := by
  have hW := he.mirrors
  refine .bind (.modify fun _ _ hw => hW.observe _ hw) fun _ => .get fun w w' hw => ?_
  rw [(hW.instanceOf hw).executing]
  refine .ite (.modify fun _ _ hu => ?_) he.clearNow
  exact hW.flag (f := fun i => { i with interrupted := true, clearRequested := true }) (fun _ _ => rfl) (fun _ => rfl)
    (fun _ => rfl) (fun _ _ => id) hu

omit he in
theorem setTree (hW : World.Mirrors o Seen Fits Hears W) {tree : Tree}
    (htree : ∀ id n, tree.get? id = some n → Fits n) :
    WorldM.InStep W (Engine.setTree o tree) (Engine.setTree o tree) := by
  apply WorldM.InStep.get
  intro w w' hw
  have hi := hW.instanceOf hw
  have hbusy : busy (w'.instanceOf o) = busy (w.instanceOf o) := by
    unfold busy
    rw [hi.tree]
  dsimp only
  rw [hi.executing, hbusy]
  refine .ite (.pure _) (.bind (release hW) fun _ => .bind (.modify fun _ _ hu => hW.modify ?_ hu) fun _ => .pure _)
  intro i i' hi
  obtain ⟨vars, henv, hv⟩ := hi.env
  refine ⟨⟨vars, ?_, hv⟩, ?_, htree, hi.jobs⟩
  · rw [henv]
  · rw [hi.rest]

omit he in
theorem withInstance (hW : World.Mirrors o Seen Fits Hears W) {absent : α} {m m' : WorldM σ α}
    (hm : WorldM.InStep W m m') :
    WorldM.InStep W (Engine.withInstance o absent m) (Engine.withInstance o absent m') := by
  apply WorldM.InStep.get
  intro w w' hw
  rw [hW.there hw]
  exact .ite hm (.pure _)

/-- Calls that nest one level deeper stay in step, if what is told does and what nodes dispatch. -/
theorem deeper (htell : ∀ (event : Lifecycle) (args : List Value),
      WorldM.InStep W (e.deeper.dispatch ⟨event.name, some o.text⟩ args) (e'.deeper.dispatch ⟨event.name, some o.text⟩ args))
    (hdispatch : ∀ {n : Node} {event : String}, Fits n → n.behavior = .dispatch event →
      ∀ (key : EventKey) (args : List Value), WorldM.InStep W (e.deeper.dispatch key args) (e'.deeper.dispatch key args)) :
    Engine.InStep o Seen Fits Hears W e.deeper e'.deeper where
  mirrors := he.mirrors
  heeds := he.heeds
  run := he.corresponds.runDeeper
  resume := he.corresponds.resumeAbove
  runPending := he.runNext
  tell := htell
  dispatch := hdispatch

end Engine.InStep

/-- If those who hear what an instance tells of its life act alike, telling it stays in step. -/
theorem World.Mirrors.tell {e e' : Engine σ} (hW : World.Mirrors o Seen Fits Hears W)
    (hhear : ∀ (l : Listener σ) (event : Event), Hears l → WorldM.InStep W (e.hear l event) (e'.hear l event))
    (event : Lifecycle) (args : List Value) :
    WorldM.InStep W (e.dispatch ⟨event.name, some o.text⟩ args) (e'.dispatch ⟨event.name, some o.text⟩ args) := by
  apply WorldM.InStep.get
  intro w w' hw
  obtain ⟨hsame, hhears⟩ := hW.listeners event hw
  rw [hsame]
  exact .bind (.forM fun l hl => hhear l _ (hhears l hl)) fun _ => .pure _

end BehaviorTree
