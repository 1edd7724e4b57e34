import BehaviorTree.Proofs.Variants.Life

/-!
Hosts that do not look at what the two variants differ in. A program of such a host does the same in the worlds of both,
at any depth of calls.
-/

namespace BehaviorTree
set_option autoImplicit false

open TickM

variable {σ α β : Type}

namespace Variants

variable {V : Variants} {w w' : World σ} {p : Tag} {e e' : Engine σ} {R : Env → Env → Prop} {env env' : Env}

/-! ### What hosts see and do -/

/-- A host sees the same of the worlds of two variants, but for the tree and what is suspended in it. -/
theorem Worlds.overview (hw : V.Worlds R w w') :
    ∃ tree stack temps, w'.overview = w.overview.exchange V.owner tree stack temps := by
  obtain ⟨stack, temps, hsame⟩ := hw.instanceOf.same
  refine ⟨V.tree', stack, temps, ?_⟩
  have htree : (fun q => (w'.instanceOf q).tree) =
      Function.update (fun q => (w.instanceOf q).tree) V.owner V.tree' := by
    funext q
    by_cases hq : q = V.owner
    · rw [hq, hsame, Function.update_self]
    · rw [Function.update_of_ne hq, hw.instanceOf_of_ne hq]
  have henv : (fun q => (w'.instanceOf q).env) =
      Function.update (fun q => (w.instanceOf q).env) V.owner { (w.instanceOf V.owner).env with stack, temps } := by
    funext q
    by_cases hq : q = V.owner
    · rw [hq, hsame, Function.update_self]
    · rw [Function.update_of_ne hq, hw.instanceOf_of_ne hq]
  have hexecuting : (fun q => (w'.instanceOf q).executing) = fun q => (w.instanceOf q).executing :=
    funext hw.executing
  have hrest : w'.overview =
      { w.overview with
        tree := fun q => (w'.instanceOf q).tree
        env := fun q => (w'.instanceOf q).env
        executing := fun q => (w'.instanceOf q).executing } := by
    rw [hw.same]
    rfl
  rw [hrest, htree, henv, hexecuting]
  rfl

theorem Worlds.reports (hw : V.Worlds R w w') (reports : List Report) :
    V.Worlds R (reports.foldl World.report w) (reports.foldl World.report w') := by
  induction reports generalizing w w' with
  | nil => exact hw
  | cons r reports ih => exact ih (hw.report r r)

theorem Worlds.nextTag (hw : V.Worlds R w w') : w.newTag.1 = w'.newTag.1 := by
  rw [hw.same]
  rfl

theorem Worlds.newTag (hw : V.Worlds R w w') : V.Worlds R w.newTag.2 w'.newTag.2 :=
  hw.beside (f := fun w => w.newTag.2) (fun _ _ _ => rfl) rfl rfl (Nat.le_succ _) (fun _ _ => .inl) fun _ _ => .inl

theorem Worlds.create (hw : V.Worlds R w w') (tree : Tree) (vars : Variables) :
    V.Worlds R (w.create tree vars).2 (w'.create tree vars).2 := by
  have hne : w.newTag.1 ≠ V.owner := by
    intro h
    have hgiven := hw.given
    rw [← h] at hgiven
    exact Nat.lt_irrefl _ hgiven
  have hcreated := hw.newTag.modifyOther hne fun _ => { tree, env := { vars } }
  change V.Worlds R (w.newTag.2.modifyInstance w.newTag.1 fun _ => { tree, env := { vars } })
    (w'.newTag.2.modifyInstance w'.newTag.1 fun _ => { tree, env := { vars } })
  rw [← hw.nextTag]
  exact hcreated

theorem Rests.edit (h : V.Rests env env') {g : Env → Env}
    (hg : ∀ env stack temps input output, g { env with stack, temps, input, output } =
      { g env with stack, temps, input, output })
    (hd : ∀ env, (g env).detached = env.detached) : V.Rests (g env) (g env') := by
  obtain ⟨G, above, base, base', habove, hstands, henv⟩ := h
  have hself : ∀ env, g env =
      { g env with stack := env.stack, temps := env.temps, input := env.input, output := env.output } :=
    fun env => hg env env.stack env.temps env.input env.output
  refine ⟨G, above, base, base', habove, hstands, henv.edit g g (fun env stack temps input output => ⟨input, output, hg ..⟩)
    ?_ ?_ (hd env)⟩
  · exact (congrArg Env.stack (hself env)).trans rfl
  · exact (congrArg Env.temps (hself env)).trans rfl

theorem Worlds.setVar (hw : V.Worlds V.Rests w w') (p : Tag) (name : String) (value : Option Value) :
    V.Worlds V.Rests (w.assign p name value) (w'.assign p name value) := by
  have hseen := hw.observe p (.assigned name value)
  by_cases hp : p = V.owner
  · subst hp
    refine hseen.modify fun i i' hii => ?_
    obtain ⟨stack, temps, hsame⟩ := hii.same
    refine ⟨hii.tree, ⟨stack, temps, by rw [hsame]; rfl⟩, hii.pending, ?_⟩
    exact hii.rests.edit (g := fun env => env.set name value) (fun _ _ _ _ _ => rfl) fun _ => rfl
  · exact hseen.modifyOther hp _

theorem Worlds.unsubscribe (hw : V.Worlds R w w') {f : Subscriptions (Listener σ) → Subscriptions (Listener σ)}
    (hf : ∀ (s : Subscriptions (Listener σ)) (id : SubscriptionId) (entry : Subscription (Listener σ)),
      (f s).entries[id]? = some entry → s.entries[id]? = some entry) :
    V.Worlds R { w with subscriptions := f w.subscriptions } { w' with subscriptions := f w'.subscriptions } :=
  hw.beside (f := fun w => { w with subscriptions := f w.subscriptions }) (fun _ _ _ => rfl) rfl rfl (Nat.le_refl _)
    (fun id entry hentry => .inl (hf _ id entry hentry)) fun _ _ => .inl

theorem Worlds.cancel (hw : V.Worlds R w w') {f : Delays (Alarm σ) → Delays (Alarm σ)}
    (hf : ∀ (d : Delays (Alarm σ)) (id : DelayId) (entry : PendingDelay (Alarm σ)),
      (f d).pending[id]? = some entry → d.pending[id]? = some entry) :
    V.Worlds R { w with delays := f w.delays } { w' with delays := f w'.delays } :=
  hw.beside (f := fun w => { w with delays := f w.delays }) (fun _ _ _ => rfl) rfl rfl (Nat.le_refl _) (fun _ _ => .inl)
    fun id entry hentry => .inl (hf _ id entry hentry)

theorem InStep.apply {f f' : World σ → α × World σ}
    (hf : ∀ w w', V.Worlds V.Rests w w' → (f w).1 = (f' w').1 ∧ V.Worlds V.Rests (f w).2 (f' w').2) :
    V.InStep (Engine.apply f) (Engine.apply f') := fun w w' hw => hf w w' hw

namespace Engines

variable (he : V.Engines e e')
include he

theorem update (dt : Float) : V.InStep (e.update dt) (e'.update dt) := by
  refine .get fun w w' hw => .get fun u u' hu => ?_
  dsimp only
  rw [hw.time, hu.delays]
  refine .bind (.edit fun v v' hv => ?_) fun _ => .forM fun a ha => ?_
  · exact hv.beside (f := fun v => { v with time := w.time + dt, delays := (u.delays.takeDue (w.time + dt)).2 })
      (fun _ _ _ => rfl) rfl rfl (Nat.le_refl _) (fun _ _ => .inl) fun id entry hentry =>
        .inr (hu.alarms (Delays.pending_of_takeEach hentry))
  · obtain ⟨id, entry, hentry, rfl⟩ := Delays.mem_takeEach ha
    exact he.alarm (hu.alarms hentry)

/-- A program of a host that does not tell the variants apart does the same for both. -/
theorem perform {program : Program σ} (hp : program.Blind V.owner) : V.InStep (e.perform program) (e'.perform program) := by
  induction program with
  | done => exact .pure _
  | look next ih =>
    refine .get fun w w' hw => ?_
    obtain ⟨tree, stack, temps, hsame⟩ := hw.overview
    rw [hsame, hp.1]
    exact ih _ (hp.2 _)
  | store host next ih =>
    exact .bind (.edit fun w w' hw => hw.beside (f := fun w => { w with host }) (fun _ _ _ => rfl) rfl rfl (Nat.le_refl _)
      (fun _ _ => .inl) fun _ _ => .inl) fun _ => ih hp
  | note v next ih => exact .bind (.edit fun w w' hw => hw.record _) fun _ => ih hp
  | load spec strict next ih =>
    refine .bind (.apply fun w w' hw => ?_) fun result => ih result (hp result)
    have hload : Tree.load w'.registry w'.compile strict spec = Tree.load w.registry w.compile strict spec := by
      rw [hw.same]
      rfl
    unfold World.load
    rw [hload]
    exact ⟨rfl, hw.reports _⟩
  | install code f next ih =>
    exact .bind (.edit fun w w' hw => hw.beside (f := fun w => w.install code f) (fun _ _ _ => rfl) rfl rfl (Nat.le_refl _)
      (fun _ _ => .inl) fun _ _ => .inl) fun _ => ih hp
  | newTag next ih =>
    exact .bind (.apply fun w w' hw => ⟨hw.nextTag, hw.newTag⟩) fun tag => ih tag (hp tag)
  | create tree vars next ih =>
    exact .bind (.apply fun w w' hw => ⟨hw.nextTag, hw.create tree vars⟩) fun tag => ih tag (hp tag)
  | run owner next ih =>
    refine Agrees.bind (withInstance (.refl owner _) (he.runTree owner)) fun r r' hr => ?_
    cases hr with
    | ok status => exact ih _ (hp.2 _)
    | error r r' hsame =>
      have hnext : next (.error r') = next (.error r) := by
        by_cases ho : owner = V.owner
        · exact hp.1 ho r' r
        · rw [hsame ho]
      rw [hnext]
      exact ih _ (hp.2 _)
  | interrupt owner next ih => exact .bind (withInstance rfl (he.interruptTree owner)) fun _ => ih hp
  | clear owner next ih => exact .bind (withInstance rfl (he.clearTree owner)) fun _ => ih hp
  | setTree owner tree next ih =>
    exact .bind (withInstance rfl (setTree he.shares.fits hp.1 tree)) fun result => ih result (hp.2 result)
  | setVar owner name value next ih =>
    exact .bind (withInstance rfl (InStep.edit fun _ _ hw => hw.setVar owner name value)) fun _ => ih hp
  | drop owner next ih =>
    refine .bind (withInstance rfl (InStep.edit fun _ _ hw => ?_)) fun _ => ih hp
    exact (hw.flag owner (f := fun i => { i with dropped := true }) (fun _ _ _ => rfl) fun _ _ hjobs => hjobs).releaseTag owner
  | update dt next ih => exact .bind (he.update dt) fun _ => ih hp
  | dispatch key args next ih => exact .bind (he.dispatch key args) fun heard => ih heard (hp heard)
  | subscribe key tag callback next _ ih =>
    refine .bind (.apply fun w w' hw => ⟨?_, hw.subscribe key tag fun event => hp.1 event⟩) fun id => ih id (hp.2 id)
    exact congrArg (fun s : Subscriptions (Listener σ) => (⟨s.nextIndex⟩ : SubscriptionId)) hw.subscriptions.symm
  | unsubscribe id next ih =>
    refine .bind (.apply fun w w' hw => ⟨?_, hw.unsubscribe (f := fun s => (s.remove id).2) fun s x entry hentry => ?_⟩)
      fun found => ih found (hp found)
    · exact congrArg (fun s : Subscriptions (Listener σ) => (s.remove id).1) hw.subscriptions.symm
    · exact Subscriptions.entries_of_remove hentry
  | unsubscribeEvent event tag next ih =>
    refine .bind (.apply fun w w' hw => ⟨?_, hw.unsubscribe (f := fun s => (s.removeEvent event tag).2)
      fun s x entry hentry => ?_⟩) fun count => ih count (hp count)
    · exact congrArg (fun s : Subscriptions (Listener σ) => (s.removeEvent event tag).1) hw.subscriptions.symm
    · exact Subscriptions.entries_of_removeEach hentry
  | release tag next ih => exact .bind (.edit fun _ _ hw => hw.releaseTag tag) fun _ => ih hp
  | delay time tag callback next _ ih =>
    refine .bind (.apply fun w w' hw => ⟨?_, hw.delay time tag hp.1⟩) fun id => ih id (hp.2 id)
    exact congrArg (fun d : Delays (Alarm σ) => (⟨d.nextIndex⟩ : DelayId)) hw.delays.symm
  | cancel id next ih =>
    refine .bind (.apply fun w w' hw => ⟨?_, hw.cancel (f := fun d => (d.cancel id).2) fun d x entry hentry => ?_⟩)
      fun found => ih found (hp found)
    · exact congrArg (fun d : Delays (Alarm σ) => (d.cancel id).1) hw.delays.symm
    · exact Delays.pending_of_take hentry

/-! ### Deeper calls -/

theorem hearEvent {l : Listener σ} (hl : V.Hears l) (event : Event) : V.InStep (e.hearEvent l event) (e'.hearEvent l event) := by
  cases l with
  | node owner listener only => exact he.schedule owner hl
  | host react => exact he.perform (hl event)

theorem setOff {a : Alarm σ} (ha : V.Sets a) : V.InStep (e.setOff a) (e'.setOff a) := by
  cases a with
  | job owner job => exact he.schedule owner ha
  | host act => exact he.perform ha

/-- Calls that nest one level deeper do the same for both variants, if ticks do. -/
theorem deeper (hrestoring : e.deeper.Restoring) (hrestoring' : e'.deeper.Restoring) (hticks : V.Ticking e.deeper e'.deeper) :
    V.Engines e.deeper e'.deeper where
  ticks := hticks
  run id hp := (he.corresponds hp).runDeeper id
  resume level hp := (he.corresponds hp).resumeAbove level
  hear event hl := he.hearEvent hl event
  alarm ha := he.setOff ha
  runPending p := he.runNext p
  shares :=
    { fits := he.shares.fits
      restoring := hrestoring
      restoring' := hrestoring'
      run := he.shares.runDeeper
      resume := he.shares.resumeAbove
      dispatch := fun key args => .onWorld (.dispatch (fun _ event hl => he.hearEvent hl event) key args) }

end Engines

/-- If one of two engines halts at once that may be the first, nothing is left to compare. -/
theorem engines_of_halts (hV : V.Fits) (hrestoring : e.Restoring) (hrestoring' : e'.Restoring)
    (hrun : ∀ {Q E} id id' c c' t t', V.Beside Q E (e.run id c t) (e'.run id' c' t'))
    (hresume : ∀ {Q E} level level' c c' t t', V.Beside Q E (e.resume level c t) (e'.resume level' c' t'))
    (hhear : ∀ {Q} l event w w', V.Along Q ((e.hear l event).run w) ((e'.hear l event).run w'))
    (halarm : ∀ {Q} a w w', V.Along Q ((e.alarm a).run w) ((e'.alarm a).run w'))
    (hpending : ∀ {Q} p w w', V.Along Q ((e.runPending p).run w) ((e'.runPending p).run w')) : V.Engines e e' := by
  have hmeets : ∀ {o o' : Outcome σ Status},
      V.Beside (fun _ _ _ _ => False) (fun _ _ => False) o o' → V.Meets o o' := by
    intro o o' h
    cases o <;> cases o'
    case halted.halted => exact .halted _ _
    case halted.ok => exact .early _ _ h
    case halted.failed => exact .early _ _ h
    case ok.halted => exact .late _ _ h
    case failed.halted => exact .late _ _ h
    all_goals exact h.elim
  exact
    { shares :=
        { fits := hV
          restoring := hrestoring
          restoring' := hrestoring'
          run := fun _ _ t t' _ => hrun _ _ _ _ t t'
          resume := fun _ _ _ t t' _ => hresume _ _ _ _ t t'
          dispatch := fun key args => .onWorld (.dispatch (fun l event _ w w' _ => hhear l event w w') key args) }
      ticks := fun t t' _ => ⟨fun _ => hrun _ _ _ _ t t', fun _ => hresume _ _ _ _ t t'⟩
      run := fun _ _ _ _ _ _ _ => hmeets (hrun ..)
      resume := fun _ _ _ _ _ _ _ => hmeets (hresume ..)
      hear := fun event _ w w' _ => hhear _ event w w'
      alarm := fun _ w w' _ => halarm _ w w'
      runPending := fun p w w' _ => hpending p w w' }

theorem engines_exhausted (hV : V.Fits) {d d' : Nat} (hd : V.Depths d d') (hzero : d = 0 ∨ d' = 0) :
    V.Engines (σ := σ) (Engine.ofDepth d) (Engine.ofDepth d') := by
  have hrestoring : ∀ d : Nat, (Engine.ofDepth d : Engine σ).Restoring := Engine.restoring_ofDepth
  by_cases hearly : d = 0 ∧ V.early
  · obtain ⟨rfl, he⟩ := hearly
    exact engines_of_halts hV (hrestoring _) (hrestoring _) (fun _ _ _ _ _ _ => .early he) (fun _ _ _ _ _ _ => .early he)
      (fun _ _ _ _ => .early he) (fun _ _ _ => .early he) fun _ _ _ => .early he
  · have hthere : d' = 0 := by
      rcases hzero with rfl | h
      · exact Nat.le_zero.mp (hd.early.resolve_left fun he => hearly ⟨rfl, he⟩)
      · exact h
    subst hthere
    cases d with
    | zero =>
      exact engines_of_halts hV (hrestoring _) (hrestoring _) (fun _ _ _ _ _ _ => trivial) (fun _ _ _ _ _ _ => trivial)
        (fun _ _ _ _ => trivial) (fun _ _ _ => trivial) fun _ _ _ => trivial
    | succ d =>
      have hl : V.late := hd.late.resolve_right fun h =>
        absurd (Nat.mul_pos (Nat.lt_of_lt_of_le Nat.zero_lt_one hV.factor) (Nat.succ_pos d)) (Nat.not_lt.mpr h)
      exact engines_of_halts hV (hrestoring _) (hrestoring _) (fun _ _ _ _ _ _ => .late hl) (fun _ _ _ _ _ _ => .late hl)
        (fun _ _ _ _ => .late hl) (fun _ _ _ => .late hl) fun _ _ _ => .late hl

/-- Engines of depths that fit do the same for both variants, if ticks of engines of such depths do. -/
theorem engines_ofDepth (hV : V.Fits)
    (hticks : ∀ d d', V.Depths (d + 1) (d' + 1) → (∀ c c', c ≤ d → V.Depths c c' → V.Shares (σ := σ) (Engine.ofDepth c) (Engine.ofDepth c')) →
      V.Ticking (σ := σ) (Engine.ofDepth (d + 1)) (Engine.ofDepth (d' + 1)))
    {d d' : Nat} (hd : V.Depths d d') : V.Engines (σ := σ) (Engine.ofDepth d) (Engine.ofDepth d') := by
  -- Ticks of the one may take calls of the other from several levels below, so the induction is a strong one.
  induction d using Nat.strong_induction_on generalizing d' with
  | _ d ih =>
    cases d with
    | zero => exact engines_exhausted hV hd (.inl rfl)
    | succ d =>
      cases d' with
      | zero => exact engines_exhausted hV hd (.inr rfl)
      | succ d' =>
        refine (ih d (Nat.lt_succ_self d) (hd.pred hV.factor)).deeper (Engine.restoring_ofDepth (d + 1))
          (Engine.restoring_ofDepth (d' + 1)) (hticks d d' hd fun c c' hc hcd => (ih c (Nat.lt_succ_of_le hc) hcd).shares)

end Variants

end BehaviorTree
