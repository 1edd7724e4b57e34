import BehaviorTree.Proofs.Variants.Jobs
import BehaviorTree.Proofs.Variants.Others
import BehaviorTree.Proofs.World.Filing

/-!
The life of instances in the worlds of two variants: what is told, heard and queued is the same, and the instance with
the two trees is left alike, whatever becomes of a tick of it. Between a tick that is cut short and the end of what it
has left, its suspended nodes may differ in any way.
-/

namespace BehaviorTree
set_option autoImplicit false

open TickM

variable {σ α β : Type}

/-- The state of an instance is lent and given back, however the computation ends that it is lent to. -/
theorem Engine.run_activate (owner : Tag) (m : TickM σ α) (w : World σ) :
    (Engine.activate owner m).run w =
      match m ⟨owner, (w.instanceOf owner).tree⟩ ⟨(w.instanceOf owner).env, w.observe owner .entered⟩ with
      | .ok a t => .ok (.ok a, Engine.giveBack owner t)
      | .failed r t => .ok (.error r, Engine.giveBack owner t)
      | .halted h => .error h := by
  change StateT.run (match m ⟨owner, (w.instanceOf owner).tree⟩ ⟨(w.instanceOf owner).env, w.observe owner .entered⟩ with
    | .ok a t => do
      set (Engine.giveBack owner t)
      return .ok a
    | .failed r t => do
      set (Engine.giveBack owner t)
      return .error r
    | .halted h => throw h : WorldM σ (Except RunError α)) (w.observe owner .entered) = _
  cases m ⟨owner, (w.instanceOf owner).tree⟩ ⟨(w.instanceOf owner).env, w.observe owner .entered⟩ <;> rfl

namespace Variants

variable (V : Variants)

def Along (Q : α → β → World σ → World σ → Prop) :
    Except Halt (α × World σ) → Except Halt (β × World σ) → Prop
  | .ok (a, w), .ok (b, w') => Q a b w w'
  | .error _, .error _ => True
  | .error _, .ok _ => V.early
  | .ok _, .error _ => V.late

/-- From worlds that are alike two computations go on to such worlds, with results as described. -/
def Agrees (P : α → β → Prop) (m : WorldM σ α) (m' : WorldM σ β) : Prop :=
  ∀ w w', V.Worlds V.Rests w w' → V.Along (fun a b u u' => P a b ∧ V.Worlds V.Rests u u') (m.run w) (m'.run w')

/-- From worlds that are alike two computations go on to such worlds, with the same result. -/
def InStep (m m' : WorldM σ α) : Prop := V.Agrees (· = ·) m m'

/-- Results of ticks and jobs: how the two variants of the instance fail may differ. -/
inductive Same (p : Tag) : Except RunError α → Except RunError α → Prop where
  | ok (a : α) : Same p (.ok a) (.ok a)
  | error (r r' : RunError) : (p ≠ V.owner → r' = r) → Same p (.error r) (.error r')

def Returns (status status' : Status) (t t' : Tick σ) : Prop :=
  status = status' ∧ V.Worlds V.Rests t.world t'.world ∧ (∃ stack temps, t'.env = { t.env with stack, temps }) ∧
    ((t.world.instanceOf V.owner).interrupted = false → V.Rests t.env t'.env)

/-- How ticks end that fail. -/
def Drops (t t' : Tick σ) : Prop :=
  V.Worlds V.Rests t.world t'.world ∧ ∃ stack temps, t'.env = { t.env with stack, temps }

def Stands (t t' : Tick σ) : Prop := V.Rests t.env t'.env ∧ t.env.SameSlots t'.env ∧ V.Worlds V.Rests t.world t'.world

def Ticking (e e' : Engine σ) : Prop :=
  ∀ t t' : Tick σ, V.Stands t t' →
    (t.env.stack.isEmpty → V.Beside V.Returns V.Drops (e.run V.tree.root V.here t) (e'.run V.tree'.root V.there t')) ∧
    (t.env.stack.isEmpty = false → V.Beside V.Returns V.Drops (e.resume 0 V.here t) (e'.resume 0 V.there t'))

/-- How a tick of an instance ends. If one of the two variants has failed or an interruption is asked for, all that is
suspended in it is to go. -/
def Settles (p : Tag) (r r' : Except RunError Status) (w w' : World σ) : Prop :=
  V.Same p r r' ∧ ∃ R : Env → Env → Prop, (p ≠ V.owner → ∀ env env', R env env' → V.Rests env env') ∧ V.Worlds R w w' ∧
    ∀ status, r = .ok status → (w.instanceOf p).interrupted = false → V.Worlds V.Rests w w'

/-- Two engines that do the same for the worlds of two variants. -/
structure Engines (e e' : Engine σ) : Prop where
  shares : V.Shares e e'
  ticks : V.Ticking e e'
  run {p : Tag} (id : NodeId) : p ≠ V.owner → V.Outside p _ (e.run id) (e'.run id)
  resume {p : Tag} (level : Nat) : p ≠ V.owner → V.Outside p _ (e.resume level) (e'.resume level)
  hear {l : Listener σ} (event : Event) : V.Hears l → V.InStep (e.hear l event) (e'.hear l event)
  alarm {a : Alarm σ} : V.Sets a → V.InStep (e.alarm a) (e'.alarm a)
  runPending (p : Tag) : V.InStep (e.runPending p) (e'.runPending p)

variable {V} {w w' : World σ} {p : Tag} {e e' : Engine σ} {P : α → β → Prop} {G : Ground} {env env' : Env}
  {base base' : List NodeId}

theorem Same.refl (p : Tag) (r : Except RunError α) : V.Same p r r := by
  cases r with
  | ok a => exact .ok a
  | error r => exact .error r r fun _ => rfl

/-! ### Rules -/

namespace Along

variable {γ δ : Type} {Q : α → β → World σ → World σ → Prop}

theorem early {h : Halt} {r' : Except Halt (β × World σ)} (he : V.early) : V.Along Q (.error h) r' := by
  cases r' with
  | ok => exact he
  | error => trivial

theorem late {h : Halt} {r : Except Halt (α × World σ)} (hl : V.late) : V.Along Q r (.error h) := by
  cases r with
  | ok => exact hl
  | error => trivial

theorem mono {Q' : α → β → World σ → World σ → Prop} {r : Except Halt (α × World σ)} {r' : Except Halt (β × World σ)}
    (h : V.Along Q r r') (hq : ∀ a b u u', Q a b u u' → Q' a b u u') : V.Along Q' r r' := by
  cases r <;> cases r'
  case ok.ok => exact hq _ _ _ _ h
  all_goals exact h

theorem bind {m : WorldM σ α} {m' : WorldM σ β} {f : α → WorldM σ γ} {f' : β → WorldM σ δ}
    {S : γ → δ → World σ → World σ → Prop} (h : V.Along Q (m.run w) (m'.run w'))
    (hf : ∀ a b u u', Q a b u u' → V.Along S ((f a).run u) ((f' b).run u')) :
    V.Along S ((m >>= f).run w) ((m' >>= f').run w') := by
  rw [StateT.run_bind, StateT.run_bind]
  generalize m.run w = r, m'.run w' = r' at h
  cases r with
  | ok r =>
    cases r' with
    | ok r' => exact hf _ _ _ _ h
    | error _ => exact late h
  | error _ =>
    cases r' with
    | ok r' => exact early h
    | error _ => trivial

end Along

namespace Agrees

variable {γ δ : Type} {m : WorldM σ α} {m' : WorldM σ β} {f : α → WorldM σ γ} {f' : β → WorldM σ δ}

theorem pure {a : α} {b : β} (h : P a b) : V.Agrees (σ := σ) P (pure a) (Pure.pure b) := fun _ _ hw => ⟨h, hw⟩

theorem bind {S : γ → δ → Prop} (h : V.Agrees P m m') (hf : ∀ a b, P a b → V.Agrees S (f a) (f' b)) :
    V.Agrees S (m >>= f) (m' >>= f') :=
  fun w w' hw => (h w w' hw).bind fun a b u u' hu => hf a b hu.1 u u' hu.2

theorem get {S : γ → δ → Prop} {f : World σ → WorldM σ γ} {f' : World σ → WorldM σ δ}
    (hf : ∀ w w', V.Worlds V.Rests w w' → V.Agrees S (f w) (f' w')) :
    V.Agrees S (MonadState.get >>= f) (MonadState.get >>= f') := fun w w' hw => hf w w' hw w w' hw

theorem ite {C : Prop} [Decidable C] {n : WorldM σ α} {n' : WorldM σ β} (hm : V.Agrees P m m') (hn : V.Agrees P n n') :
    V.Agrees P (if C then m else n) (if C then m' else n') := by
  split
  · exact hm
  · exact hn

end Agrees

namespace InStep

variable {m m' : WorldM σ α} {f f' : α → WorldM σ β}

theorem pure (a : α) : V.InStep (σ := σ) (pure a) (Pure.pure a) := Agrees.pure rfl

theorem bind (h : V.InStep m m') (hf : ∀ a, V.InStep (f a) (f' a)) : V.InStep (m >>= f) (m' >>= f') :=
  Agrees.bind h fun a _ hab => hab ▸ hf a

theorem get {f f' : World σ → WorldM σ α} (hf : ∀ w w', V.Worlds V.Rests w w' → V.InStep (f w) (f' w')) :
    V.InStep (MonadState.get >>= f) (MonadState.get >>= f') := Agrees.get hf

theorem edit {f f' : World σ → World σ} (hf : ∀ w w', V.Worlds V.Rests w w' → V.Worlds V.Rests (f w) (f' w')) :
    V.InStep (modify f : WorldM σ PUnit) (modify f') := fun w w' hw => ⟨rfl, hf w w' hw⟩

theorem ite {C : Prop} [Decidable C] {m m' n n' : WorldM σ α} (hm : V.InStep m m') (hn : V.InStep n n') :
    V.InStep (if C then m else n) (if C then m' else n') := Agrees.ite hm hn

theorem forM {f f' : β → WorldM σ PUnit} {bs : List β} (hf : ∀ b ∈ bs, V.InStep (f b) (f' b)) :
    V.InStep (bs.forM f) (bs.forM f') := by
  induction bs with
  | nil => exact pure _
  | cons b bs ih => exact bind (hf b List.mem_cons_self) fun _ => ih fun c hc => hf c (List.mem_cons_of_mem b hc)

theorem flag (p : Tag) {f : Instance → Instance}
    (hf : ∀ (i : Instance) tree env, f { i with tree, env } = { f i with tree, env })
    (hpending : p = V.owner → ∀ i, (∀ job ∈ i.pending, V.Takes job) → ∀ job ∈ (f i).pending, V.Takes job) :
    V.InStep (modify (·.modifyInstance p f) : WorldM σ PUnit) (modify (·.modifyInstance p f)) :=
  edit fun _ _ hw => hw.flag p hf hpending

theorem report (r r' : Report) : V.InStep (modify (·.report r) : WorldM σ PUnit) (modify (·.report r')) :=
  edit fun _ _ hw => hw.report r r'

theorem observe (p : Tag) (a : Activity) : V.InStep (modify (·.observe p a) : WorldM σ PUnit) (modify (·.observe p a)) :=
  edit fun _ _ hw => hw.observe p a

end InStep

/-! ### Instances without anything suspended -/

theorem Fits.rests_bare (hV : V.Fits) {env : Env} (hstack : env.stack = ∅) (htemps : env.temps = ∅)
    (hdetached : env.detached = ∅) : V.Rests env env := by
  refine ⟨⟨∅, ∅⟩, [], [], [], List.forall_mem_nil _, hV.bare, hstack, ⟨env.temps, env.input, env.output, ?_⟩, ?_, ?_⟩
  · exact congrArg (fun stack => { env with stack }) hstack
  · rw [htemps]
    refine ⟨fun _ => rfl, fun _ => rfl, fun _ => rfl, fun _ hp => ?_⟩
    simp at hp
  · intro l y s hs
    simp [hdetached] at hs

/-- Whatever is suspended in the two variants, nothing is once they are unwound. -/
theorem Worlds.unwind {R : Env → Env → Prop} (hV : V.Fits) (hw : V.Worlds R w w') (p : Tag)
    (hR : p ≠ V.owner → ∀ env env', R env env' → V.Rests env env') {f : Instance → Instance}
    (hf : ∀ (i : Instance) tree env, f { i with tree, env } = { f i with tree, env := env.unwind })
    (hpending : ∀ i, (f i).pending = []) : V.Worlds V.Rests (w.modifyInstance p f) (w'.modifyInstance p f) := by
  by_cases hp : p = V.owner
  · subst hp
    refine hw.modify fun i i' hii => ?_
    have hself : f i = { f i with tree := i.tree, env := i.env.unwind } := hf i i.tree i.env
    have henv : (f i).env = i.env.unwind := (congrArg Instance.env hself).trans rfl
    have htree : (f i).tree = V.tree := ((congrArg Instance.tree hself).trans rfl).trans hii.tree
    obtain ⟨stack, temps, hsame⟩ := hii.same
    have hthere : f i' = { f i with tree := V.tree', env := i.env.unwind } := by
      rw [hsame, hf]
      rfl
    refine ⟨htree, ⟨∅, ∅, ?_⟩, fun job hjob => ?_, ?_⟩
    · rw [hthere, henv]
      rfl
    · rw [hpending] at hjob
      cases hjob
    · rw [hthere, henv]
      exact hV.rests_bare rfl rfl rfl
  · exact (hw.mono (hR hp)).modifyOther hp f

theorem Worlds.releaseTag {R : Env → Env → Prop} (hw : V.Worlds R w w') (p : Tag) :
    V.Worlds R (w.releaseTag p) (w'.releaseTag p) := by
  have hs := hw.subscriptions
  have hd := hw.delays
  have hreleased : V.Worlds R
      { w with subscriptions := (w.subscriptions.removeOwner p).2, delays := (w.delays.cancelOwner p).2 }
      { w' with subscriptions := (w'.subscriptions.removeOwner p).2, delays := (w'.delays.cancelOwner p).2 } := by
    refine hw.beside (f := fun w =>
      { w with subscriptions := (w.subscriptions.removeOwner p).2, delays := (w.delays.cancelOwner p).2 })
      (fun _ _ _ => rfl) rfl rfl (Nat.le_refl _) (fun id entry hentry => .inl ?_) fun id entry hentry => .inl ?_
    · rw [Subscriptions.entries_removeOwner_eq] at hentry
      exact Subscriptions.entries_of_removeEach hentry
    · rw [Delays.pending_cancelOwner_eq] at hentry
      exact Delays.pending_of_takeEach hentry
  unfold World.releaseTag
  rw [hs, hd] at hreleased ⊢
  dsimp only
  split
  · exact hreleased.report _ _
  · exact hreleased

/-! ### Ticks and jobs -/

theorem Worlds.giveBack {R : Env → Env → Prop} {t t' : Tick σ} (hw : V.Worlds V.Rests t.world t'.world)
    (hsame : ∃ stack temps, t'.env = { t.env with stack, temps }) (hr : R t.env t'.env) :
    V.Worlds R (Engine.giveBack V.owner t) (Engine.giveBack V.owner t') := by
  refine (hw.modify fun i i' hii => ?_).observe V.owner .left
  obtain ⟨stack, temps, hi⟩ := hii.same
  obtain ⟨stack', temps', henv⟩ := hsame
  exact ⟨hii.tree, ⟨stack', temps', by rw [hi, ← henv]⟩, hii.pending, hr⟩

theorem Stands.giveBack {t t' : Tick σ} (h : V.Stands t t') :
    V.Worlds V.Rests (Engine.giveBack V.owner t) (Engine.giveBack V.owner t') := by
  obtain ⟨hrests, hslots, hw⟩ := h
  have hsame : ∃ stack temps, t'.env = { t.env with stack, temps } := by
    obtain ⟨G, above, base, base', -, -, henv⟩ := hrests
    exact ⟨_, henv.eq_of_slots hslots⟩
  exact hw.giveBack hsame hrests

theorem InStep.activate {m m' : TickM σ α} (hp : p ≠ V.owner) (hm : V.Outside p _ m m') :
    V.InStep (Engine.activate p m) (Engine.activate p m') := by
  intro w w' hw
  have hends := @hm (w.instanceOf p).tree (w.instanceOf p).env _ _ (hw.observe p .entered)
  rw [Engine.run_activate, Engine.run_activate, hw.instanceOf_of_ne hp]
  generalize m ⟨p, (w.instanceOf p).tree⟩ ⟨(w.instanceOf p).env, _⟩ = o,
    m' ⟨p, (w.instanceOf p).tree⟩ ⟨(w.instanceOf p).env, _⟩ = o' at hends
  have hback : ∀ {env : Env} {u u' : World σ}, V.Worlds V.Rests u u' →
      V.Worlds V.Rests (Engine.giveBack p ⟨env, u⟩) (Engine.giveBack p ⟨env, u'⟩) := fun hu =>
    (hu.modifyOther hp _).observe p .left
  cases hends with
  | ok a env hu => exact ⟨rfl, hback hu⟩
  | failed r env hu => exact ⟨rfl, hback hu⟩
  | halted h h' => trivial
  | early h _ he =>
    cases o' with
    | ok | failed => exact he
    | halted => trivial
  | late _ h hl =>
    cases o with
    | ok | failed => exact hl
    | halted => trivial

theorem Along.activate {m m' : TickM σ α} {Q : α → α → Tick σ → Tick σ → Prop} {E : Tick σ → Tick σ → Prop}
    {S : Except RunError α → Except RunError α → World σ → World σ → Prop}
    (hm : ∀ t t', V.Stands t t' → t.env = (w.instanceOf V.owner).env → V.Beside Q E (m V.here t) (m' V.there t'))
    (hok : ∀ a b t t', Q a b t t' → S (.ok a) (.ok b) (Engine.giveBack V.owner t) (Engine.giveBack V.owner t'))
    (herror : ∀ r r' t t', E t t' → S (.error r) (.error r') (Engine.giveBack V.owner t) (Engine.giveBack V.owner t'))
    (hw : V.Worlds V.Rests w w') :
    V.Along S ((Engine.activate V.owner m).run w) ((Engine.activate V.owner m').run w') := by
  have hseen := hw.observe V.owner .entered
  have hi := hw.instanceOf
  obtain ⟨stack, temps, hsame⟩ := hi.same
  have hslots : (w.instanceOf V.owner).env.SameSlots (w'.instanceOf V.owner).env := by
    rw [hsame]
    exact ⟨rfl, rfl⟩
  have hends := hm ⟨(w.instanceOf V.owner).env, w.observe V.owner .entered⟩
    ⟨(w'.instanceOf V.owner).env, w'.observe V.owner .entered⟩ ⟨hi.rests, hslots, hseen⟩ rfl
  have hthere : (⟨V.owner, (w'.instanceOf V.owner).tree⟩ : Activation) = V.there := by
    rw [hsame]
    rfl
  have hhere : (⟨V.owner, (w.instanceOf V.owner).tree⟩ : Activation) = V.here := by
    rw [hi.tree]
    rfl
  rw [Engine.run_activate, Engine.run_activate, hthere, hhere]
  generalize m V.here _ = o, m' V.there _ = o' at hends
  cases o <;> cases o'
  case ok.ok => exact hok _ _ _ _ hends
  case failed.failed => exact herror _ _ _ _ hends
  case ok.failed => exact hends.elim
  case failed.ok => exact hends.elim
  all_goals exact hends

/-! ### Engines -/

theorem InStep.dispatch (hhear : ∀ (l : Listener σ) (event : Event), V.Hears l → V.InStep (e.hear l event) (e'.hear l event))
    (key : EventKey) (args : List Value) : V.InStep (e.dispatch key args) (e'.dispatch key args) := by
  refine .get fun w w' hw => ?_
  rw [hw.subscriptions]
  refine .bind (.forM fun l hl => ?_) fun _ => .pure _
  obtain ⟨id, entry, hentry, rfl⟩ := Subscriptions.mem_callbacks hl
  exact hhear _ _ (hw.listeners hentry)

theorem Stills.onWorld {m m' : WorldM σ α} (h : V.InStep m m') : V.Stills (TickM.onWorld m) (TickM.onWorld m') := by
  intro G frames frames' t t' ht hs
  have hends := h _ _ ht.world
  unfold TickM.onWorld
  generalize m.run t.world = r, m'.run t'.world = r' at hends
  cases r <;> cases r'
  case ok.ok => exact ⟨hends.1, hs, [], rfl, ht.env, hends.2⟩
  all_goals exact hends

namespace Engines

variable (he : V.Engines e e')
include he

theorem dispatch (key : EventKey) (args : List Value) : V.InStep (e.dispatch key args) (e'.dispatch key args) :=
  .dispatch (fun _ event hl => he.hear event hl) key args

theorem announce (p : Tag) (event : Lifecycle) (args : List Value) :
    V.InStep (e.announce p event args) (e'.announce p event args) :=
  .bind (.observe _ _) fun _ => .bind (he.dispatch _ _) fun _ => .pure _

theorem corresponds (hp : p ≠ V.owner) :
    Engine.Corresponds p (fun _ => True) (fun _ => True) (V.Outside p) e e' :=
  { correspondence_outside hp with
    called := fun _ _ _ env _ _ hw => .ok _ env (hw.observe _ _)
    heeds := fun {n} _ => n.heeds_all
    run := fun id => he.run id hp
    resume := fun level => he.resume level hp
    dispatch := by
      intro n event _ _ key args tree env w w' hw
      have hends := he.dispatch key args w w' hw
      unfold onWorld
      generalize (e.dispatch key args).run w = r, (e'.dispatch key args).run w' = r' at hends
      cases r <;> cases r'
      case ok.ok r r' =>
        obtain ⟨heard, u⟩ := r
        obtain ⟨heard', u'⟩ := r'
        obtain ⟨rfl, hu⟩ : heard = heard' ∧ V.Worlds V.Rests u u' := hends
        exact .ok heard env hu
      case ok.error => exact .late _ _ hends
      case error.ok => exact .early _ _ hends
      case error.error => exact .halted _ _ }

theorem runJob (p : Tag) {job : Job} (hjob : p = V.owner → V.Takes job) :
    V.Agrees (V.Same p) (Engine.activate p (e.runJob job)) (Engine.activate p (e'.runJob job)) := by
  by_cases hp : p = V.owner
  · subst hp
    intro w w' hw
    refine Along.activate (Q := fun _ _ => V.Stands) (E := V.Stands) ?_ ?_ ?_ hw
    · rintro t t' ⟨⟨G, above, base, base', habove, hstands, henv⟩, hs, hu⟩ -
      have hends := he.shares.runJob (hjob rfl) hstands habove t t' ⟨henv, hu⟩ hs
      have hstand : ∀ u u' : Tick σ, V.Ticks G (above ++ base) (above ++ base') u u' ∧ u.env.SameSlots u'.env → V.Stands u u' :=
        fun u u' hu => ⟨⟨G, above, base, base', habove, hstands, hu.1.env⟩, hu.2, hu.1.world⟩
      exact hends.mono (fun _ _ u u' _ _ => hstand u u') hstand
    · rintro ⟨⟩ ⟨⟩ t t' ht
      exact ⟨.ok (), ht.giveBack⟩
    · exact fun r r' t t' ht => ⟨.error r r' fun hne => absurd rfl hne, ht.giveBack⟩
  · have hrun : V.InStep (Engine.activate p (e.runJob job)) (Engine.activate p (e'.runJob job)) := by
      refine .activate hp ?_
      have h := he.corresponds hp
      exact h.bind (fun _ env _ _ hw => .ok _ env (hw.observe _ _)) fun _ => h.runAside job.heeds_all
    intro w w' hw
    refine (hrun w w' hw).mono ?_
    rintro r _ u u' ⟨rfl, hu⟩
    exact ⟨.refl p r, hu⟩

theorem runNext (p : Tag) : V.InStep (e.runNext p) (e'.runNext p) := by
  refine .get fun w w' hw => ?_
  rw [hw.pending p]
  cases hjobs : (w.instanceOf p).pending with
  | nil => exact .pure _
  | cons job rest =>
    have hpending : p = V.owner → ∀ job ∈ (w.instanceOf p).pending, V.Takes job := by
      rintro rfl
      exact hw.instanceOf.pending
    rw [hjobs] at hpending
    have hnext : V.InStep
        (MonadState.get >>= fun w => if (w.instanceOf p).interrupted then Pure.pure () else e.runPending p)
        (MonadState.get >>= fun w => if (w.instanceOf p).interrupted then Pure.pure () else e'.runPending p) := by
      refine .get fun u u' hu => ?_
      rw [hu.interrupted p]
      exact .ite (.pure _) (he.runPending p)
    refine .bind (.flag p (fun _ _ _ => rfl) fun ho _ _ j hj => hpending ho j (List.mem_cons_of_mem _ hj)) fun _ => ?_
    refine Agrees.bind (he.runJob p fun ho => hpending ho job List.mem_cons_self) fun r r' hr => ?_
    cases hr with
    | ok => exact hnext
    | error r r' _ => exact InStep.bind (.report _ _) fun _ => hnext

omit he in
theorem setExecuting (p : Tag) (b : Bool) :
    V.InStep (σ := σ) (modify (·.modifyInstance p fun i => { i with executing := b }))
      (modify (·.modifyInstance p fun i => { i with executing := b })) := .flag p (fun _ _ _ => rfl) fun _ _ hjobs => hjobs

omit he in
theorem whileExecuting (p : Tag) {m m' : WorldM σ Unit} (hm : V.InStep m m') :
    V.InStep (Engine.whileExecuting p m) (Engine.whileExecuting p m') := by
  refine .get fun w w' hw => ?_
  rw [hw.executing p]
  exact .bind (setExecuting p true) fun _ => .bind hm fun _ => setExecuting p _

omit he in
theorem release {R : Env → Env → Prop} (hV : V.Fits) (p : Tag) (hR : p ≠ V.owner → ∀ env env', R env env' → V.Rests env env')
    (hw : V.Worlds R w w') :
    V.Along (fun _ _ u u' => V.Worlds V.Rests u u') ((Engine.release p).run w) ((Engine.release p).run w') :=
  ((hw.releaseTag p).observe p .unwound).unwind hV p hR (fun _ _ _ => rfl) fun _ => rfl

theorem windUp (p : Tag) (event : Lifecycle) {forget : Env → Env}
    (hforget : ∀ env env', V.Rests env env' → (∃ stack temps, env' = { env with stack, temps }) →
      V.Rests (forget env) (forget env') ∧ ∃ stack temps, forget env' = { forget env with stack, temps }) :
    V.InStep (e.windUp p event forget) (e'.windUp p event forget) := by
  have hV := he.shares.fits
  refine whileExecuting p (.bind (he.announce p event []) fun _ => .bind (he.runPending p) fun _ => .bind ?_ fun _ => ?_)
  · exact fun w w' hw => (release hV p (fun _ _ _ => id) hw).mono fun _ _ u u' hu => ⟨rfl, hu⟩
  · refine .edit fun w w' hw => ?_
    by_cases hp : p = V.owner
    · subst hp
      refine hw.modify fun i i' hii => ?_
      obtain ⟨stack, temps, hsame⟩ := hii.same
      obtain ⟨hrests, stack', temps', hthere⟩ := hforget i.env i'.env hii.rests ⟨stack, temps, by rw [hsame]⟩
      exact ⟨hii.tree, ⟨stack', temps', by rw [← hthere, hsame]⟩, hii.pending, hrests⟩
    · exact hw.modifyOther hp _

/-- An interruption leaves the two variants alike, whatever is suspended in them. -/
theorem interruptNow {R : Env → Env → Prop} (p : Tag) (hR : p ≠ V.owner → ∀ env env', R env env' → V.Rests env env')
    (hw : V.Worlds R w w') :
    V.Along (fun _ _ u u' => V.Worlds V.Rests u u') ((e.interruptNow p).run w) ((e'.interruptNow p).run w') := by
  have hunwound := (hw.observe p .unwound).unwind he.shares.fits p hR
    (f := fun i => { i with interrupted := false, pending := [], env := i.env.unwind }) (fun _ _ _ => rfl) fun _ => rfl
  have hrest : V.InStep (e.windUp p .interrupted id >>= fun _ => modify (·.report (.interrupted p)))
      (e'.windUp p .interrupted id >>= fun _ => modify (·.report (.interrupted p))) :=
    .bind (he.windUp p .interrupted fun _ _ hr hs => ⟨hr, hs⟩) fun _ => .report _ _
  exact (hrest _ _ hunwound).mono fun _ _ _ _ hu => hu.2

theorem interrupt (p : Tag) : V.InStep (e.interruptNow p) (e'.interruptNow p) :=
  fun _ _ hw => (he.interruptNow p (fun _ _ _ => id) hw).mono fun _ _ _ _ hu => ⟨rfl, hu⟩

theorem clearNow (p : Tag) : V.InStep (e.clearNow p) (e'.clearNow p) := by
  refine .bind (.flag p (fun _ _ _ => rfl) fun _ _ hjobs => hjobs) fun _ => .bind (he.windUp p .cleaned ?_) fun _ =>
    .report _ _
  exact fun _ _ _ _ => ⟨he.shares.fits.rests_bare rfl rfl rfl, ∅, ∅, rfl⟩

theorem drain (p : Tag) : V.InStep (e.drain p) (e'.drain p) := by
  refine whileExecuting p (.bind (he.runPending p) fun _ => .get fun w w' hw => ?_)
  rw [hw.interrupted p]
  exact .ite (he.interrupt p) (.pure _)

theorem schedule (p : Tag) {job : Job} (hjob : p = V.owner → V.Takes job) :
    V.InStep (e.schedule p job) (e'.schedule p job) := by
  refine .get fun w w' hw => ?_
  dsimp only
  rw [hw.dropped p, hw.executing p]
  refine .ite (.pure _) (.bind (.observe _ _) fun _ => .bind ?_ fun _ => .ite (.pure _) (he.drain p))
  refine .flag p (fun _ _ _ => rfl) fun ho i hjobs j hj => ?_
  rcases List.mem_append.mp hj with hj | hj
  · exact hjobs j hj
  · rw [List.mem_singleton.mp hj]
    exact hjob ho

theorem announceSettled (p : Tag) (status : Status) : V.InStep (e.announceSettled p status) (e'.announceSettled p status) := by
  cases status with
  | success => exact he.announce p _ _
  | failure => exact he.announce p _ _
  | running => exact .pure _

/-! ### Runs -/

theorem tickOwn (hw : V.Worlds V.Rests w w') :
    V.Along (V.Settles V.owner) ((e.tick V.owner).run w) ((e'.tick V.owner).run w') := by
  have hV := he.shares.fits
  have hi := hw.instanceOf
  have hempty : (w'.instanceOf V.owner).env.stack.isEmpty = (w.instanceOf V.owner).env.stack.isEmpty := by
    obtain ⟨G, above, base, base', -, hstands, henv⟩ := hi.rests
    rw [henv.stack, henv.stack']
    have hlevel : above ++ base' = [] ↔ above ++ base = [] := by
      rw [List.append_eq_nil_iff, List.append_eq_nil_iff, hV.level hstands]
    exact Bool.eq_iff_iff.mpr (by simpa [Stack.isEmpty] using hlevel)
  have htree' : (w'.instanceOf V.owner).tree = V.tree' := by
    obtain ⟨stack, temps, hsame⟩ := hi.same
    rw [hsame]
  have hactivate : ∀ m m' : TickM σ Status, (∀ t t', V.Stands t t' → t.env = (w.instanceOf V.owner).env →
      V.Beside V.Returns V.Drops (m V.here t) (m' V.there t')) →
      V.Along (V.Settles V.owner) ((Engine.activate V.owner m).run w) ((Engine.activate V.owner m').run w') := by
    have hown : V.owner ≠ V.owner → ∀ env env' : Env, True → V.Rests env env' := fun hne => absurd rfl hne
    refine fun m m' hm => Along.activate hm ?_ ?_ hw
    · rintro status _ t t' ⟨rfl, hu, hsame, hrests⟩
      refine ⟨.ok status, _, hown, hu.giveBack hsame trivial, fun _ _ hflag => hu.giveBack hsame (hrests ?_)⟩
      have hkept : ((Engine.giveBack V.owner t).instanceOf V.owner).interrupted = (t.world.instanceOf V.owner).interrupted :=
        (congrArg Instance.interrupted
          (World.instanceOf_modifyInstance_self t.world V.owner fun i => { i with env := t.env })).trans rfl
      rw [← hkept]
      exact hflag
    · exact fun r r' t t' ht =>
        ⟨.error r r' fun hne => absurd rfl hne, _, hown, ht.1.giveBack ht.2 trivial, fun _ h => by cases h⟩
  change V.Along (V.Settles V.owner)
    ((if (w.instanceOf V.owner).interrupted then pure (.ok .running)
      else if (w.instanceOf V.owner).env.stack.isEmpty then
        Engine.activate V.owner (e.run (w.instanceOf V.owner).tree.root)
      else Engine.activate V.owner (e.resume 0) : WorldM σ (Except RunError Status)).run w)
    ((if (w'.instanceOf V.owner).interrupted then pure (.ok .running)
      else if (w'.instanceOf V.owner).env.stack.isEmpty then
        Engine.activate V.owner (e'.run (w'.instanceOf V.owner).tree.root)
      else Engine.activate V.owner (e'.resume 0) : WorldM σ (Except RunError Status)).run w')
  rw [hw.interrupted V.owner, hempty, htree', hi.tree]
  split
  · exact ⟨.ok _, _, fun _ _ _ => id, hw, fun _ _ _ => hw⟩
  · split
    · exact hactivate _ _ fun t t' ht henv => (he.ticks t t' ht).1 (henv ▸ ‹_›)
    · exact hactivate _ _ fun t t' ht henv => (he.ticks t t' ht).2 (henv ▸ Bool.eq_false_iff.mpr ‹_›)

theorem tick (p : Tag) (hw : V.Worlds V.Rests w w') :
    V.Along (V.Settles p) ((e.tick p).run w) ((e'.tick p).run w') := by
  by_cases hp : p = V.owner
  · subst hp
    exact he.tickOwn hw
  · have htick : V.InStep (e.tick p) (e'.tick p) := by
      refine .get fun w w' hw => ?_
      dsimp only
      rw [hw.instanceOf_of_ne hp]
      exact .ite (.pure _) (.ite (.activate hp (he.run _ hp)) (.activate hp (he.resume 0 hp)))
    refine (htick w w' hw).mono ?_
    rintro r _ u u' ⟨rfl, hu⟩
    exact ⟨.refl p r, _, fun _ _ _ => id, hu, fun _ _ _ => hu⟩

theorem settleTick {R : Env → Env → Prop} (p : Tag) (status : Status)
    (hR : p ≠ V.owner → ∀ env env', R env env' → V.Rests env env')
    (hw : V.Worlds R w w') (hrests : (w.instanceOf p).interrupted = false → V.Worlds V.Rests w w') :
    V.Along (fun a b u u' => a = b ∧ V.Worlds V.Rests u u') ((e.settleTick p status).run w)
      ((e'.settleTick p status).run w') := by
  have hflag := hw.interrupted p
  let live (e : Engine σ) : WorldM σ Status := do
    e.announce p .afterRun [.string status.text]
    e.announceSettled p status
    e.drain p
    return status
  change V.Along _
    ((if (w.instanceOf p).interrupted then e.interruptNow p >>= fun _ => pure Status.failure else live e).run w)
    ((if (w'.instanceOf p).interrupted then e'.interruptNow p >>= fun _ => pure Status.failure else live e').run w')
  rw [hflag]
  by_cases hi : (w.instanceOf p).interrupted = true
  · rw [if_pos hi, if_pos hi]
    exact (he.interruptNow p hR hw).bind fun _ _ u u' hu => ⟨rfl, hu⟩
  · rw [if_neg hi, if_neg hi]
    have hlive : V.InStep (live e) (live e') :=
      .bind (he.announce _ _ _) fun _ => .bind (he.announceSettled _ _) fun _ => .bind (he.drain _) fun _ => .pure _
    exact hlive _ _ (hrests (Bool.eq_false_iff.mpr hi))

theorem afterTick (p : Tag) {r r' : Except RunError Status} (h : V.Settles p r r' w w') :
    V.Along (fun a b u u' => V.Same p a b ∧ V.Worlds V.Rests u u') ((e.afterTick p r).run w) ((e'.afterTick p r').run w') := by
  have hV := he.shares.fits
  obtain ⟨hr, R, hR, hw, hrests⟩ := h
  cases hr with
  | error r r' hsame =>
    have hreported := hw.report (.tickFailed (w.instanceOf p).tree.name r) (.tickFailed (w'.instanceOf p).tree.name r')
    let rest (r : RunError) : WorldM σ (Except RunError Status) := do
      Engine.release p
      modify (·.modifyInstance p fun i => { i with interrupted := false })
      return .error r
    change V.Along _ ((rest r).run (w.report _)) ((rest r').run (w'.report _))
    refine (release hV p hR hreported).bind fun _ _ u u' hu => ?_
    exact ⟨.error r r' hsame, hu.flag p (f := fun i => { i with interrupted := false }) (fun _ _ _ => rfl)
      fun _ _ hjobs => hjobs⟩
  | ok status =>
    refine (he.settleTick p status hR hw (hrests status rfl)).bind ?_
    rintro status _ u u' ⟨rfl, hu⟩
    refine Agrees.get (fun v v' hv => ?_) u u' hu
    rw [hv.clearRequested p]
    exact .ite (.bind (he.clearNow p) fun _ _ _ => .pure (.ok status)) (.pure (.ok status))

theorem runTree (p : Tag) : V.Agrees (V.Same p) (e.runTree p) (e'.runTree p) := by
  refine .get fun w w' hw => ?_
  dsimp only
  rw [hw.executing p]
  refine .ite (.pure (.error _ _ fun hp => ?_)) fun u u' hu => ?_
  · rw [hw.instanceOf_of_ne hp]
  · have hopen : V.InStep
        (modify (·.modifyInstance p fun i => { i with executing := true }) >>= fun _ => e.announce p .beforeRun [])
        (modify (·.modifyInstance p fun i => { i with executing := true }) >>= fun _ => e'.announce p .beforeRun []) :=
      .bind (setExecuting p true) fun _ => he.announce p _ _
    have hticked : V.Along (V.Settles p) ((e.openRun p).run u) ((e'.openRun p).run u') :=
      (hopen u u' hu).bind fun _ _ v v' hv => he.tick p hv.2
    refine hticked.bind fun r r' v v' hv => (he.afterTick p hv).bind ?_
    rintro a b x x' ⟨hab, hx⟩
    exact ⟨hab, (setExecuting p false x x' hx).2⟩

theorem interruptTree (p : Tag) : V.InStep (e.interruptTree p) (e'.interruptTree p) := by
  refine .bind (.observe _ _) fun _ => .get fun w w' hw => ?_
  rw [hw.executing p]
  exact .ite (.flag p (fun _ _ _ => rfl) fun _ _ hjobs => hjobs) (he.interrupt p)

theorem clearTree (p : Tag) : V.InStep (e.clearTree p) (e'.clearTree p) := by
  refine .bind (.observe _ _) fun _ => .get fun w w' hw => ?_
  rw [hw.executing p]
  exact .ite (.flag p (fun _ _ _ => rfl) fun _ _ hjobs => hjobs) (he.clearNow p)

omit he in
theorem setTree (hV : V.Fits) (hp : p ≠ V.owner) (tree : Tree) :
    V.InStep (σ := σ) (Engine.setTree p tree) (Engine.setTree p tree) := by
  refine .get fun w w' hw => ?_
  dsimp only
  rw [hw.instanceOf_of_ne hp]
  refine .ite (.pure _) (.bind ?_ fun _ => .bind (.edit fun _ _ hu => hu.modifyOther hp _) fun _ => .pure _)
  exact fun u u' hu => (release hV p (fun _ _ _ => id) hu).mono fun _ _ _ _ hv => ⟨rfl, hv⟩

omit he in
theorem withInstance {P : α → α → Prop} {absent : α} (habsent : P absent absent) {m m' : WorldM σ α} (hm : V.Agrees P m m') :
    V.Agrees P (Engine.withInstance p absent m) (Engine.withInstance p absent m') := by
  refine .get fun w w' hw => ?_
  rw [hw.contains p]
  exact .ite hm (.pure habsent)

end Engines

end Variants

end BehaviorTree
