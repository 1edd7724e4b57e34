import BehaviorTree.Proofs.Life.Moves
import BehaviorTree.Proofs.Life.Requests
import BehaviorTree.Proofs.World.Ownership

/-!
Releasing an instance is complete. Whatever those who are told of it do, nothing suspended, parked or waiting is left of
an instance that was interrupted, cleared, given another tree, or whose tick failed, and nothing that it filed; and what
others have filed is as it was when those who were told had acted.
-/

namespace BehaviorTree
set_option autoImplicit false

variable {σ : Type} {w w' w₁ : World σ} {o : Tag} {n : Nat}

/-- Nothing of a state is suspended or parked, and no slot is filled. -/
structure Env.Unwound (env : Env) : Prop where
  stack : env.stack = ∅
  temps : env.temps = ∅
  detached : env.detached = ∅
  listening : env.listening = ∅
  input : env.input = []
  output : env.output = []

theorem Env.unwound_unwind (env : Env) : env.unwind.Unwound := ⟨rfl, rfl, rfl, rfl, rfl, rfl⟩

theorem Env.unwound_empty : ({} : Env).Unwound := ⟨rfl, rfl, rfl, rfl, rfl, rfl⟩

/-- The user variables of an instance after it was seen to do something. -/
def Activity.assigns (vars : Variables) : Activity → Variables
  | assigned name value => vars.assign name value
  | _ => vars

theorem Activity.Plain.assigns {a : Activity} (h : a.Plain) (vars : Variables) : a.assigns vars = vars := by
  cases a with
  | assigned => exact h.elim
  | _ => rfl

/-- An instance is seen to do these things and keeps its tree and its state, but for the variables that the host sets. -/
structure Instance.Keeps (i : Instance) (acts : List Activity) (i' : Instance) : Prop where
  env : i'.env = { i.env with vars := acts.foldl Activity.assigns i.env.vars }
  tree : i'.tree = i.tree

namespace Instance.Keeps

variable {i i' i'' : Instance} {acts acts' : List Activity}

theorem refl (i : Instance) : i.Keeps [] i := ⟨rfl, rfl⟩

theorem trans (h : i.Keeps acts i') (h' : i'.Keeps acts' i'') : i.Keeps (acts ++ acts') i'' := by
  refine ⟨?_, h'.tree.trans h.tree⟩
  rw [h'.env, h.env, List.foldl_append]

end Instance.Keeps

namespace World

theorem exact_start (registry : Registry) (host : σ) : ({ registry, host } : World σ).Exact :=
  ⟨Subscriptions.exact_empty, Delays.exact_empty⟩

theorem Step.exact (h : w.Step w') (hw : w.Exact) : w'.Exact := by
  obtain ⟨hs, hd⟩ := hw
  cases h with
  | subscribe key tag l => exact ⟨hs.add key tag l, hd⟩
  | unsubscribe id => exact ⟨hs.remove id, hd⟩
  | unsubscribeEvent event tag => exact ⟨hs.removeEvent event tag, hd⟩
  | releaseTag tag => exact World.Exact.releaseTag ⟨hs, hd⟩ tag
  | delay span tag a => exact ⟨hs, hd.schedule _ tag a⟩
  | cancel id => exact ⟨hs, hd.cancel id⟩
  | advance now => exact ⟨hs, hd.takeEach _⟩
  | _ => exact ⟨hs, hd⟩

theorem Moves.exact (h : w.Moves w') (hw : w.Exact) : w'.Exact := by
  induction h with
  | refl => exact hw
  | tail _ hs ih => exact hs.exact ih

/-- In a world that a host has made owners are filed exactly. -/
theorem Reached.exact (hw : w.Reached) : w.Exact := by
  obtain ⟨registry, host, hm⟩ := hw.moves
  exact hm.exact (exact_start registry host)

theorem acts_observe_self (w : World σ) (o : Tag) (a : Activity) : (w.observe o a).acts o = w.acts o ++ [a] := by
  rw [acts_observe, if_pos rfl]

theorem acts_observe_of_ne (w : World σ) (a : Activity) {p : Tag} (hp : o ≠ p) : (w.observe p a).acts o = w.acts o := by
  rw [acts_observe, if_neg (Ne.symm hp), List.append_nil]

/-- No tick or job of an instance has given its state back since: that is as it was, but for the variables that the host
has set. -/
def Idles (w : World σ) (o : Tag) (w' : World σ) : Prop :=
  ∃ acts, w'.acts o = w.acts o ++ acts ∧ (w.instanceOf o).Keeps acts (w'.instanceOf o)

/-- The state of an instance has changed only where a tick or job of it has given its state back, and in the variables
that the host has set in between. -/
inductive Minds (w : World σ) (o : Tag) : World σ → Prop
  | idles {w' : World σ} (h : w.Idles o w') : Minds w o w'
  | left {v w' : World σ} (h : Minds w o v) (env : Env)
      (hi : World.Idles ((v.modifyInstance o fun i => { i with env }).observe o .left) o w') : Minds w o w'

/-- An instance has the variables that it had, its own and those of its nodes. -/
structure Retains (w : World σ) (o : Tag) (w' : World σ) : Prop where
  vars : (w'.instanceOf o).env.vars = (w.instanceOf o).env.vars
  privates : (w'.instanceOf o).env.privates = (w.instanceOf o).env.privates

theorem Idles.refl (w : World σ) (o : Tag) : w.Idles o w := ⟨[], (List.append_nil _).symm, .refl _⟩

theorem Idles.trans (h : w.Idles o w₁) (h' : w₁.Idles o w') : w.Idles o w' := by
  obtain ⟨acts, hacts, hkeeps⟩ := h
  obtain ⟨more, hmore, hkeeps'⟩ := h'
  exact ⟨acts ++ more, by rw [hmore, hacts, List.append_assoc], hkeeps.trans hkeeps'⟩

theorem Minds.refl (w : World σ) (o : Tag) : w.Minds o w := .idles (.refl w o)

theorem Minds.trans (h : w.Minds o w₁) (h' : w₁.Minds o w') : w.Minds o w' := by
  induction h' with
  | idles hi =>
    cases h with
    | idles h => exact .idles (h.trans hi)
    | left h env h₁ => exact .left h env (h₁.trans hi)
  | left _ env hi ih => exact .left ih env hi

theorem Minds.acts (h : w.Minds o w') : ∃ acts, w'.acts o = w.acts o ++ acts := by
  induction h with
  | idles hi => exact hi.imp fun _ h => h.1
  | @left v w' _ env hi ih =>
    obtain ⟨before, hbefore⟩ := ih
    obtain ⟨after, hafter, _⟩ := hi
    refine ⟨before ++ .left :: after, ?_⟩
    rw [hafter, acts_observe_self, acts_modifyInstance, hbefore, List.append_assoc, List.append_assoc]
    rfl

/-- Where no tick or job has ended the instance has idled. -/
theorem Minds.idles_of (h : w.Minds o w') {acts : List Activity} (hacts : w'.acts o = w.acts o ++ acts)
    (hl : .left ∉ acts) : w.Idles o w' := by
  cases h with
  | idles hi => exact hi
  | @left v _ h env hi =>
    obtain ⟨before, hbefore⟩ := h.acts
    obtain ⟨after, hafter, _⟩ := hi
    rw [acts_observe_self, acts_modifyInstance, hbefore, List.append_assoc, List.append_assoc] at hafter
    have hmem : .left ∈ acts := by
      rw [List.append_cancel_left (hacts.symm.trans hafter)]
      exact List.mem_append_right _ List.mem_cons_self
    exact absurd hmem hl

/-- As long as nothing suspended in it is dropped, the state of an instance changes only where a tick or job gives it
back, and where the host sets a variable. -/
theorem Step.minds (h : w.Step w') (ho : o.index < w.nextTag) {acts : List Activity}
    (hacts : w'.acts o = w.acts o ++ acts) (hu : .unwound ∉ acts) : w.Minds o w' := by
  have hidles : ∀ more, w'.acts o = w.acts o ++ more → (w.instanceOf o).Keeps more (w'.instanceOf o) → w.Minds o w' :=
    fun more hmore hk => .idles ⟨more, hmore, hk⟩
  have hstill : w'.acts o = w.acts o → w'.instanceOf o = w.instanceOf o → w.Minds o w' := fun ha hi =>
    hidles [] (ha.trans (List.append_nil _).symm) (hi ▸ .refl _)
  cases h with
  | record he => exact hstill (by rw [acts_record, he, Option.toList_none, List.append_nil]) rfl
  | create tree vars =>
    have hne : o ≠ ⟨w.nextTag⟩ := by
      rintro rfl
      exact Nat.lt_irrefl _ ho
    exact hstill rfl (instanceOf_modifyInstance_of_ne (w := { w with nextTag := w.nextTag + 1 }) hne fun _ =>
      { tree, env := { vars } })
  | releaseTag tag => exact hstill (acts_releaseTag w tag o) (instanceOf_releaseTag w tag o)
  | @modify p f hf =>
    by_cases hp : o = p
    · subst hp
      refine hidles [] (List.append_nil _).symm ?_
      rw [instanceOf_modifyInstance_self]
      exact ⟨(hf _).env, (hf _).tree⟩
    · exact hstill rfl (instanceOf_modifyInstance_of_ne hp f)
  | assign p name value =>
    by_cases hp : o = p
    · subst hp
      refine hidles [.assigned name value] (acts_observe_self w o _) ?_
      rw [World.assign, instanceOf_modifyInstance_self]
      exact ⟨rfl, rfl⟩
    · exact hstill (acts_observe_of_ne w _ hp) (instanceOf_modifyInstance_of_ne hp _)
  | @observe p a ha =>
    by_cases hp : o = p
    · subst hp
      refine hidles [a] (acts_observe_self w o a) ⟨?_, rfl⟩
      rw [List.foldl_cons, List.foldl_nil, ha.assigns]
      rfl
    · exact hstill (acts_observe_of_ne w a hp) rfl
  | start p job =>
    by_cases hp : o = p
    · subst hp
      refine hidles [.entered, .started job] ?_ ⟨rfl, rfl⟩
      rw [acts_observe_self, acts_observe_self, List.append_assoc]
      rfl
    · exact hstill ((acts_observe_of_ne _ _ hp).trans (acts_observe_of_ne w _ hp)) rfl
  | leave p env =>
    by_cases hp : o = p
    · subst hp
      exact .left (.refl w o) env (.refl _ o)
    · exact hstill (acts_observe_of_ne w _ hp) (instanceOf_modifyInstance_of_ne (w := w) hp fun i => { i with env })
  | @unwind p f hf =>
    by_cases hp : o = p
    · subst hp
      have hdropped := List.append_cancel_left (hacts.symm.trans (acts_observe_self w o .unwound))
      exact absurd (hdropped ▸ List.mem_singleton.mpr rfl) hu
    · exact hstill (acts_observe_of_ne w _ hp) (instanceOf_modifyInstance_of_ne hp _)
  | _ => exact hstill rfl rfl

theorem Moves.minds (h : w.Moves w') (ho : o.index < w.nextTag) {acts : List Activity}
    (hacts : w'.acts o = w.acts o ++ acts) (hu : .unwound ∉ acts) : w.Minds o w' := by
  induction h generalizing acts with
  | refl => exact .refl w o
  | tail hm hs ih =>
    obtain ⟨before, hbefore⟩ := Moves.acts hm o
    obtain ⟨more, hmore, _⟩ := hs.acts o
    obtain rfl : acts = before ++ more := by
      rw [hmore, hbefore, List.append_assoc] at hacts
      exact (List.append_cancel_left hacts).symm
    have hfirst := ih hbefore fun hm => hu (List.mem_append_left _ hm)
    have hgiven := Nat.lt_of_lt_of_le ho (Moves.later hm)
    exact hfirst.trans (hs.minds hgiven hmore fun hm => hu (List.mem_append_right _ hm))

/-- Nothing of an instance is left in a world, which had it before: its state is as it is given here, without anything
suspended; no job waits; it has filed nothing, and what others have filed is there as it was, in its order; and so are
the other instances. -/
structure Frees (w : World σ) (o : Tag) (state : Env) (w' : World σ) : Prop where
  executing : (w'.instanceOf o).executing = false
  pending : (w'.instanceOf o).pending = []
  env : (w'.instanceOf o).env = state
  unwound : state.Unwound
  owns : w'.OwnsNothing o
  subscriptions (id : SubscriptionId) :
    w'.subscriptions.entries[id]? = (w.subscriptions.entries[id]?).filter fun e => e.tag ≠ o
  callbacks (key : EventKey) : w'.subscriptions.callbacks key = w.subscriptions.callbacksBut o key
  delays (id : DelayId) : w'.delays.pending[id]? = (w.delays.pending[id]?).filter fun e => e.tag ≠ o
  others {p : Tag} (hp : p ≠ o) : w'.instanceOf p = w.instanceOf p

theorem Frees.of_report {state : Env} {r : Report} (h : (w.report r).Frees o state w') : w.Frees o state w' :=
  ⟨h.executing, h.pending, h.env, h.unwound, h.owns, h.subscriptions, h.callbacks, h.delays, h.others⟩

/-- An instance that is only unwound when it is released has its variables afterwards. -/
theorem Frees.and_retains (h : w.Frees o (w.instanceOf o).env.unwind w') :
    w.Frees o (w.instanceOf o).env.unwind w' ∧ w.Retains o w' := by
  refine ⟨h, ?_, ?_⟩
  all_goals
    rw [h.env]
    rfl

theorem Frees.report {env : Env} (h : w.Frees o env w') (r : Report) : w.Frees o env (w'.report r) :=
  ⟨h.executing, h.pending, h.env, h.unwound, h.owns.of_eq rfl rfl, h.subscriptions, h.callbacks, h.delays, h.others⟩

theorem Exact.frees (h : w.Exact) {env : Env} (hu : env.Unwound) {f : Instance → Instance}
    (hf : (f (w.instanceOf o)).executing = false ∧ (f (w.instanceOf o)).pending = [] ∧
      (f (w.instanceOf o)).env = env) :
    w.Frees o env (((w.releaseTag o).observe o .unwound).modifyInstance o f) := by
  have hown := ownsNothing_releaseTag h.subscriptions.toFiled h.delays.toFiled o
  have hsubscriptions := subscriptions_releaseTag w o
  have hdelays := delays_releaseTag w o
  have hinstances : ∀ p, (w.releaseTag o).instanceOf p = w.instanceOf p := by
    intro p
    rw [instanceOf, instanceOf, instances_releaseTag]
  generalize w.releaseTag o = w₁ at hown hsubscriptions hdelays hinstances ⊢
  have hself : ((w₁.observe o .unwound).modifyInstance o f).instanceOf o = f (w.instanceOf o) := by
    rw [instanceOf_modifyInstance_self]
    exact congrArg f (hinstances o)
  refine ⟨hself ▸ hf.1, hself ▸ hf.2.1, hself ▸ hf.2.2, hu, hown.of_eq rfl rfl, fun id => ?_, fun key => ?_,
    fun id => ?_, fun {p} hp => ?_⟩
  · change w₁.subscriptions.entries[id]? = _
    rw [hsubscriptions, h.subscriptions.entries_removeOwner]
  · change w₁.subscriptions.callbacks key = _
    rw [hsubscriptions, h.subscriptions.callbacks_removeOwner]
  · change w₁.delays.pending[id]? = _
    rw [hdelays, h.delays.pending_cancelOwner]
  · rw [instanceOf_modifyInstance_of_ne hp]
    exact hinstances p

end World

open World

namespace Engine

/-- Lets those who listen for the end of an instance act, and then runs the jobs that wait. -/
def farewell (e : Engine σ) (owner : Tag) (event : Lifecycle) : WorldM σ Unit := do
  e.announce owner event []
  e.runPending owner

variable {e : Engine σ} {c : Course}

theorem windUp_farewell (event : Lifecycle) (forget : Env → Env) :
    w.Then (e.windUp o event forget) fun _ w' => ∃ w₁, (e.farewell o event).run (w.lock o) = .ok ((), w₁) ∧
      w' = ((w₁.releaseTag o).observe o .unwound).modifyInstance o fun i =>
        { i with
          pending := []
          env := forget i.env.unwind
          interrupted := false
          executing := (w.instanceOf o).executing } := by
  simp only [Engine.windUp, whileExecuting, Engine.release, then_bind, then_get, then_modify,
    modifyInstance_modifyInstance]
  intro _ w₂ h₂ _ w₁ h₁
  refine ⟨w₁, ?_, rfl⟩
  rw [Engine.farewell, StateT.run_bind]
  exact (congrArg (· >>= _) h₂).trans h₁

theorem openRun_announced : w.Then (e.openRun o) fun r w₁ => ∃ w₀,
    (e.announce o .beforeRun []).run (w.lock o) = .ok ((), w₀) ∧ (e.tick o).run w₀ = .ok (r, w₁) := by
  simp only [Engine.openRun, then_bind, then_modify]
  exact fun _ w₀ h₀ _ _ h₁ => ⟨w₀, h₀, h₁⟩

theorem closeRun_error (err : RunError) :
    w.Then (e.closeRun o (.error err)) fun r w' => r = .error err ∧
      w' = (((w.report (.tickFailed (w.instanceOf o).tree.name err)).releaseTag o).observe o .unwound).modifyInstance o
        fun i => { i with pending := [], env := i.env.unwind, interrupted := false, executing := false } := by
  simp only [Engine.closeRun, Engine.afterTick, Engine.release, then_bind, then_get, then_modify, then_pure,
    modifyInstance_modifyInstance]
  exact ⟨trivial, trivial⟩

theorem setTree_frees (hb : (w.instanceOf o).executing = false) (hx : w.Exact) (tree : Tree) :
    w.Then (setTree o tree) fun r w' => r = .ok () ∧ (w'.instanceOf o).tree = tree ∧
      w.Frees o { (w.instanceOf o).env.unwind with privates := ∅ } w' ∧
        (w'.instanceOf o).env.vars = (w.instanceOf o).env.vars ∧ (w'.instanceOf o).env.privates = ∅ := by
  simp only [Engine.setTree, Engine.release, then_bind, then_get, hb, Bool.false_eq_true, if_false, then_modify,
    then_pure, modifyInstance_modifyInstance]
  have hfreed : ∀ {w' : World σ}, w.Frees o { (w.instanceOf o).env.unwind with privates := ∅ } w' →
      w.Frees o { (w.instanceOf o).env.unwind with privates := ∅ } w' ∧
        (w'.instanceOf o).env.vars = (w.instanceOf o).env.vars ∧ (w'.instanceOf o).env.privates = ∅ := by
    intro w' h
    refine ⟨h, ?_, ?_⟩
    · rw [h.env]
      rfl
    · rw [h.env]
  refine ⟨trivial, ?_, hfreed (hx.frees ⟨rfl, rfl, rfl, rfl, rfl, rfl⟩ ⟨hb, rfl, rfl⟩)⟩
  rw [instanceOf_modifyInstance_self]

theorem farewell_moves (hm : e.Moving) (event : Lifecycle) : w.Then (e.farewell o event) fun _ => w.Moves := by
  simp only [Engine.farewell, then_bind]
  exact (hm.announce .refl event []).mono fun _ _ hw₁ => hm.runPending o hw₁

namespace Civil

variable (he : e.Civil)
include he

theorem announce_quiet (event : Lifecycle) (h : (w.telling o event).Held true o c) :
    (w.lock o).Then (e.announce o event []) fun _ w' => ∃ acts,
      w'.acts o = w.acts o ++ acts ∧ .unwound ∉ acts ∧ .left ∉ acts := by
  simp only [Engine.announce, then_bind, then_modify, then_pure]
  refine (he.dispatch _ _ h.coherent).mono fun _ w' hw' => ?_
  obtain ⟨acts, _, hacts, hquiet, _⟩ := (hw'.guest o).course h.stands
  have hnone : ∀ a, ¬ a.Quiet false → a ∉ acts := fun a ha hm => ha (hquiet h.executing a hm)
  refine ⟨.announced event.name [] :: acts, ?_, fun hu => ?_, fun hl => ?_⟩
  · change w'.acts o = (w.telling o event).acts o ++ acts at hacts
    rw [hacts, acts_telling, List.append_assoc]
    rfl
  · cases hu with
    | tail _ hu => exact hnone _ id hu
  · cases hl with
    | tail _ hl => exact hnone _ id hl

/-- While an event of its life is told an instance idles. -/
theorem announce_idles (hm : e.Moving) (event : Lifecycle) (h : (w.telling o event).Held true o c) :
    (w.lock o).Then (e.announce o event []) fun _ w' => (w.lock o).Idles o w' := by
  intro _ w' hr
  obtain ⟨acts, hacts, hu, hl⟩ := he.announce_quiet event h () w' hr
  have hmoves : (w.lock o).Moves w' := hm.announce .refl event [] () w' hr
  exact (hmoves.minds h.given hacts hu).idles_of hacts hl

theorem farewell_keeps (event : Lifecycle) (h : (w.telling o event).Held true o c) (ha : c.active = false)
    (ho : c.opening = false) (hc : c.closed = false) :
    (w.lock o).Then (e.farewell o event) fun _ w' => ∃ acts, w'.acts o = w.acts o ++ acts ∧ .unwound ∉ acts := by
  simp only [Engine.farewell, Engine.announce, then_bind, then_modify, then_pure]
  refine (he.told h _ _).mono fun _ w₁ hw₁ => ?_
  obtain ⟨c₁, h₁, hactive₁, _, hclose₁⟩ := hw₁
  refine (he.runPending h₁.held (hactive₁.trans ha) ((hclose₁ ha ho).trans hc)).mono fun _ w₂ hw₂ => ?_
  obtain ⟨_, h₂, _⟩ := hw₂
  obtain ⟨acts, hacts, _, hinner⟩ := (h₁.trans h₂).path
  refine ⟨.announced event.name [] :: acts, ?_, fun hu => ?_⟩
  · rw [hacts, acts_telling, List.append_assoc]
    rfl
  · cases hu with
    | tail _ hu => exact hinner _ hu

theorem interruptTree_frees (hm : e.Moving) (h : w.Held false o c) (hx : w.Exact) :
    w.Then (e.interruptTree o) fun _ w' => ∃ w₁,
      w.Retains o (((w.observe o (.requested false)).unwound o).lock o) ∧
        (e.farewell o .interrupted).run (((w.observe o (.requested false)).unwound o).lock o) = .ok ((), w₁) ∧
          (((w.observe o (.requested false)).unwound o).lock o).Minds o w₁ ∧
            w₁.Frees o (w₁.instanceOf o).env.unwind w' ∧ w₁.Retains o w' := by
  have hidle : ((w.observe o (.requested false)).instanceOf o).executing = false := h.executing
  obtain ⟨d, hturn, hstill⟩ := Turns.requested h
  have htell := Turns.telling .interrupted hturn.held hstill (by simp)
  simp only [Engine.interruptTree, Engine.interruptNow, then_bind, then_modify, then_get, hidle, Bool.false_eq_true,
    if_false]
  refine (windUp_farewell (w := (w.observe o (.requested false)).unwound o) .interrupted id).mono fun _ w₂ hw₂ => ?_
  obtain ⟨w₁, h₁, rfl⟩ := hw₂
  have hmoves := farewell_moves hm .interrupted () w₁ h₁
  have hexact : w₁.Exact := hmoves.exact ⟨hx.subscriptions, hx.delays⟩
  obtain ⟨acts, hacts, hkeeps⟩ :=
    he.farewell_keeps .interrupted htell.held hstill.active rfl hstill.closed () w₁ h₁
  have hself : (((w.observe o (.requested false)).unwound o).instanceOf o) =
      { w.instanceOf o with interrupted := false, pending := [], env := (w.instanceOf o).env.unwind } :=
    instanceOf_modifyInstance_self _ _ _
  have hretains : w.Retains o (((w.observe o (.requested false)).unwound o).lock o) := by
    constructor
    all_goals
      rw [World.lock, instanceOf_modifyInstance_self, hself]
      rfl
  have hstopped : (((w.observe o (.requested false)).unwound o).instanceOf o).executing = false := by
    rw [hself]
    exact h.executing
  exact ⟨w₁, hretains, h₁, hmoves.minds h.given hacts hkeeps,
    ((hexact.frees (Env.unwound_unwind _) ⟨hstopped, rfl, rfl⟩).report _).and_retains⟩

omit he in
theorem clearTree_frees (hm : e.Moving) (h : w.Held false o c) (hx : w.Exact) :
    w.Then (e.clearTree o) fun _ w' => ∃ w₁,
      (e.farewell o .cleaned).run
          (((w.observe o (.requested true)).modifyInstance o fun i => { i with clearRequested := false }).lock o) =
        .ok ((), w₁) ∧ w₁.Frees o {} w' := by
  have hidle : ((w.observe o (.requested true)).instanceOf o).executing = false := h.executing
  simp only [Engine.clearTree, Engine.clearNow, then_bind, then_modify, then_get, hidle, Bool.false_eq_true, if_false]
  refine (windUp_farewell .cleaned fun _ => {}).mono fun _ w₂ hw₂ => ?_
  obtain ⟨w₁, h₁, rfl⟩ := hw₂
  have hexact : w₁.Exact := (farewell_moves hm .cleaned () w₁ h₁).exact ⟨hx.subscriptions, hx.delays⟩
  refine ⟨w₁, h₁, (hexact.frees Env.unwound_empty ⟨?_, rfl, rfl⟩).report _⟩
  rw [instanceOf_modifyInstance_self]
  exact hidle

theorem runTree_frees (hm : e.Moving) (h : w.Held false o c) (hx : w.Exact) :
    w.Then (e.runTree o) fun r w' => ∀ err, r = .error err → ∃ w₀ w₁,
      (e.announce o .beforeRun []).run (w.lock o) = .ok ((), w₀) ∧ w.Idles o w₀ ∧
        (e.tick o).run w₀ = .ok (.error err, w₁) ∧ w.Minds o w₁ ∧
          w₁.Frees o (w₁.instanceOf o).env.unwind w' ∧ w₁.Retains o w' := by
  have hstill := h.stands.here.still h.executing
  simp only [Engine.runTree, then_bind, then_get, h.executing, Bool.false_eq_true, if_false]
  intro result w₁ h₁ r w' hr err herr
  obtain ⟨c₁, hturn, hactive₁⟩ := he.openRun h hstill.active result w₁ h₁
  have hmoves : w.Moves w₁ := hm.openRun .refl result w₁ h₁
  obtain ⟨w₀, h₀, htick⟩ := openRun_announced result w₁ h₁
  cases result with
  | ok status =>
    obtain ⟨_, _, _, _, _, _, hok, _⟩ := he.closeRun hturn.held hactive₁ (.ok status) r w' hr
    cases hok.symm.trans herr
  | error err' =>
    obtain ⟨herr', rfl⟩ := closeRun_error err' r w' hr
    obtain rfl : err' = err := Except.error.inj (herr'.symm.trans herr)
    obtain ⟨acts, hacts, _, hwithin⟩ := hturn.path
    have hexact : w₁.Exact := hmoves.exact hx
    have hreported : (w₁.report (.tickFailed (w₁.instanceOf o).tree.name err')).Exact :=
      ⟨hexact.subscriptions, hexact.delays⟩
    have hminds : w.Minds o w₁ := hmoves.minds h.given hacts fun hu => hwithin _ hu
    have htell := (Turns.telling .beforeRun h hstill (by simp)).held
    have hlocked : w.Idles o (w.lock o) := by
      refine ⟨[], (List.append_nil _).symm, ?_⟩
      rw [World.lock, instanceOf_modifyInstance_self]
      exact ⟨rfl, rfl⟩
    exact ⟨w₀, w₁, h₀, hlocked.trans (he.announce_idles hm .beforeRun htell () w₀ h₀), htick, hminds,
      (hreported.frees (Env.unwound_unwind _) ⟨rfl, rfl, rfl⟩).of_report.and_retains⟩

/-- A run of an instance with nothing suspended begins at the root of its tree, unless an interruption is asked for
before its tick. -/
theorem tick_root (hm : e.Moving) (h : (w.telling o .beforeRun).Held true o c)
    (hs : (w.instanceOf o).env.stack = ∅) :
    (w.lock o).Then (e.announce o .beforeRun []) fun _ w₁ => (w₁.instanceOf o).interrupted = false →
      (e.tick o).run w₁ = (activate o (e.run (w.instanceOf o).tree.root)).run w₁ := by
  intro _ w₁ h₁ hi
  obtain ⟨acts, _, henv, htree⟩ := he.announce_idles hm .beforeRun h () w₁ h₁
  have hself : (w.lock o).instanceOf o = { w.instanceOf o with executing := true } :=
    instanceOf_modifyInstance_self _ _ _
  rw [hself] at henv htree
  have hempty : (w₁.instanceOf o).env.stack.isEmpty = true := by
    rw [henv]
    change (w.instanceOf o).env.stack.isEmpty = true
    rw [hs]
    rfl
  have htick : (e.tick o).run w₁ =
      (if (w₁.instanceOf o).interrupted = true then pure (.ok .running)
        else if (w₁.instanceOf o).env.stack.isEmpty = true then activate o (e.run (w₁.instanceOf o).tree.root)
        else activate o (e.resume 0) : WorldM σ (Except RunError Status)).run w₁ := rfl
  rw [htick, hi, hempty, htree]
  rfl

end Civil

end Engine

/-- Release is complete. When an idle instance has been interrupted, cleared or given another tree, or a run of it has
failed, nothing of it is suspended, parked or waiting, and nothing is filed for it any more; what others have filed is
as it was after those who were told of it had acted and the jobs that waited then had run. An interruption and a failed
run leave its private variables and its user variables as they are: these have changed only where a tick or job of it
has given its state back, and where the host has set a user variable. Another tree empties the private variables and
keeps the user variables. A clearing leaves a new state, so that the next run begins at the root. -/
theorem World.Coherent.release_complete (hw : w.Coherent) (hx : w.Exact) (ho : o.index < w.nextTag)
    (hb : (w.instanceOf o).executing = false) :
    (∀ w', ((Engine.ofDepth n).interruptTree o).run w = .ok ((), w') → ∃ w₁,
      w.Retains o (((w.observe o (.requested false)).unwound o).lock o) ∧
        ((Engine.ofDepth n).farewell o .interrupted).run (((w.observe o (.requested false)).unwound o).lock o) =
            .ok ((), w₁) ∧
          (((w.observe o (.requested false)).unwound o).lock o).Minds o w₁ ∧
            w₁.Frees o (w₁.instanceOf o).env.unwind w' ∧ w₁.Retains o w') ∧
    (∀ w', ((Engine.ofDepth n).clearTree o).run w = .ok ((), w') → (∃ w₁,
      ((Engine.ofDepth n).farewell o .cleaned).run
          (((w.observe o (.requested true)).modifyInstance o fun i => { i with clearRequested := false }).lock o) =
          .ok ((), w₁) ∧
        w₁.Frees o {} w') ∧
      ∀ w₂, ((Engine.ofDepth n).announce o .beforeRun []).run (w'.lock o) = .ok ((), w₂) →
        (w₂.instanceOf o).interrupted = false → ((Engine.ofDepth n).tick o).run w₂ =
          (Engine.activate o ((Engine.ofDepth n).run (w'.instanceOf o).tree.root)).run w₂) ∧
    (∀ tree r w', (Engine.setTree o tree).run w = .ok (r, w') → r = .ok () ∧ (w'.instanceOf o).tree = tree ∧
      w.Frees o { (w.instanceOf o).env.unwind with privates := ∅ } w' ∧
        (w'.instanceOf o).env.vars = (w.instanceOf o).env.vars ∧ (w'.instanceOf o).env.privates = ∅) ∧
    ∀ err w', ((Engine.ofDepth n).runTree o).run w = .ok (.error err, w') → ∃ w₀ w₁,
      ((Engine.ofDepth n).announce o .beforeRun []).run (w.lock o) = .ok ((), w₀) ∧ w.Idles o w₀ ∧
        ((Engine.ofDepth n).tick o).run w₀ = .ok (.error err, w₁) ∧ w.Minds o w₁ ∧
          w₁.Frees o (w₁.instanceOf o).env.unwind w' ∧ w₁.Retains o w' := by
  obtain ⟨c, hc⟩ := hw.stands o
  have h : w.Held false o c := ⟨hw, ho, hb, hc⟩
  have he : (Engine.ofDepth n : Engine σ).Civil := Engine.civil_ofDepth n
  have hm : (Engine.ofDepth n : Engine σ).Moving := Engine.moving_ofDepth n
  refine ⟨fun w' hr => he.interruptTree_frees hm h hx () w' hr, fun w' hr => ⟨?_, ?_⟩,
    fun tree r w' hr => Engine.setTree_frees hb hx tree r w' hr,
    fun err w' hr => he.runTree_frees hm h hx (.error err) w' hr err rfl⟩
  · exact Engine.Civil.clearTree_frees hm h hx () w' hr
  · obtain ⟨d, hd, hstill, hbare, _⟩ := he.clearTree h () w' hr
    exact he.tick_root hm (Turns.telling .beforeRun hd.held hstill (by simp)).held hbare.stack ()

/-- A tree with a user variable that listens, and is interrupted between two of its ticks. -/
theorem release_complete_hearer : ∃ w w' w₁ : World Unit, w.Reached ∧ w.subscriptions.count ⟨0⟩ = 1 ∧
    (w.instanceOf ⟨0⟩).env.vars.contains "hp" = true ∧
      ((Engine.ofDepth 3).interruptTree ⟨0⟩).run w = .ok ((), w') ∧ w'.subscriptions.count ⟨0⟩ = 0 ∧
        (((w.observe ⟨0⟩ (.requested false)).unwound ⟨0⟩).lock ⟨0⟩).Minds ⟨0⟩ w₁ ∧
          w₁.Frees ⟨0⟩ (w₁.instanceOf ⟨0⟩).env.unwind w' ∧ w₁.Retains ⟨0⟩ w' := by
  let listening : Program Unit :=
    .create hearer ((∅ : Variables).assign "hp" (some (.int 3))) fun owner => .run owner fun _ => .done
  have hruns : (World.perform 3 listening { registry := ∅, host := () }).toOption.any (fun w =>
      w.subscriptions.count ⟨0⟩ == 1 && !(w.instanceOf ⟨0⟩).executing && decide (0 < w.nextTag) &&
        (w.instanceOf ⟨0⟩).env.vars.contains "hp" &&
          (((Engine.ofDepth 3).interruptTree ⟨0⟩).run w).toOption.any fun _ => true) = true := by
    decide +kernel
  obtain ⟨w, hw, htested⟩ := exists_ok_of_any hruns
  simp only [Bool.and_eq_true, beq_iff_eq, Bool.not_eq_true', decide_eq_true_eq] at htested
  obtain ⟨⟨⟨⟨hone, hb⟩, ho⟩, hhas⟩, hinterrupts⟩ := htested
  obtain ⟨⟨_, w'⟩, hr, _⟩ := exists_ok_of_any hinterrupts
  have hreached : w.Reached := ⟨∅, (), 3, listening, hw⟩
  obtain ⟨w₁, _, _, hminds, hfrees, hretains⟩ :=
    (hreached.continues.1.release_complete hreached.exact ho hb).1 w' hr
  exact ⟨w, w', w₁, hreached, hone, hhas, hr, hfrees.owns.countSubscriptions, hminds, hfrees, hretains⟩

end BehaviorTree
