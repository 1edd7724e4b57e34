import BehaviorTree.Proofs.Isolation.Runners

/-!
One branch of a parallel node beside a runner of its own. A part of a tree that is stepped as a branch does what a
runner of the part does in a tick, and touches nothing that belongs to another part. Of two runs with different depth
the one with less may halt; the comparison goes the other way then.
-/

namespace BehaviorTree
set_option autoImplicit false

variable {σ α β γ δ : Type}

/-! ## Comparisons in one direction -/

/-- If the direction is forward, a computation within a tick ends with a result where another one does, else the other
way round; if both do, the results are related. -/
def Outcome.Echoes (forward : Prop) (Q : α → β → Tick σ → Prop) : Option α → Outcome σ β → Prop
  | some a, .ok b t => Q a b t
  | some _, _ => ¬ forward
  | none, .ok _ _ => forward
  | none, _ => True

namespace Outcome.Echoes

variable {forward : Prop} {P : α → β → Tick σ → Prop} {Q : γ → δ → Tick σ → Prop}

theorem mono {Q' : γ → δ → Tick σ → Prop} {x : Option γ} {o : Outcome σ δ} (h : Echoes forward Q x o)
    (hq : ∀ a b t, Q a b t → Q' a b t) : Echoes forward Q' x o := by
  cases x <;> cases o <;> first | exact hq _ _ _ h | exact h

theorem bind {x : Option α} {m : TickM σ β} {c : Activation} {t : Tick σ} {f : α → Option γ} {g : β → TickM σ δ}
    (h : Echoes forward P x (m c t)) (hf : ∀ a b u, P a b u → Echoes forward Q (f a) (g b c u)) :
    Echoes forward Q (x >>= f) ((m >>= g) c t) := by
  rw [TickM.bind_apply]
  cases x with
  | some a =>
    cases ho : m c t with
    | ok b u =>
      rw [ho] at h
      exact hf a b u h
    | failed _ _ =>
      rw [ho] at h
      change Echoes forward Q (f a) _
      cases f a <;> first | exact h | trivial
    | halted _ =>
      rw [ho] at h
      change Echoes forward Q (f a) _
      cases f a <;> first | exact h | trivial
  | none =>
    cases ho : m c t with
    | ok b u =>
      rw [ho] at h
      change Echoes forward Q none (g b c u)
      cases g b c u <;> first | exact h | trivial
    | failed _ _ => trivial
    | halted _ => trivial

theorem andThen {x : Option α} {m : TickM σ β} {c : Activation} {t : Tick σ} {g : β → TickM σ δ}
    {S : α → δ → Tick σ → Prop} (h : Echoes forward P x (m c t)) (hg : ∀ a b u, P a b u → (g b c u).Gives (S a)) :
    Echoes forward S x ((m >>= g) c t) := by
  rw [← bind_pure x]
  refine h.bind fun a b u hp => ?_
  obtain ⟨d, v, hv, hs⟩ := (hg a b u hp).exists
  rw [hv]
  exact hs

theorem of_none {o : Outcome σ δ} (h : forward) : Echoes forward Q none o := by
  cases o
  · exact h
  · trivial
  · trivial

theorem of_halted {x : Option γ} {halt : Halt} (h : ¬ forward) : Echoes forward Q x (.halted halt) := by
  cases x
  · trivial
  · exact h

/-- A node that has its frame ends a run where its behavior ends. -/
theorem runFramed {e : Engine σ} {n : Node} {resumed : Bool} {c : Activation} {t : Tick σ} {x : Option α}
    {S : α → Status → Tick σ → Prop}
    (h : Echoes forward S x (e.behave n.toSite n.behavior c (t.opened c n resumed)))
    (hs : ∀ a s v, S a s v → v.Settled c n s) :
    Echoes forward (fun a s u => ∃ v, S a s v ∧ t.Closes c n v s u) x (e.runFramed n resumed c t) := by
  cases ho : e.behave n.toSite n.behavior c (t.opened c n resumed) with
  | ok s v =>
    rw [ho] at h
    cases x with
    | some a =>
      have hgives : (e.runFramed n resumed c t).Gives fun s u => ∃ v, S a s v ∧ t.Closes c n v s u := by
        refine Engine.gives_runFramed ?_
        rw [ho]
        exact ⟨hs a s v h, fun u hu => ⟨v, h, hu⟩⟩
      obtain ⟨s', u, hu, hq⟩ := hgives.exists
      rw [hu]
      exact hq
    | none => exact .of_none h
  | failed error v =>
    rw [ho] at h
    rw [Engine.runFramed_eq, TickM.bind_apply, TickM.attempt_apply, ho]
    cases x
    · trivial
    · exact h
  | halted halt =>
    rw [ho] at h
    rw [Engine.runFramed_eq, TickM.bind_apply, TickM.attempt_apply, ho]
    cases x
    · trivial
    · exact h

theorem forward_ok {x : Option α} {o : Outcome σ β} (h : Echoes True P x o) {a : α} (hx : x = some a) :
    ∃ b t, o = .ok b t ∧ P a b t := by
  subst hx
  cases o with
  | ok b t => exact ⟨b, t, rfl, h⟩
  | failed _ _ => exact absurd trivial h
  | halted _ => exact absurd trivial h

theorem backward_some {x : Option α} {o : Outcome σ β} (h : Echoes False P x o) {b : β} {t : Tick σ}
    (ho : o = .ok b t) : ∃ a, x = some a ∧ P a b t := by
  subst ho
  cases x with
  | some a => exact ⟨a, rfl, h⟩
  | none => exact h.elim

end Outcome.Echoes

/-! ## Parts of a tree -/

namespace Tree

def Reads (t : Tree) (name : String) : Prop := ∃ id n, t.get? id = some n ∧ n.Reads name

def Sets (t : Tree) (name : String) : Prop := ∃ id n, t.get? id = some n ∧ n.Sets name

/-- A tree stands in another below its root, and keeps to itself: its nodes reach for nothing beyond their ticks, and
leave the trace to the labels. -/
structure PartOf (u t : Tree) : Prop where
  get {id : NodeId} {n : Node} : u.get? id = some n → t.get? id = some n
  below : ¬ u.Holds t.root
  behavior {id : NodeId} {n : Node} : u.get? id = some n → n.behavior.Local
  reads : ¬ u.Reads "trace"
  sets : ¬ u.Sets "trace"

/-- Two parts have no node in common, and share no variable. -/
structure Apart (u v : Tree) : Prop where
  nodes {id : NodeId} : u.Holds id → ¬ v.Holds id
  reads {name : String} : u.Reads name → ¬ v.Sets name
  sets {name : String} : u.Sets name → ¬ v.Reads name

theorem Apart.symm {u v : Tree} (h : u.Apart v) : v.Apart u :=
  ⟨fun hv hu => h.nodes hu hv, fun hv hu => h.sets hu hv, fun hv hu => h.reads hu hv⟩

end Tree

/-- Two states are alike in what a tree has to do with. -/
structure Env.Matches (u : Tree) (env env' : Env) : Prop where
  temps {id : NodeId} : u.Holds id → env'.temps[id]? = env.temps[id]?
  privates {key : PrivateKey} : u.Holds key.node → env'.privates[key]? = env.privates[key]?
  vars {name : String} : u.Reads name → env'.vars[name]? = env.vars[name]?
  trace : Workbench.isTrace env'.vars["trace"]? = Workbench.isTrace env.vars["trace"]?

/-- What happens in a tick that concerns certain nodes and variables only. -/
structure Tick.Extends (owner : Tag) (nodes : NodeId → Prop) (names : String → Prop) (labels : List Value)
    (calls : List NodeId) (t t' : Tick σ) : Prop where
  stack : t'.env.stack = t.env.stack
  slots : t'.env.slots = t.env.slots
  temps {id : NodeId} : ¬ nodes id → t'.env.temps[id]? = t.env.temps[id]?
  privates {key : PrivateKey} : ¬ nodes key.node → t'.env.privates[key]? = t.env.privates[key]?
  vars {name : String} : ¬ names name → name ≠ "trace" → t'.env.vars[name]? = t.env.vars[name]?
  labels : Workbench.labels t'.env.vars["trace"]? = Workbench.labels t.env.vars["trace"]? ++ labels
  trace : Workbench.isTrace t'.env.vars["trace"]? = Workbench.isTrace t.env.vars["trace"]?
  world : ∃ journal, t'.world = { t.world with journal }
  calls : t'.world.calls owner = t.world.calls owner ++ calls

namespace Tick.Extends

variable {owner : Tag} {nodes nodes' : NodeId → Prop} {names names' : String → Prop} {labels labels' : List Value}
  {calls calls' : List NodeId} {t t' t'' : Tick σ}

theorem refl (owner : Tag) (nodes : NodeId → Prop) (names : String → Prop) (t : Tick σ) :
    t.Extends owner nodes names [] [] t :=
  ⟨rfl, rfl, fun _ => rfl, fun _ => rfl, fun _ _ => rfl, (List.append_nil _).symm, rfl, ⟨_, rfl⟩,
    (List.append_nil _).symm⟩

theorem mono (h : t.Extends owner nodes names labels calls t') (hn : ∀ id, nodes id → nodes' id)
    (hs : ∀ name, names name → names' name) : t.Extends owner nodes' names' labels calls t' :=
  ⟨h.stack, h.slots, fun hid => h.temps fun hx => hid (hn _ hx), fun hid => h.privates fun hx => hid (hn _ hx),
    fun hname => h.vars fun hx => hname (hs _ hx), h.labels, h.trace, h.world, h.calls⟩

theorem trans (h : t.Extends owner nodes names labels calls t') (h' : t'.Extends owner nodes names labels' calls' t'') :
    t.Extends owner nodes names (labels ++ labels') (calls ++ calls') t'' := by
  refine ⟨h'.stack.trans h.stack, h'.slots.trans h.slots, fun hid => (h'.temps hid).trans (h.temps hid),
    fun hid => (h'.privates hid).trans (h.privates hid), fun hn ht => (h'.vars hn ht).trans (h.vars hn ht), ?_,
    h'.trace.trans h.trace, ?_, ?_⟩
  · rw [h'.labels, h.labels, List.append_assoc]
  · obtain ⟨_, hw⟩ := h.world
    obtain ⟨_, hw'⟩ := h'.world
    exact ⟨_, by rw [hw', hw]⟩
  · rw [h'.calls, h.calls, List.append_assoc]

theorem matches_of_apart {u : Tree} {env : Env} (h : t.Extends owner nodes names labels calls t')
    (hm : env.Matches u t.env) (hu : ¬ u.Reads "trace") (hn : ∀ id, u.Holds id → ¬ nodes id)
    (hs : ∀ name, u.Reads name → ¬ names name) : env.Matches u t'.env :=
  ⟨fun hid => (h.temps (hn _ hid)).trans (hm.temps hid), fun hid => (h.privates (hn _ hid)).trans (hm.privates hid),
    fun hr => (h.vars (hs _ hr) fun he => hu (he ▸ hr)).trans (hm.vars hr), h.trace.trans hm.trace⟩

end Tick.Extends

/-! ## A branch and its runner -/

/-- A runner of a part, and the larger tree whose tick has come to that part. -/
structure Runner.Beside (R : Rules σ) (u : Tree) (env : Env) (r : Runner σ) (c : Activation) (t : Tick σ) : Prop where
  kept : r.Kept R u env
  swap : R.swap = false
  part : u.PartOf c.tree
  alike : env.Matches u t.env
  base {x : NodeId} : x ∈ t.env.stack.frames → ¬ u.Holds x
  time : t.world.time = r.world.time
  calm : (t.world.instanceOf c.owner).interrupted = false

structure Runner.Stepped (R : Rules σ) (u : Tree) (r : Runner σ) (c : Activation) (t : Tick σ) (sight : Sight)
    (r' : Runner σ) (left : Stack) (t' : Tick σ) : Prop where
  kept : ∃ env, r'.Kept R u env ∧ env.stack = left ∧ env.Matches u t'.env
  running : sight.status = .running ↔ left ≠ ∅
  time : r'.world.time = r.world.time
  touched : t.Extends c.owner u.Holds u.Sets sight.labels sight.calls t'

namespace Runner.Stepped

variable {R : Rules σ} {u : Tree} {r r' : Runner σ} {c : Activation} {t t' : Tick σ} {sight : Sight} {left : Stack}
  (h : r.Stepped R u c t sight r' left t')
include h

theorem tree_eq : r'.tree = u := by
  obtain ⟨env, hkept, -⟩ := h.kept
  exact hkept.tree_eq

theorem saved_eq : r'.saved = if sight.status = .running then some left else none := by
  obtain ⟨env, hkept, rfl, -⟩ := h.kept
  rw [saved, hkept.env_eq]
  by_cases hr : sight.status = .running
  · rw [if_pos hr, if_neg fun he => h.running.mp hr (Stack.isEmpty_iff.mp he)]
  · rw [if_neg hr, if_pos (Stack.isEmpty_iff.mpr (not_not.mp fun hne => hr (h.running.mpr hne)))]

end Runner.Stepped

/-- The frames above the base are cut off; a node that has ended has left none. -/
theorem TickM.capture_eq {c : Activation} {status : Status} {base : Stack} {above : List NodeId} {t : Tick σ}
    (hstack : t.env.stack = base ++ ⟨above⟩) (hended : status ≠ .running → above = []) :
    TickM.capture status base.size c t = .ok ⟨above⟩ { t with env := { t.env with stack := base } } := by
  have hnone : status ≠ .running → t.env.stack = base ∧ above = [] := fun hne => by
    obtain rfl := hended hne
    exact ⟨hstack, rfl⟩
  cases status with
  | running =>
    simp only [TickM.capture, TickM.bind_apply, TickM.env, TickM.modifyEnv, TickM.pure_apply, hstack,
      Stack.splitAt_append]
  | success =>
    obtain ⟨rfl, rfl⟩ := hnone (by decide)
    rfl
  | failure =>
    obtain ⟨rfl, rfl⟩ := hnone (by decide)
    rfl

namespace Runner.Beside

variable {R : Rules σ} {u : Tree} {env : Env} {r : Runner σ} {c : Activation} {t : Tick σ} {forward : Prop}

def twin (u : Tree) (env : Env) (r : Runner σ) (c : Activation) (t : Tick σ) (forward : Prop) : Twin σ where
  nodes := u.Holds
  alone := ⟨r.owner, u⟩
  joined := c
  base := []
  base' := t.env.stack.frames
  start := r.start env
  start' := t
  early := forward
  late := ¬ forward

variable (h : r.Beside R u env c t)
include h

theorem has {id : NodeId} {n : Node} (hn : u.get? id = some n) :
    n.id = id ∧ (twin u env r c t forward).Has n := by
  obtain rfl := h.kept.orderly.id_eq hn
  exact ⟨rfl, ⟨n, hn⟩, hn, h.part.get hn, fun hc => h.kept.orderly.child hn hc, h.part.behavior hn,
    fun hr => h.part.reads ⟨_, n, hn, hr⟩, fun hs => h.part.sets ⟨_, n, hn, hs⟩⟩

theorem fits : (twin u env r c t forward).Fits := by
  refine ⟨fun hid => ?_, (fun hx => nomatch hx), h.base, ?_, h.kept.calm, h.calm⟩
  · obtain ⟨n, hn⟩ := hid
    exact ⟨n, h.has hn⟩
  · exact h.time.trans (World.around_entered (o := r.owner) r.world).time.symm

/-- Nothing has been done yet; in the larger tree, the frames that the runner has may have been put back. -/
theorem ready {frames : List NodeId} (hf : frames = env.stack.frames) :
    (twin u env r c t forward).Ready (fun _ slots => slots = t.env.slots) (r.start env)
      { t with env := { t.env with stack := ⟨frames ++ t.env.stack.frames⟩ } } := by
  have hlocal : ∀ x n, u.get? x = some n → n.behavior.Local := fun _ _ hn => h.part.behavior hn
  refine ⟨⟨⟨frames, fun x hx => ?_, ?_, rfl⟩, ?_, ?_, ?_, rfl, ?_⟩, .inr fun x p _ hp => ?_⟩
  · exact h.kept.frames h.swap (hf ▸ hx)
  · exact hf.symm.trans (List.append_nil _).symm
  · exact ⟨h.alike.temps, fun _ hp hy => h.kept.nested h.swap hp hy, fun _ => rfl⟩
  · refine ⟨fun hr => ?_, ⟨[], rfl, rfl⟩, fun _ _ => rfl⟩
    obtain ⟨n, hn, hr⟩ := hr
    exact h.alike.vars ⟨n.id, n, hn.alone, hr⟩
  · exact ⟨h.alike.privates, fun _ => rfl⟩
  · exact ⟨⟨_, rfl⟩, ⟨_, rfl⟩, [], (List.append_nil _).symm, (List.append_nil _).symm⟩
  · exact h.kept.waits h.swap hlocal hp

/-- The runner and the branch have done the same, and the frames of the branch are cut off. -/
theorem stepped {depth : Nat} {status : Status} {v v' : Tick σ}
    (hm : step depth u env ⟨r.owner, u⟩ (r.start env) = .ok status v)
    (hdone : (twin u env r c t forward).Done (fun _ slots => slots = t.env.slots) status v v') :
    ∃ sight r' left t', (machine depth).tick r = some (sight, r') ∧ sight.status = status ∧
      TickM.capture status t.env.stack.size c v' = .ok left t' ∧ r.Stepped R u c t sight r' left t' := by
  obtain ⟨hrunning, r', -, hkept, htime, htick⟩ := h.kept.tick h.swap hm hdone.world.alone hdone.alone
  obtain ⟨above, -, hframes, hframes'⟩ := hdone.stack
  have hstack : v.env.stack = ⟨above⟩ := congrArg Stack.mk (hframes.trans (List.append_nil _))
  have hstack' : v'.env.stack = t.env.stack ++ ⟨above⟩ := congrArg Stack.mk hframes'
  have hended : status ≠ .running → above = [] := fun hne =>
    congrArg Stack.frames (hstack.symm.trans (not_not.mp fun hs => hne (hrunning.mpr hs)))
  obtain ⟨labels, hlabels, hlabels'⟩ := hdone.vars.trace
  obtain ⟨ids, hids, hids'⟩ := hdone.world.calls
  have hsame : Workbench.isTrace t.env.vars["trace"]? = Workbench.isTrace env.vars["trace"]? := h.alike.trace
  have hseen : (Workbench.labels v.env.vars["trace"]?).drop r.labels.length =
      if Workbench.isTrace env.vars["trace"]? then labels else [] := by
    rw [hlabels, Workbench.labels_extendBy, h.kept.labels_eq]
    exact List.drop_left
  have hcalled : (v.world.calls r.owner).drop r.calls.length = ids := by
    rw [show v.world.calls r.owner = (r.start env).world.calls r.owner ++ ids from hids,
      show (r.start env).world.calls r.owner = r.calls from (World.around_entered r.world).calls]
    exact List.drop_left
  refine ⟨_, r', ⟨above⟩, _, htick, rfl, TickM.capture_eq hstack' hended, ⟨v.env, hkept, hstack, ?_⟩, ?_, htime, ?_⟩
  · refine ⟨hdone.temps.same, hdone.privates.same, fun hr => hdone.vars.read ?_, ?_⟩
    · obtain ⟨id, n, hn, hr⟩ := hr
      exact ⟨n, (h.has hn).2, hr⟩
    · change Workbench.isTrace v'.env.vars["trace"]? = Workbench.isTrace v.env.vars["trace"]?
      rw [hlabels, hlabels', Workbench.isTrace_extendBy, Workbench.isTrace_extendBy]
      exact hsame
  · rw [hrunning, hstack]
  · refine ⟨rfl, hdone.slots, fun hid => hdone.temps.others hid, fun hid => hdone.privates.others hid,
      fun hn => hdone.vars.others ?_, ?_, ?_, hdone.world.joined, ?_⟩
    · rintro ⟨n, hhas, hs⟩
      exact hn ⟨n.id, n, hhas.alone, hs⟩
    · change Workbench.labels v'.env.vars["trace"]? = _ ++ _
      rw [hseen, ← hsame, hlabels', Workbench.labels_extendBy]
      rfl
    · change Workbench.isTrace v'.env.vars["trace"]? = _
      rw [hlabels', Workbench.isTrace_extendBy]
      rfl
    · change v'.world.calls c.owner = _ ++ _
      rw [hcalled]
      exact hids'

theorem not_stale {depth : Nat} {error : RunError} {v : Tick σ}
    (hm : step depth u env ⟨r.owner, u⟩ (r.start env) = .failed error v) :
    ¬ (twin u env r c t forward).Stale error := by
  have hticked := h.kept.ticked depth
  rw [hm] at hticked
  rintro ⟨n, hn, hb, he⟩
  have hblames : u.Blames error := hticked.blames rfl h.swap
  cases hblames with
  | guard hget hb' =>
    obtain ⟨-, -, hid, -⟩ := RunError.unexpectedStatus.inj he
    obtain rfl := h.kept.orderly.id_eq hget
    obtain rfl := Option.some.inj (hget.symm.trans (hid ▸ hn))
    exact hb hb'
  | misplaced => cases he
  | rejected => cases he

/-- A branch that has been stepped, by a computation that ends like the tick of its runner. -/
theorem echoes {depth : Nat} {m : TickM σ Status} {s : Tick σ}
    (hm : (twin u env r c t forward).EndAlike
      ((twin u env r c t forward).Done fun _ slots => slots = t.env.slots)
      (step depth u env ⟨r.owner, u⟩ (r.start env)) (m c s)) :
    Outcome.Echoes forward (fun ticked stepped u' => stepped.1 = ticked.1.status ∧
        r.Stepped R u c t ticked.1 ticked.2 stepped.2 u')
      ((machine depth).tick r)
      ((do let status ← m; return (status, ← TickM.capture status t.env.stack.size) : TickM σ (Status × Stack)) c s) := by
  rw [TickM.bind_apply]
  cases hstep : step depth u env ⟨r.owner, u⟩ (r.start env) with
  | ok status v =>
    rw [hstep] at hm
    cases ho : m c s with
    | ok status' v' =>
      rw [ho] at hm
      obtain ⟨rfl, hdone⟩ := hm
      obtain ⟨sight, r', left, t'', htick, rfl, hcapture, hstepped⟩ := h.stepped hstep hdone
      simp only [htick, TickM.bind_apply, hcapture, TickM.pure_apply]
      exact ⟨rfl, hstepped⟩
    | failed _ _ =>
      rw [ho] at hm
      exact hm.elim
    | halted _ =>
      rw [ho] at hm
      exact .of_halted hm
  | failed error v =>
    rw [hstep] at hm
    rw [h.kept.tick_of_failed hstep]
    cases ho : m c s with
    | ok status' v' =>
      rw [ho] at hm
      exact absurd hm (h.not_stale hstep)
    | failed _ _ => trivial
    | halted _ => trivial
  | halted halt =>
    rw [hstep] at hm
    rw [h.kept.tick_of_halted hstep]
    cases ho : m c s with
    | ok status' v' =>
      rw [ho] at hm
      exact .of_none hm
    | failed _ _ => trivial
    | halted _ => trivial

/-- A branch does what its runner does, afresh if the runner has come to an end, else from the frames that it has. -/
theorem stepBranch {depth depth' : Nat} (hd : depth ≤ depth' ∧ forward ∨ depth' ≤ depth ∧ ¬ forward) :
    Outcome.Echoes forward (fun ticked stepped u' => stepped.1 = ticked.1.status ∧
        r.Stepped R u c t ticked.1 ticked.2 stepped.2 u')
      ((machine depth).tick r)
      ((Engine.ofDepth depth').stepBranch u.root (if env.stack.isEmpty then none else some env.stack) c t) := by
  have hfits : (twin u env r c t forward).Fits := h.fits
  have he := Engine.paired_ofDepth hfits hd
  cases hempty : env.stack.isEmpty with
  | true =>
    have hnil : env.stack.frames = [] := List.isEmpty_iff.mp hempty
    refine h.echoes (m := (Engine.ofDepth depth').run u.root) (s := t) ?_
    rw [step, hempty]
    exact he.run h.kept.orderly.rooted (h.ready hnil.symm)
  | false =>
    have hne : env.stack.frames ≠ [] := fun hnil => by
      rw [Stack.isEmpty, hnil] at hempty
      cases hempty
    refine h.echoes (m := (Engine.ofDepth depth').resume t.env.stack.size)
      (s := { t with env := { t.env with stack := t.env.stack ++ env.stack } }) ?_
    rw [step, hempty]
    exact he.resume ⟨0, rfl, rfl⟩ (h.ready rfl) (.inr (List.length_pos_iff.mpr hne))

end Runner.Beside

end BehaviorTree
