import BehaviorTree.Proofs.Engine.Slots
import BehaviorTree.Proofs.Variants.Worlds

/-!
Computations of ticks of two variants of a tree, side by side. On the frames that each of the two stands on they leave
the same frames of the part in common, and none once they have ended; what the other nodes have saved stays as it is.
-/

namespace BehaviorTree
set_option autoImplicit false

variable {σ α β γ : Type}

theorem Env.SameSlots.input? {env env' : Env} (h : env.SameSlots env') (slot : Nat) : env'.input? slot = env.input? slot := by
  unfold Env.input?
  rw [h.input]

def Outcome.ends (o : Outcome σ α) (f : α → Tick σ → Outcome σ β) (k : RunError → Tick σ → Outcome σ β) : Outcome σ β :=
  match o with
  | .ok a t => f a t
  | .failed r t => k r t
  | .halted h => .halted h

theorem TickM.bind_ends (m : TickM σ α) (f : α → TickM σ β) (c : Activation) (t : Tick σ) :
    (m >>= f) c t = (m c t).ends (fun a u => f a c u) .failed := rfl

theorem TickM.attempt_ends (m : TickM σ α) (f : Except RunError α → TickM σ β) (c : Activation) (t : Tick σ) :
    (attempt m >>= f) c t = (m c t).ends (fun a u => f (.ok a) c u) fun r u => f (.error r) c u := by
  rw [bind_apply, attempt_apply]
  cases m c t <;> rfl

namespace Variants

variable (V : Variants)

def Beside (Q : α → β → Tick σ → Tick σ → Prop) (E : Tick σ → Tick σ → Prop) : Outcome σ α → Outcome σ β → Prop
  | .ok a t, .ok b t' => Q a b t t'
  | .failed _ t, .failed _ t' => E t t'
  | .halted _, .halted _ => True
  | .halted _, .ok _ _ | .halted _, .failed _ _ => V.early
  | .ok _ _, .halted _ | .failed _ _, .halted _ => V.late
  | .ok _ _, .failed _ _ | .failed _ _, .ok _ _ => False

/-- Two ticks on some frames, with slot values of their own. -/
structure Ticks (G : Ground) (frames frames' : List NodeId) (t t' : Tick σ) : Prop where
  env : V.Envs G frames frames' t.env t'.env
  world : V.Worlds V.Rests t.world t'.world

/-- Two ticks that have failed above some frames. -/
def Fails (G : Ground) (frames frames' : List NodeId) (t t' : Tick σ) : Prop :=
  ∃ above, (∀ x ∈ above, V.shared x) ∧ V.Ticks G (above ++ frames) (above ++ frames') t t'

/-- Two computations that start with some frames on top give the same, on frames as described. -/
def Calls (G : Ground) (above base base' : List NodeId) (m m' : TickM σ α)
    (P : α → List NodeId → List NodeId → Prop) : Prop :=
  ∀ t t', V.Ticks G (above ++ base) (above ++ base') t t' →
    V.Beside (fun a a' u u' => a = a' ∧ ∃ left left', P a left left' ∧ V.Ticks G left left' u u')
      (V.Fails G base base') (m V.here t) (m' V.there t')

/-- Two computations for nodes with the same slot values give the same, with some frames on top of those that they start
on. -/
def Goes (G : Ground) (frames frames' : List NodeId) (m m' : TickM σ α) (P : α → List NodeId → Prop) : Prop :=
  ∀ t t', V.Ticks G frames frames' t t' → t.env.SameSlots t'.env →
    V.Beside (fun a a' u u' => a = a' ∧ u.env.SameSlots u'.env ∧
        ∃ above, P a above ∧ V.Ticks G (above ++ frames) (above ++ frames') u u')
      (fun u u' => V.Fails G frames frames' u u' ∧ u.env.SameSlots u'.env) (m V.here t) (m' V.there t')

def Stills (m m' : TickM σ α) : Prop := ∀ G frames frames', V.Goes G frames frames' m m' fun _ above => above = []

/-- Only nodes of some kind have new frames, and none has unless something is running. -/
def Tops (B : NodeId → Prop) (busy : α → Prop) (a : α) (above : List NodeId) : Prop :=
  (∀ x ∈ above, B x) ∧ (¬ busy a → above = [])

/-- Frames of the two variants on which a node may be run: nothing below the node is on top, and if a node in common is
on top then it is in both. -/
structure Level (id : NodeId) (frames frames' : List NodeId) : Prop where
  heads {x : NodeId} : V.shared x → (frames.head? = some x ↔ frames'.head? = some x)
  floor {x : NodeId} : frames.head? = some x → ¬ V.tree.Below id x

/-- A node that is running has frames below it left; one that has ended has none, and its own is gone if it was on
top. -/
def Ends (id : NodeId) (frames frames' : List NodeId) (status : Status) (left left' : List NodeId) : Prop :=
  (status = .running → ∃ above, (∀ x ∈ above, V.tree.Region id x) ∧ left = above ++ frames ∧ left' = above ++ frames') ∧
    (status ≠ .running → left = frames ∧ left' = frames' ∨ frames = id :: left ∧ frames' = id :: left')

/-- What two variants have in common is there in both, in the first of which everything is in order. -/
structure Fits : Prop where
  orderly : V.tree.Orderly
  there {id : NodeId} : V.shared id → ∃ n, V.tree.get? id = some n ∧ V.tree'.get? id = some n
  child {id c : NodeId} {n : Node} : V.shared id → V.tree.get? id = some n → c ∈ n.children → V.shared c
  factor : 1 ≤ V.factor
  /-- What is suspended of the other nodes is none of the part in common. -/
  apart {G : Ground} {base base' : List NodeId} {x : NodeId} : V.stands G base base' → x ∈ base ∨ x ∈ base' → ¬ V.shared x
  level {G : Ground} {base base' : List NodeId} : V.stands G base base' → (base = [] ↔ base' = [])
  bare : V.stands ⟨∅, ∅⟩ [] []

structure Has (n : Node) : Prop where
  shared : V.shared n.id
  here : V.tree.get? n.id = some n
  there : V.tree'.get? n.id = some n

variable {V} {G : Ground} {frames frames' left left' above : List NodeId} {m m' : TickM σ α} {n : Node} {id k x : NodeId}
  {f f' : α → TickM σ β} {P : α → List NodeId → Prop} {Q : β → List NodeId → Prop} {t t' u u' : Tick σ} {env env' : Env}
  {B : NodeId → Prop}

namespace Fits

variable (hV : V.Fits)
include hV

theorem has (hid : V.shared id) : ∃ n, n.id = id ∧ V.Has n := by
  obtain ⟨n, hn, hn'⟩ := hV.there hid
  obtain rfl := hV.orderly.id_eq hn
  exact ⟨n, rfl, hid, hn, hn'⟩

theorem shared_child (hn : V.Has n) (hk : k ∈ n.children) : V.shared k := hV.child hn.shared hn.here hk

theorem starts (hs : V.tree.Starts id k) (hid : V.shared id) : V.shared k := by
  obtain ⟨p, m, hm, hk, ⟨rfl, -⟩ | ⟨n, hn, -, hp⟩⟩ := hs.parent
  · exact hV.child hid hm hk
  · exact hV.child (hV.child hid hn hp) hm hk

theorem region (hr : V.tree.Region id x) (hid : V.shared id) : V.shared x := by
  induction hr with
  | refl => exact hid
  | tail _ hs ih => exact hV.starts hs ih

theorem below (hb : V.tree.Below id x) (hid : V.shared id) : V.shared x := hV.region hb.region hid

theorem not_below_self (id : NodeId) : ¬ V.tree.Below id id := fun hb => hV.orderly.not_region_of_below hb (.refl id)

end Fits

namespace Beside

variable {R : α → β → Tick σ → Tick σ → Prop} {E E' : Tick σ → Tick σ → Prop}

theorem early {h : Halt} {o' : Outcome σ β} (he : V.early) : V.Beside R E (.halted h) o' := by
  cases o' with
  | ok => exact he
  | failed => exact he
  | halted => trivial

theorem late {h : Halt} {o : Outcome σ α} (hl : V.late) : V.Beside R E o (.halted h) := by
  cases o with
  | ok => exact hl
  | failed => exact hl
  | halted => trivial

theorem mono {R' : α → β → Tick σ → Tick σ → Prop} {o : Outcome σ α} {o' : Outcome σ β} (h : V.Beside R E o o')
    (hr : ∀ a b u u', o = .ok a u → o' = .ok b u' → R a b u u' → R' a b u u') (he : ∀ u u', E u u' → E' u u') :
    V.Beside R' E' o o' := by
  cases o <;> cases o'
  case ok.ok => exact hr _ _ _ _ rfl rfl h
  case failed.failed => exact he _ _ h
  all_goals exact h

theorem ends {o : Outcome σ α} {o' : Outcome σ β} {γ' : Type} {S : γ → γ' → Tick σ → Tick σ → Prop}
    {f : α → Tick σ → Outcome σ γ} {f' : β → Tick σ → Outcome σ γ'} {k : RunError → Tick σ → Outcome σ γ}
    {k' : RunError → Tick σ → Outcome σ γ'} (h : V.Beside R E o o')
    (hf : ∀ a b u u', R a b u u' → V.Beside S E' (f a u) (f' b u'))
    (hk : ∀ r r' u u', E u u' → V.Beside S E' (k r u) (k' r' u')) : V.Beside S E' (o.ends f k) (o'.ends f' k') := by
  cases o with
  | ok a u =>
    cases o' with
    | ok b u' => exact hf a b u u' h
    | failed _ _ => exact h.elim
    | halted _ => exact late h
  | failed r u =>
    cases o' with
    | ok b u' => exact h.elim
    | failed r' u' => exact hk r r' u u' h
    | halted _ => exact late h
  | halted r =>
    cases o' with
    | ok b u' => exact early h
    | failed e u' => exact early h
    | halted _ => trivial

theorem bind {f : α → TickM σ γ} {f' : β → TickM σ γ} {m : TickM σ α} {m' : TickM σ β} {c c' : Activation}
    {S : γ → γ → Tick σ → Tick σ → Prop} (h : V.Beside R E (m c t) (m' c' t')) (he : ∀ u u', E u u' → E' u u')
    (hf : ∀ a b u u', R a b u u' → V.Beside S E' (f a c u) (f' b c' u')) :
    V.Beside S E' ((m >>= f) c t) ((m' >>= f') c' t') := by
  rw [TickM.bind_ends, TickM.bind_ends]
  exact h.ends hf fun _ _ => he

end Beside

/-! ### States and ticks -/

namespace Envs

variable (h : V.Envs G frames frames' env env')
include h

theorem lastStatus : env'.lastStatus = env.lastStatus := by
  obtain ⟨_, _, _, rfl⟩ := h.same
  rfl

theorem get? : env'.get? = env.get? := by
  obtain ⟨_, _, _, rfl⟩ := h.same
  rfl

theorem getPrivate? : env'.getPrivate? = env.getPrivate? := by
  obtain ⟨_, _, _, rfl⟩ := h.same
  rfl

theorem listening : env'.listening = env.listening := by
  obtain ⟨_, _, _, rfl⟩ := h.same
  rfl

theorem detached : env'.detached = env.detached := by
  obtain ⟨_, _, _, rfl⟩ := h.same
  rfl

theorem stack' : env'.stack = ⟨frames'⟩ := by
  obtain ⟨_, _, _, rfl⟩ := h.same
  rfl

theorem isSuspended (hid : V.shared id) : env'.isSuspended id = env.isSuspended id := by
  rw [Env.isSuspended_eq, Env.isSuspended_eq, h.payloads.same hid]

theorem eq_of_slots (hs : env.SameSlots env') : ∃ temps, env' = { env with stack := ⟨frames'⟩, temps } := by
  obtain ⟨temps, input, output, rfl⟩ := h.same
  obtain rfl : input = env.input := hs.input
  obtain rfl : output = env.output := hs.output
  exact ⟨temps, rfl⟩

/-- Something changes that is neither a frame nor a payload nor parked. -/
theorem edit (g g' : Env → Env) (hg : ∀ env stack temps input output, ∃ input' output',
      g' { env with stack, temps, input, output } = { g env with stack, temps, input := input', output := output' })
    (hstack : (g env).stack = env.stack) (htemps : (g env).temps = env.temps)
    (hdetached : (g env).detached = env.detached) : V.Envs G frames frames' (g env) (g' env') := by
  obtain ⟨temps, input, output, hsame⟩ := h.same
  obtain ⟨input', output', heq⟩ := hg env ⟨frames'⟩ temps input output
  refine ⟨hstack.trans h.stack, ⟨temps, input', output', by rw [hsame, heq]⟩, ?_, ?_⟩
  · have hp := h.payloads
    rw [hsame] at hp ⊢
    rw [heq, htemps]
    exact hp
  · rw [hdetached]
    exact h.parked

theorem setPayload {p : Payload} (hid : V.shared id) (hp : ∀ y ∈ p.nestedFrames, V.tree.Below id y) :
    V.Envs G frames frames' (env.setPayload id p) (env'.setPayload id p) := by
  obtain ⟨temps, input, output, rfl⟩ := h.same
  exact ⟨h.stack, ⟨_, input, output, rfl⟩, h.payloads.insert hid hp, h.parked⟩

theorem setStack (top top' : List NodeId) :
    V.Envs G top top' { env with stack := ⟨top⟩ } { env' with stack := ⟨top'⟩ } := by
  obtain ⟨temps, input, output, rfl⟩ := h.same
  exact ⟨rfl, ⟨_, input, output, rfl⟩, h.payloads, h.parked⟩

theorem popFrame {below below' : List NodeId} (hid : V.shared id) (hf : frames = id :: below)
    (hf' : frames' = id :: below') : V.Envs G below below' env.popFrame env'.popFrame := by
  subst hf hf'
  obtain ⟨temps, input, output, rfl⟩ := h.same
  have hpop : env.popFrame = { env with stack := ⟨below⟩, temps := env.temps.erase id } := by
    unfold Env.popFrame
    rw [h.stack]
    rfl
  rw [hpop]
  exact ⟨rfl, ⟨_, input, output, rfl⟩, h.payloads.erase hid, h.parked⟩

theorem abandon (hV : V.Fits) {s : Stack} (hs : ∀ y ∈ s.frames, V.shared y) :
    V.Envs G frames frames' (env.abandon s) (env'.abandon s) := by
  obtain ⟨temps, input, output, rfl⟩ := h.same
  exact ⟨h.stack, ⟨_, input, output, rfl⟩, h.payloads.clear hs fun _ _ hx hb => hV.below hb hx, h.parked⟩

end Envs

theorem Fails.of_append (h : V.Fails G (above ++ frames) (above ++ frames') t t') (habove : ∀ x ∈ above, V.shared x) :
    V.Fails G frames frames' t t' := by
  obtain ⟨more, hmore, ht⟩ := h
  refine ⟨more ++ above, fun x hx => ?_, by simpa only [List.append_assoc] using ht⟩
  exact (List.mem_append.mp hx).elim (hmore x) (habove x)

/-! ### Rules -/

theorem Tops.nil {busy : α → Prop} {a : α} : Tops B busy a [] := ⟨List.forall_mem_nil _, fun _ => rfl⟩

namespace Goes

theorem mono (h : V.Goes G frames frames' m m' P) {P' : α → List NodeId → Prop} (hp : ∀ a above, P a above → P' a above) :
    V.Goes G frames frames' m m' P' := by
  intro t t' ht hs
  refine (h t t' ht hs).mono ?_ fun _ _ hu => hu
  rintro a _ u u' - - ⟨rfl, hslots, above, hpa, hu⟩
  exact ⟨rfl, hslots, above, hp a above hpa, hu⟩

theorem pure {a : α} (h : P a []) : V.Goes (σ := σ) G frames frames' (pure a) (Pure.pure a) P :=
  fun _ _ ht hs => ⟨rfl, hs, [], h, ht⟩

theorem bind (h : V.Goes G frames frames' m m' P) (hshared : ∀ a above, P a above → ∀ x ∈ above, V.shared x)
    (hf : ∀ a above, P a above →
      V.Goes G (above ++ frames) (above ++ frames') (f a) (f' a) fun b more => Q b (more ++ above)) :
    V.Goes G frames frames' (m >>= f) (m' >>= f') Q := by
  intro t t' ht hs
  refine (h t t' ht hs).bind (fun _ _ hu => hu) ?_
  rintro a _ u u' ⟨rfl, hslots, above, hpa, hu⟩
  refine (hf a above hpa u u' hu hslots).mono ?_ ?_
  · rintro b _ v v' - - ⟨rfl, hslots', more, hq, hv⟩
    exact ⟨rfl, hslots', more ++ above, hq, by simpa only [List.append_assoc] using hv⟩
  · exact fun v v' hv => ⟨hv.1.of_append (hshared a above hpa), hv.2⟩

theorem flat {C : α → Prop} (h : V.Goes G frames frames' m m' fun a above => above = [] ∧ C a)
    (hf : ∀ a, C a → V.Goes G frames frames' (f a) (f' a) Q) : V.Goes G frames frames' (m >>= f) (m' >>= f') Q := by
  refine h.bind (fun _ above ha => ?_) fun a above ha => ?_
  · rw [ha.1]
    exact List.forall_mem_nil _
  · obtain ⟨rfl, ha⟩ := ha
    exact (hf a ha).mono fun b more hq => by rwa [List.append_nil]

theorem after (h : V.Stills m m') (hf : ∀ a, V.Goes G frames frames' (f a) (f' a) Q) :
    V.Goes G frames frames' (m >>= f) (m' >>= f') Q :=
  flat (C := fun _ => True) ((h G frames frames').mono fun _ _ ha => ⟨ha, trivial⟩) fun a _ => hf a

theorem fail {e e' : RunError} : V.Goes (σ := σ) G frames frames' (TickM.fail e) (TickM.fail e') P :=
  fun _ _ ht hs => ⟨⟨[], List.forall_mem_nil _, ht⟩, hs⟩

theorem halt {h h' : Halt} : V.Goes (σ := σ) G frames frames' (TickM.halt h) (TickM.halt h') P := fun _ _ _ _ => trivial

theorem ite {C : Prop} [Decidable C] {l l' : TickM σ α} (hm : C → V.Goes G frames frames' m m' P)
    (hl : ¬ C → V.Goes G frames frames' l l' P) :
    V.Goes G frames frames' (if C then m else l) (if C then m' else l') P := by
  split
  · exact hm ‹_›
  · exact hl ‹_›

theorem still {busy : α → Prop} (h : V.Stills m m') : V.Goes G frames frames' m m' (Tops B busy) :=
  (h G frames frames').mono fun _ _ ha => ha ▸ .nil

theorem onTop {a : α} {busy : α → Prop} (h : V.Stills m m') (hm : ∀ t b u, m V.here t = .ok b u → b = a) (ha : busy a)
    (habove : ∀ x ∈ above, B x) :
    V.Goes G frames frames' m m' fun b more => Tops B busy b (more ++ above) := by
  intro t t' ht hs
  refine (h G frames frames' t t' ht hs).mono ?_ fun _ _ hu => hu
  rintro b _ u u' ho - ⟨rfl, hslots, more, rfl, hu⟩
  refine ⟨rfl, hslots, [], ⟨habove, fun hnot => ?_⟩, hu⟩
  rw [hm t b u ho] at hnot
  exact absurd ha hnot

end Goes

namespace Stills

theorem pure (a : α) : V.Stills (σ := σ) (pure a) (Pure.pure a) := fun _ _ _ => .pure rfl

theorem bind (h : V.Stills m m') (hf : ∀ a, V.Stills (f a) (f' a)) : V.Stills (m >>= f) (m' >>= f') :=
  fun G frames frames' => .after h fun a => hf a G frames frames'

theorem fail {e e' : RunError} : V.Stills (σ := σ) (α := α) (TickM.fail e) (TickM.fail e') := fun _ _ _ => .fail

theorem ite {C : Prop} [Decidable C] {l l' : TickM σ α} (hm : V.Stills m m') (hl : V.Stills l l') :
    V.Stills (if C then m else l) (if C then m' else l') := by
  split
  · exact hm
  · exact hl

theorem rejectPayload {site : Site} : V.Stills (σ := σ) (α := α) (TickM.rejectPayload site) (TickM.rejectPayload site) :=
  fun _ _ _ _ _ ht hs => ⟨⟨[], List.forall_mem_nil _, ht⟩, hs⟩

theorem rejectStatus {site : Site} {status : Status} :
    V.Stills (σ := σ) (α := α) (TickM.rejectStatus site status) (TickM.rejectStatus site status) :=
  fun _ _ _ _ _ ht hs => ⟨⟨[], List.forall_mem_nil _, ht⟩, hs⟩

theorem bindEnv {f f' : Env → TickM σ α}
    (hf : ∀ {G frames frames' env env'}, V.Envs G frames frames' env env' → env.SameSlots env' → V.Stills (f env) (f' env')) :
    V.Stills (TickM.env >>= f) (TickM.env >>= f') :=
  fun G frames frames' t t' ht hs => hf ht.env hs G frames frames' t t' ht hs

theorem edit {g : Env → Env}
    (hg : ∀ env stack temps input output, g { env with stack, temps, input, output } =
      { g env with stack, temps, input, output })
    (hd : ∀ env, (g env).detached = env.detached) : V.Stills (σ := σ) (TickM.modifyEnv g) (TickM.modifyEnv g) := by
  have hself : ∀ env, g env =
      { g env with stack := env.stack, temps := env.temps, input := env.input, output := env.output } :=
    fun env => hg env env.stack env.temps env.input env.output
  have hslots : ∀ env : Env, env.SameSlots (g env) := fun env =>
    ⟨(congrArg Env.input (hself env)).trans rfl, (congrArg Env.output (hself env)).trans rfl⟩
  intro G frames frames' t t' ht hs
  have hstack : (g t.env).stack = t.env.stack := (congrArg Env.stack (hself t.env)).trans rfl
  have htemps : (g t.env).temps = t.env.temps := (congrArg Env.temps (hself t.env)).trans rfl
  refine ⟨rfl, ?_, [], rfl, ht.env.edit g g (fun env stack temps input output => ⟨input, output, hg ..⟩) hstack htemps
    (hd t.env), ht.world⟩
  exact ⟨(hslots t'.env).input.trans (hs.input.trans (hslots t.env).input.symm),
    (hslots t'.env).output.trans (hs.output.trans (hslots t.env).output.symm)⟩

theorem pushOutput (value : Option Value) : V.Stills (σ := σ) (Engine.pushOutput value) (Engine.pushOutput value) := by
  intro G frames frames' t t' ht hs
  refine ⟨rfl, ⟨hs.input, ?_⟩, [], rfl, ?_, ht.world⟩
  · exact congrArg (· ++ [value]) hs.output
  · exact ht.env.edit (·.pushOutput value) (·.pushOutput value) (fun _ _ _ _ output => ⟨_, output ++ [value], rfl⟩) rfl rfl rfl

theorem set (name : String) (value : Option Value) :
    V.Stills (σ := σ) (TickM.modifyEnv (·.set name value)) (TickM.modifyEnv (·.set name value)) :=
  edit (fun _ _ _ _ _ => rfl) fun _ => rfl

theorem setLastStatus (status : Status) :
    V.Stills (σ := σ) (TickM.modifyEnv fun env => { env with lastStatus := status })
      (TickM.modifyEnv fun env => { env with lastStatus := status }) := edit (fun _ _ _ _ _ => rfl) fun _ => rfl

theorem report (r r' : String → Report) : V.Stills (σ := σ) (TickM.report r) (TickM.report r') :=
  fun _ _ _ _ _ ht hs => ⟨rfl, hs, [], rfl, ht.env, ht.world.report _ _⟩

theorem observe (a : Activity) : V.Stills (σ := σ) (TickM.observe a) (TickM.observe a) :=
  fun _ _ _ _ _ ht hs => ⟨rfl, hs, [], rfl, ht.env, ht.world.observe _ _⟩

theorem modifyWorld {g : World σ → World σ} (hg : ∀ w w', V.Worlds V.Rests w w' → V.Worlds V.Rests (g w) (g w')) :
    V.Stills (TickM.modifyWorld g) (TickM.modifyWorld g) := fun _ _ _ _ _ ht hs => ⟨rfl, hs, [], rfl, ht.env, hg _ _ ht.world⟩

theorem time : V.Stills (σ := σ) TickM.time TickM.time := by
  intro G frames frames' t t' ht hs
  exact ⟨ht.world.time.symm, hs, [], rfl, ht⟩

theorem interrupted : V.Stills (σ := σ) TickM.interrupted TickM.interrupted := by
  intro G frames frames' t t' ht hs
  exact ⟨(ht.world.interrupted V.owner).symm, hs, [], rfl, ht⟩

theorem interrupt : V.Stills (σ := σ) TickM.interrupt TickM.interrupt := by
  intro G frames frames' t t' ht hs
  refine ⟨rfl, hs, [], rfl, ht.env, ?_⟩
  exact (ht.world.observe _ _).flag V.owner (f := fun i => { i with interrupted := true }) (fun _ _ _ => rfl)
    fun _ _ hjobs => hjobs

theorem owner : V.Stills (σ := σ) TickM.owner TickM.owner := fun _ _ _ _ _ ht hs => ⟨rfl, hs, [], rfl, ht⟩

theorem suspend (hn : V.Has n) {p : Payload} (hp : ∀ y ∈ p.nestedFrames, V.tree.Below n.id y) :
    V.Stills (σ := σ) (TickM.suspend n.toSite p) (TickM.suspend n.toSite p) :=
  fun _ _ _ _ _ ht hs => ⟨rfl, ⟨hs.input, hs.output⟩, [], rfl, ht.env.setPayload hn.shared hp, ht.world⟩

theorem suspendFlat (hn : V.Has n) {p : Payload} (hp : p.nested = []) :
    V.Stills (σ := σ) (TickM.suspend n.toSite p) (TickM.suspend n.toSite p) :=
  suspend hn (by simp [Payload.nestedFrames, hp])

theorem abandon (hV : V.Fits) {s : Stack} (hs : ∀ y ∈ s.frames, V.shared y) :
    V.Stills (σ := σ) (TickM.abandon s) (TickM.abandon s) :=
  fun _ _ _ _ _ ht hslots => ⟨rfl, ⟨hslots.input, hslots.output⟩, [], rfl, ht.env.abandon hV hs, ht.world⟩

theorem childStatus {site : Site} : V.Stills (σ := σ) (TickM.childStatus site) (TickM.childStatus site) := by
  refine bindEnv fun henv _ => ?_
  rw [henv.lastStatus]
  split
  · exact rejectStatus
  · exact pure _

theorem element {items : List α} {i : Nat} : V.Stills (σ := σ) (TickM.element items i) (TickM.element items i) := by
  intro G frames frames'
  unfold TickM.element
  split
  · exact .pure rfl
  · exact .halt

theorem forM {f f' : β → TickM σ PUnit} {xs : List β} (hf : ∀ x ∈ xs, V.Stills (f x) (f' x)) :
    V.Stills (xs.forM f) (xs.forM f') := by
  induction xs with
  | nil => exact pure _
  | cons x xs ih =>
    exact bind (hf x List.mem_cons_self) fun _ => ih fun y hy => hf y (List.mem_cons_of_mem x hy)

theorem writeSlot (name : Option String) (value : Option Value) :
    V.Stills (σ := σ) (Engine.writeSlot name value) (Engine.writeSlot name value) := by
  cases name with
  | some name => exact set name value
  | none => exact pure _

end Stills

namespace Goes

theorem bindEnv {f f' : Env → TickM σ β}
    (hf : ∀ env env', V.Envs G frames frames' env env' → env.SameSlots env' → V.Goes G frames frames' (f env) (f' env') Q) :
    V.Goes G frames frames' (TickM.env >>= f) (TickM.env >>= f') Q :=
  fun t t' ht hs => hf t.env t'.env ht.env hs t t' ht hs

/-- What a node of the part in common has saved names nodes below it. -/
theorem saved? {f f' : Option Payload → TickM σ β} (hn : V.Has n)
    (hf : ∀ saved, (∀ p, saved = some p → ∀ y ∈ p.nestedFrames, V.tree.Below n.id y) →
      V.Goes G frames frames' (f saved) (f' saved) Q) :
    V.Goes G frames frames' (TickM.saved? n.toSite >>= f) (TickM.saved? n.toSite >>= f') Q := by
  intro t t' ht hs
  have hsame : t'.env.temps[n.id]? = t.env.temps[n.id]? := ht.env.payloads.same hn.shared
  change V.Beside _ _ (f t.env.temps[n.id]? V.here t) (f' t'.env.temps[n.id]? V.there t')
  rw [hsame]
  exact hf _ (fun p hp y hy => ht.env.payloads.below hn.shared hp hy) t t' ht hs

/-- A node is only resumed once its child has ended. -/
theorem childStatus {site : Site} {f f' : Status → TickM σ β}
    (hf : ∀ status, status ≠ .running → V.Goes G frames frames' (f status) (f' status) Q) :
    V.Goes G frames frames' (TickM.childStatus site >>= f) (TickM.childStatus site >>= f') Q := by
  intro t t' ht hs
  have hsame := ht.env.lastStatus
  unfold TickM.childStatus
  rw [bind_assoc, bind_assoc]
  change V.Beside _ _ ((_ >>= f : TickM σ β) V.here t) ((_ >>= f' : TickM σ β) V.there t')
  rw [hsame]
  cases t.env.lastStatus with
  | running => exact ⟨⟨[], List.forall_mem_nil _, ht⟩, hs⟩
  | success => exact hf .success (by simp) t t' ht hs
  | failure => exact hf .failure (by simp) t t' ht hs

theorem element {items : List α} {i : Nat}
    (hf : ∀ a, items[i]? = some a → V.Goes G frames frames' (f a) (f' a) Q) :
    V.Goes G frames frames' (TickM.element items i >>= f) (TickM.element items i >>= f') Q := by
  unfold TickM.element
  cases hi : items[i]? with
  | some a => exact hf a hi
  | none => exact .halt

/-- Nodes of the part in common are the same in both variants. -/
theorem node (hV : V.Fits) {f f' : Node → TickM σ β} (hid : V.shared id)
    (hf : ∀ n, n.id = id → V.Has n → V.Goes G frames frames' (f n) (f' n) Q) :
    V.Goes G frames frames' (TickM.node id >>= f) (TickM.node id >>= f') Q := by
  obtain ⟨n, rfl, hn⟩ := hV.has hid
  intro t t' ht hs
  have hhere : V.here.tree.get? n.id = some n := hn.here
  have hthere : V.there.tree.get? n.id = some n := hn.there
  rw [TickM.bind_node hhere, TickM.bind_node hthere]
  exact hf n rfl hn t t' ht hs

theorem cut {status : Status} (habove : Tops B (· = .running) status above) :
    ∀ t t' : Tick σ, V.Ticks G (above ++ frames) (above ++ frames') t t' → t.env.SameSlots t'.env →
      V.Beside (fun a a' u u' => a = a' ∧ u.env.SameSlots u'.env ∧ (∀ y ∈ a.frames, B y) ∧ V.Ticks G frames frames' u u')
        (fun u u' => V.Fails G frames frames' u u' ∧ u.env.SameSlots u'.env) (TickM.capture status frames.length V.here t)
        (TickM.capture status frames'.length V.there t') := by
  intro t t' ht hs
  have hcut : ∀ below : List NodeId, (⟨above ++ below⟩ : Stack).splitAt below.length = (⟨below⟩, ⟨above⟩) :=
    fun below => Stack.splitAt_append ⟨below⟩ ⟨above⟩
  have hended : status ≠ .running → above = [] := habove.2
  cases status with
  | success =>
    obtain rfl := hended (by simp)
    exact ⟨rfl, hs, List.forall_mem_nil _, ht⟩
  | failure =>
    obtain rfl := hended (by simp)
    exact ⟨rfl, hs, List.forall_mem_nil _, ht⟩
  | running =>
    unfold TickM.capture
    simp only [TickM.bind_apply, TickM.env, ht.env.stack, ht.env.stack', hcut]
    exact ⟨rfl, ⟨hs.input, hs.output⟩, habove.1, ht.env.setStack _ _, ht.world⟩

end Goes

end Variants

end BehaviorTree
