import Mathlib.Logic.Function.Basic
import BehaviorTree.Engine.Knot
import BehaviorTree.Proofs.Stack.Clearing
import BehaviorTree.Proofs.World.Rules

/-!
An instance with one of two trees that have a part in common. The worlds that it lives in are otherwise the same, and
so is what is saved of the part in common; what lies below on the stack, and what the other nodes of the two trees have
saved, may differ. Hosts and other instances cannot tell which of the two trees it is.
-/

namespace BehaviorTree
set_option autoImplicit false

variable {σ : Type}

def Overview.exchange (v : Overview σ) (o : Tag) (tree : Tree) (stack : Stack) (temps : Temps) : Overview σ :=
  { v with tree := Function.update v.tree o tree, env := Function.update v.env o { v.env o with stack, temps } }

/-- A program that does not tell which tree an instance has and what is suspended in it: it neither looks at these, nor
gives the instance another tree, nor tells errors of its ticks apart. -/
def Program.Blind (o : Tag) : Program σ → Prop
  | .done => True
  | .look next => (∀ v tree stack temps, next (v.exchange o tree stack temps) = next v) ∧ ∀ v, (next v).Blind o
  | .run owner next => (owner = o → ∀ e e', next (.error e) = next (.error e')) ∧ ∀ result, (next result).Blind o
  | .setTree owner _ next => owner ≠ o ∧ ∀ result, (next result).Blind o
  | .store _ next | .note _ next | .install _ _ next | .interrupt _ next | .clear _ next | .setVar _ _ _ next
  | .drop _ next | .update _ next | .release _ next => next.Blind o
  | .load _ _ next => ∀ result, (next result).Blind o
  | .newTag next | .create _ _ next => ∀ tag, (next tag).Blind o
  | .dispatch _ _ next | .unsubscribeEvent _ _ next => ∀ count, (next count).Blind o
  | .subscribe _ _ callback next => (∀ event, (callback event).Blind o) ∧ ∀ id, (next id).Blind o
  | .unsubscribe _ next | .cancel _ next => ∀ found, (next found).Blind o
  | .delay _ _ callback next => callback.Blind o ∧ ∀ id, (next id).Blind o

/-- The payloads in two runs, as far as they lie outside of what the two have in common. -/
structure Ground where
  here : Temps
  there : Temps

/-- Two variants of the tree of an instance, with nodes in common. -/
structure Variants where
  owner : Tag
  tree : Tree
  tree' : Tree
  shared : NodeId → Bool
  /-- How the payloads and the frames of the other nodes may stand while nothing runs. -/
  stands : Ground → List NodeId → List NodeId → Prop
  /-- Whether a run of the first variant may run out of depth before one of the second. -/
  early : Prop
  late : Prop
  /-- How many calls may nest in the second variant for one in the first. -/
  factor : Nat

namespace Variants

variable (V : Variants)

def here : Activation := ⟨V.owner, V.tree⟩

def there : Activation := ⟨V.owner, V.tree'⟩

/-- Calls may be nested so deep in the first variant and in the second. -/
structure Depths (d d' : Nat) : Prop where
  early : V.early ∨ d' ≤ d
  late : V.late ∨ V.factor * d ≤ d'

/-- The same nodes of the part in common are suspended, with the same payloads. These name nodes further down. -/
structure Payloads (G : Ground) (temps temps' : Temps) : Prop where
  same {x : NodeId} : V.shared x → temps'[x]? = temps[x]?
  here {x : NodeId} : ¬ V.shared x → temps[x]? = G.here[x]?
  there {x : NodeId} : ¬ V.shared x → temps'[x]? = G.there[x]?
  below {x y : NodeId} {p : Payload} : V.shared x → temps[x]? = some p → y ∈ p.nestedFrames → V.tree.Below x y

/-- Two states that differ in frames, payloads and slot values only. -/
structure Envs (G : Ground) (frames frames' : List NodeId) (env env' : Env) : Prop where
  stack : env.stack = ⟨frames⟩
  same : ∃ temps input output, env' = { env with stack := ⟨frames'⟩, temps, input, output }
  payloads : V.Payloads G env.temps env'.temps
  parked {l y : NodeId} {s : Stack} : env.detached[l]? = some s → y ∈ s.frames → V.shared y

def Rests (env env' : Env) : Prop :=
  ∃ (G : Ground) (above base base' : List NodeId), (∀ x ∈ above, V.shared x ∧ V.tree.Region V.tree.root x) ∧
    V.stands G base base' ∧ V.Envs G (above ++ base) (above ++ base') env env'

def Takes (job : Job) : Prop :=
  V.tree.Accepts job ∧
    match job with
    | .delayed child _ => V.shared child
    | .fired listener child _ => V.shared listener ∧ V.shared child

/-- Two instances that differ in their trees, and in frames and payloads. -/
structure Instances (R : Env → Env → Prop) (i i' : Instance) : Prop where
  tree : i.tree = V.tree
  same : ∃ stack temps, i' = { i with tree := V.tree', env := { i.env with stack, temps } }
  pending : ∀ job ∈ i.pending, V.Takes job
  rests : R i.env i'.env

/-- What an entry of the journal tells does not depend on the variant. Reports do not count. -/
def shows : Entry → Bool
  | .report _ => false
  | .note _ => true
  | .activity tag a => decide (tag ≠ V.owner) || a.node?.all V.shared

def Hears : Listener σ → Prop
  | .node owner listener child => owner = V.owner → V.tree.Listens listener child ∧ V.shared listener ∧ V.shared child
  | .host react => ∀ event, (react event).Blind V.owner

def Sets : Alarm σ → Prop
  | .job owner job => owner = V.owner → V.Takes job
  | .host act => act.Blind V.owner

/-- Two worlds that differ in the tree of an instance, and in what is suspended in it. -/
structure Worlds (R : Env → Env → Prop) (w w' : World σ) : Prop where
  same : w' = { w with instances := w'.instances, journal := w'.journal }
  others {p : Tag} : p ≠ V.owner → w'.instances[p]? = w.instances[p]?
  mine : ∃ i i', w.instances[V.owner]? = some i ∧ w'.instances[V.owner]? = some i' ∧ V.Instances R i i'
  given : V.owner.index < w.nextTag
  shown : w'.journal.toList.filter V.shows = w.journal.toList.filter V.shows
  listeners {id : SubscriptionId} {e : Subscription (Listener σ)} :
    w.subscriptions.entries[id]? = some e → V.Hears e.callback
  alarms {id : DelayId} {e : PendingDelay (Alarm σ)} : w.delays.pending[id]? = some e → V.Sets e.callback

variable {V} {G : Ground} {R R' : Env → Env → Prop} {w w' : World σ} {p : Tag} {i i' : Instance} {env env' : Env}
  {temps temps' : Temps} {frames frames' : List NodeId} {d d' k : Nat}

namespace Depths

theorem pred (hf : 1 ≤ V.factor) (h : V.Depths (d + 1) (d' + 1)) : V.Depths d d' := by
  refine ⟨h.early.imp_right fun he => by omega, h.late.imp_right fun hl => ?_⟩
  rw [Nat.mul_succ] at hl
  omega

end Depths

namespace Payloads

variable (h : V.Payloads G temps temps')
include h

theorem insert {id : NodeId} {p : Payload} (hid : V.shared id) (hp : ∀ y ∈ p.nestedFrames, V.tree.Below id y) :
    V.Payloads G (temps.insert id p) (temps'.insert id p) := by
  refine ⟨?_, ?_, ?_, ?_⟩
  · intro x hx
    rw [Temps.get_insert, Temps.get_insert, h.same hx]
  · intro x hx
    rw [Temps.get_insert, if_neg (by rintro rfl; exact hx hid), h.here hx]
  · intro x hx
    rw [Temps.get_insert, if_neg (by rintro rfl; exact hx hid), h.there hx]
  · intro x y q hx hq hy
    rw [Temps.get_insert] at hq
    split at hq
    · rename_i hidx
      obtain rfl : p = q := Option.some.inj hq
      exact hidx ▸ hp y hy
    · exact h.below hx hq hy

theorem erase {id : NodeId} (hid : V.shared id) : V.Payloads G (temps.erase id) (temps'.erase id) := by
  refine ⟨?_, ?_, ?_, ?_⟩
  · intro x hx
    rw [Temps.get_erase, Temps.get_erase, h.same hx]
  · intro x hx
    rw [Temps.get_erase, if_neg (by rintro rfl; exact hx hid), h.here hx]
  · intro x hx
    rw [Temps.get_erase, if_neg (by rintro rfl; exact hx hid), h.there hx]
  · intro x y q hx hq hy
    rw [Temps.get_erase] at hq
    split at hq
    · cases hq
    · exact h.below hx hq hy

theorem clear {s : Stack} (hs : ∀ y ∈ s.frames, V.shared y) (hbelow : ∀ x y, V.shared x → V.tree.Below x y → V.shared y) :
    V.Payloads G (s.clear temps) (s.clear temps') := by
  have hclosed : ∀ {x : NodeId}, temps.Leads s.frames x → V.shared x := fun hl =>
    hl.closed hs fun y p hy hp z hz => hbelow y z hy (h.below hy hp hz)
  have hsame : ∀ {x : NodeId}, temps'.Leads s.frames x ↔ temps.Leads s.frames x := by
    intro x
    constructor
    · intro hl
      have hboth : temps.Leads s.frames x ∧ V.shared x := by
        refine hl.closed (F := fun y => temps.Leads s.frames y ∧ V.shared y) (fun y hy => ⟨.frame hy, hs y hy⟩) ?_
        rintro y p ⟨hy, hshared⟩ hp z hz
        rw [h.same hshared] at hp
        exact ⟨.saved hy hp hz, hbelow y z hshared (h.below hshared hp hz)⟩
      exact hboth.1
    · intro hl
      refine hl.mono (fun y hy => .frame hy) fun y p hy hp => ?_
      rw [h.same (hclosed hy), hp]
  have hout : ∀ {x : NodeId}, ¬ V.shared x → ¬ temps.Leads s.frames x := fun hx hl => hx (hclosed hl)
  refine ⟨?_, ?_, ?_, ?_⟩
  · intro x hx
    by_cases hl : temps.Leads s.frames x
    · rw [Stack.getElem?_clear_of_leads hl, Stack.getElem?_clear_of_leads (hsame.mpr hl)]
    · rw [Stack.getElem?_clear_of_not_leads hl, Stack.getElem?_clear_of_not_leads fun hl' => hl (hsame.mp hl'), h.same hx]
  · intro x hx
    rw [Stack.getElem?_clear_of_not_leads (hout hx), h.here hx]
  · intro x hx
    rw [Stack.getElem?_clear_of_not_leads fun hl' => hout hx (hsame.mp hl'), h.there hx]
  · intro x y p hx hp hy
    exact h.below hx (Stack.getElem?_of_clear hp) hy

end Payloads

namespace Worlds

theorem mono (h : V.Worlds R w w') (hr : ∀ env env', R env env' → R' env env') : V.Worlds R' w w' := by
  obtain ⟨i, i', hi, hi', hii⟩ := h.mine
  exact ⟨h.same, h.others, ⟨i, i', hi, hi', hii.tree, hii.same, hii.pending, hr _ _ hii.rests⟩, h.given, h.shown,
    h.listeners, h.alarms⟩

theorem instanceOf (h : V.Worlds R w w') : V.Instances R (w.instanceOf V.owner) (w'.instanceOf V.owner) := by
  obtain ⟨i, i', hi, hi', hii⟩ := h.mine
  rw [World.instanceOf_eq hi, World.instanceOf_eq hi']
  exact hii

theorem instanceOf_of_ne (h : V.Worlds R w w') (hp : p ≠ V.owner) : w'.instanceOf p = w.instanceOf p := by
  rw [World.instanceOf, World.instanceOf, Std.ExtTreeMap.getD_eq_getD_getElem?, Std.ExtTreeMap.getD_eq_getD_getElem?,
    h.others hp]

theorem flags (h : V.Worlds R w w') (p : Tag) :
    ∃ tree stack temps, w'.instanceOf p =
      { w.instanceOf p with tree, env := { (w.instanceOf p).env with stack, temps } } := by
  by_cases hp : p = V.owner
  · subst hp
    obtain ⟨stack, temps, hi⟩ := h.instanceOf.same
    exact ⟨_, stack, temps, hi⟩
  · exact ⟨_, _, _, h.instanceOf_of_ne hp⟩

theorem pending (h : V.Worlds R w w') (p : Tag) : (w'.instanceOf p).pending = (w.instanceOf p).pending := by
  obtain ⟨_, _, _, hi⟩ := h.flags p
  rw [hi]

theorem executing (h : V.Worlds R w w') (p : Tag) : (w'.instanceOf p).executing = (w.instanceOf p).executing := by
  obtain ⟨_, _, _, hi⟩ := h.flags p
  rw [hi]

theorem interrupted (h : V.Worlds R w w') (p : Tag) : (w'.instanceOf p).interrupted = (w.instanceOf p).interrupted := by
  obtain ⟨_, _, _, hi⟩ := h.flags p
  rw [hi]

theorem clearRequested (h : V.Worlds R w w') (p : Tag) :
    (w'.instanceOf p).clearRequested = (w.instanceOf p).clearRequested := by
  obtain ⟨_, _, _, hi⟩ := h.flags p
  rw [hi]

theorem dropped (h : V.Worlds R w w') (p : Tag) : (w'.instanceOf p).dropped = (w.instanceOf p).dropped := by
  obtain ⟨_, _, _, hi⟩ := h.flags p
  rw [hi]

theorem contains (h : V.Worlds R w w') (p : Tag) : w'.instances.contains p = w.instances.contains p := by
  rw [Std.ExtTreeMap.contains_eq_isSome_getElem?, Std.ExtTreeMap.contains_eq_isSome_getElem?]
  by_cases hp : p = V.owner
  · obtain ⟨i, i', hi, hi', -⟩ := h.mine
    rw [hp, hi, hi']
    rfl
  · rw [h.others hp]

theorem time (h : V.Worlds R w w') : w'.time = w.time := by rw [h.same]

theorem subscriptions (h : V.Worlds R w w') : w'.subscriptions = w.subscriptions := by rw [h.same]

theorem delays (h : V.Worlds R w w') : w'.delays = w.delays := by rw [h.same]

/-! #### The journal -/

theorem record (h : V.Worlds R w w') (e : Entry) : V.Worlds R (w.record e) (w'.record e) := by
  refine ⟨?_, h.others, h.mine, h.given, ?_, h.listeners, h.alarms⟩
  · rw [h.same]
    rfl
  · simp only [World.record, Array.toList_push, List.filter_append, h.shown]

theorem recordHere (h : V.Worlds R w w') {e : Entry} (he : V.shows e = false) : V.Worlds R (w.record e) w' := by
  refine ⟨?_, h.others, h.mine, h.given, ?_, h.listeners, h.alarms⟩
  · rw [h.same]
    rfl
  · simp [World.record, List.filter_append, h.shown, he]

theorem recordThere (h : V.Worlds R w w') {e : Entry} (he : V.shows e = false) : V.Worlds R w (w'.record e) := by
  refine ⟨?_, h.others, h.mine, h.given, ?_, h.listeners, h.alarms⟩
  · rw [h.same]
    rfl
  · simp [World.record, List.filter_append, h.shown, he]

theorem report (h : V.Worlds R w w') (r r' : Report) : V.Worlds R (w.report r) (w'.report r') :=
  (h.recordHere rfl).recordThere rfl

theorem observe (h : V.Worlds R w w') (p : Tag) (a : Activity) : V.Worlds R (w.observe p a) (w'.observe p a) := h.record _

/-! #### Instances -/

theorem modify (h : V.Worlds R w w') {f f' : Instance → Instance}
    (hf : ∀ i i', V.Instances R i i' → V.Instances R' (f i) (f' i')) :
    V.Worlds R' (w.modifyInstance V.owner f) (w'.modifyInstance V.owner f') := by
  have hget : ∀ (v : World σ) (g : Instance → Instance) (q : Tag), (v.modifyInstance V.owner g).instances[q]? =
      if V.owner = q then some (g (v.instanceOf V.owner)) else v.instances[q]? := by
    simp [World.modifyInstance, World.setInstance, Std.ExtTreeMap.getElem?_insert]
  refine ⟨?_, ?_, ?_, h.given, h.shown, h.listeners, h.alarms⟩
  · rw [h.same]
    rfl
  · intro q hq
    rw [hget, hget, if_neg (Ne.symm hq), if_neg (Ne.symm hq), h.others hq]
  · exact ⟨_, _, by rw [hget, if_pos rfl], by rw [hget, if_pos rfl], hf _ _ h.instanceOf⟩

theorem modifyOther (h : V.Worlds R w w') (hp : p ≠ V.owner) (f : Instance → Instance) :
    V.Worlds R (w.modifyInstance p f) (w'.modifyInstance p f) := by
  have hget : ∀ (v : World σ) (q : Tag), (v.modifyInstance p f).instances[q]? =
      if p = q then some (f (v.instanceOf p)) else v.instances[q]? := by
    simp [World.modifyInstance, World.setInstance, Std.ExtTreeMap.getElem?_insert]
  obtain ⟨i, i', hi, hi', hii⟩ := h.mine
  refine ⟨?_, ?_, ⟨i, i', ?_, ?_, hii⟩, h.given, h.shown, h.listeners, h.alarms⟩
  · rw [h.same]
    rfl
  · intro q hq
    rw [hget, hget, h.others hq, h.instanceOf_of_ne hp]
  · rw [hget, if_neg hp, hi]
  · rw [hget, if_neg hp, hi']

/-- Something is done to an instance that has nothing to do with its tree and its state. -/
theorem flag (h : V.Worlds R w w') (p : Tag) {f : Instance → Instance}
    (hf : ∀ (i : Instance) tree env, f { i with tree, env } = { f i with tree, env })
    (hpending : p = V.owner → ∀ i, (∀ job ∈ i.pending, V.Takes job) → ∀ job ∈ (f i).pending, V.Takes job) :
    V.Worlds R (w.modifyInstance p f) (w'.modifyInstance p f) := by
  have hself : ∀ i, f i = { f i with tree := i.tree, env := i.env } := fun i => hf i i.tree i.env
  have htree : ∀ i, (f i).tree = i.tree := fun i => (congrArg Instance.tree (hself i)).trans rfl
  have henv : ∀ i, (f i).env = i.env := fun i => (congrArg Instance.env (hself i)).trans rfl
  by_cases hp : p = V.owner
  · subst hp
    refine h.modify fun i i' hii => ?_
    obtain ⟨stack, temps, hsame⟩ := hii.same
    refine ⟨(htree i).trans hii.tree, ⟨stack, temps, by rw [hsame, hf, henv]⟩, hpending rfl i hii.pending, ?_⟩
    rw [henv, henv]
    exact hii.rests
  · exact h.modifyOther hp f

/-- Something else is done to the world, and nothing of it is left that is not heard alike. -/
theorem beside (h : V.Worlds R w w') {f : World σ → World σ}
    (hf : ∀ (w : World σ) instances journal, f { w with instances, journal } = { f w with instances, journal })
    (hinstances : (f w).instances = w.instances) (hjournal : (f w).journal = w.journal)
    (hgiven : w.nextTag ≤ (f w).nextTag)
    (hlisteners : ∀ (id : SubscriptionId) (e : Subscription (Listener σ)),
      (f w).subscriptions.entries[id]? = some e → w.subscriptions.entries[id]? = some e ∨ V.Hears e.callback)
    (halarms : ∀ (id : DelayId) (e : PendingDelay (Alarm σ)),
      (f w).delays.pending[id]? = some e → w.delays.pending[id]? = some e ∨ V.Sets e.callback) :
    V.Worlds R (f w) (f w') := by
  obtain ⟨i, i', hi, hi', hii⟩ := h.mine
  have hthere : f w' = { f w with instances := w'.instances, journal := w'.journal } := by
    rw [← hf, ← h.same]
  refine ⟨?_, ?_, ⟨i, i', hinstances ▸ hi, ?_, hii⟩, Nat.lt_of_lt_of_le h.given hgiven, ?_, ?_, ?_⟩
  · rw [hthere]
  · intro q hq
    rw [hthere, hinstances]
    exact h.others hq
  · rw [hthere]
    exact hi'
  · rw [hthere, hjournal]
    exact h.shown
  · intro id e he
    exact (hlisteners id e he).elim h.listeners fun hh => hh
  · intro id e he
    exact (halarms id e he).elim h.alarms fun hh => hh

theorem subscribe (h : V.Worlds R w w') (key : EventKey) (tag : Tag) {l : Listener σ} (hl : V.Hears l) :
    V.Worlds R (w.subscribe key tag l).2 (w'.subscribe key tag l).2 := by
  refine h.beside (f := fun w => (w.subscribe key tag l).2) (fun _ _ _ => rfl) rfl rfl (Nat.le_refl _) ?_ fun _ _ => .inl
  intro id e he
  change (w.subscriptions.add key tag l).2.entries[id]? = some e at he
  rw [Subscriptions.entries_add] at he
  split at he
  · obtain rfl := Option.some.inj he
    exact .inr hl
  · exact .inl he

theorem delay (h : V.Worlds R w w') (span : Float) (tag : Tag) {a : Alarm σ} (ha : V.Sets a) :
    V.Worlds R (w.delay span tag a).2 (w'.delay span tag a).2 := by
  refine h.beside (f := fun w => (w.delay span tag a).2) (fun _ _ _ => rfl) rfl rfl (Nat.le_refl _) (fun _ _ => .inl) ?_
  intro id e he
  change (w.delays.schedule (w.time + span) tag a).2.pending[id]? = some e at he
  rw [Delays.pending_schedule] at he
  split at he
  · obtain rfl := Option.some.inj he
    exact .inr ha
  · exact .inl he

end Worlds

end Variants

end BehaviorTree
