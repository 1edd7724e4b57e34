import BehaviorTree.Program
import BehaviorTree.Proofs.Stack.Suspension
import BehaviorTree.Proofs.Tree.Loading
import BehaviorTree.Proofs.World.Advance
import BehaviorTree.Proofs.World.Filing

/-!
What is asked of the host, and what then holds of a world at all times: trees come from loading, jobs are of the
tree that they wait for, and between operations the stacks of an instance account for what is suspended in it.
-/

namespace BehaviorTree
set_option autoImplicit false

/-- What is asked of the host of a world: the node types it registers, the states it may be in, and whether its
callbacks may give instances other trees. -/
structure Rules (σ : Type) where
  registry : Registry
  plain : registry.Plain
  host : σ → Prop
  swap : Bool

/-- A job that a tree may be given: an event for the child of a listening node, or the child of a delay. -/
def Tree.Accepts (t : Tree) : Job → Prop
  | .delayed child _ => ∃ d, t.PutsOff d child
  | .fired listener child _ => t.Listens listener child

variable {σ : Type}

structure Rules.Shows (R : Rules σ) (v : Overview σ) : Prop where
  host : R.host v.host
  tree (owner : Tag) : v.tree owner = {} ∨ R.registry.Loads (v.tree owner)

/-- A program follows the rules: its trees are loaded ones, and it gives an instance another tree only if it `may`. -/
def Program.Obeys (R : Rules σ) (may : Bool) : Program σ → Prop
  | .done => True
  | .look next => ∀ v, R.Shows v → (next v).Obeys R may
  | .store host next => R.host host ∧ next.Obeys R may
  | .note _ next => next.Obeys R may
  | .load _ _ next => ∀ result, (∀ t, result = .ok t → R.registry.Loads t) → (next result).Obeys R may
  | .install _ _ next => next.Obeys R may
  | .newTag next => ∀ tag, (next tag).Obeys R may
  | .create tree _ next => R.registry.Loads tree ∧ ∀ owner, (next owner).Obeys R may
  | .run _ next => ∀ result, (next result).Obeys R may
  | .interrupt _ next => next.Obeys R may
  | .clear _ next => next.Obeys R may
  | .setTree _ tree next => may = true ∧ R.registry.Loads tree ∧ ∀ result, (next result).Obeys R may
  | .setVar _ _ _ next => next.Obeys R may
  | .drop _ next => next.Obeys R may
  | .update _ next => next.Obeys R may
  | .dispatch _ _ next => ∀ heard, (next heard).Obeys R may
  | .subscribe _ _ callback next => (∀ event, (callback event).Obeys R R.swap) ∧ ∀ id, (next id).Obeys R may
  | .unsubscribe _ next => ∀ found, (next found).Obeys R may
  | .unsubscribeEvent _ _ next => ∀ count, (next count).Obeys R may
  | .release _ next => next.Obeys R may
  | .delay _ _ callback next => callback.Obeys R R.swap ∧ ∀ id, (next id).Obeys R may
  | .cancel _ next => ∀ found, (next found).Obeys R may

structure Env.Stray (env : Env) (z : NodeId) : Prop where
  payload : env.temps[z]? ≠ none
  stack : z ∉ env.stack.frames
  detached {l : NodeId} {s : Stack} : env.detached[l]? = some s → z ∉ s.frames
  nested {x : NodeId} {p : Payload} : env.temps[x]? = some p → z ∉ p.nestedFrames

/-- The state of an instance between operations. The main stack is a path from the root. What a listening or
delaying node runs outside of ticks stays in the region of its child; unless suspended children were lost, what is
detached is a path from that child, and nothing else is suspended there. -/
structure Env.Ordered (t : Tree) (env : Env) (spilled : Bool) : Prop where
  main : env.stack.frames = [] ∧ t.Idle env.temps t.root ∨ t.Suspended env.temps t.root env.stack.frames
  based {x : NodeId} : env.temps[x]? ≠ none → ∃ k, t.Base k ∧ t.Region k x
  inward {x y : NodeId} {p : Payload} : env.temps[x]? = some p → y ∈ p.nestedFrames → t.Below x y
  detached {l : NodeId} {s : Stack} :
    env.detached[l]? = some s → ∃ c, t.Listens l c ∧ ∀ x ∈ s.frames, t.Region c x
  parked {l c : NodeId} {s : Stack} :
    spilled = false → t.Listens l c → env.detached[l]? = some s → t.Suspended env.temps c s.frames
  unparked {l c : NodeId} :
    spilled = false → t.Listens l c → env.detached[l]? = none → t.Idle env.temps c
  delayed {d c : NodeId} : spilled = false → t.PutsOff d c → t.Idle env.temps c
  stray : spilled = true → ∃ z, env.Stray z

/-- Every payload is one that its node may have left, or the mere fact that it is running. -/
def Env.Fits (t : Tree) (env : Env) : Prop :=
  ∀ x n p, t.get? x = some n → env.temps[x]? = some p → n.Saves p ∨ p = .marker

/-- What is asked of the state of an instance between operations. -/
structure Rules.Rests (R : Rules σ) (t : Tree) (env : Env) (spilled : Bool) : Prop where
  fits : env.Fits t
  ordered : R.swap = false → env.Ordered t spilled

/-- A subscriber is a host that follows the rules, or a listening node of an instance that has the tag. -/
def Listener.Valid (R : Rules σ) (w : World σ) (tag : Tag) : Listener σ → Prop
  | .node owner listener child =>
    tag = owner ∧ ∃ i, w.instances[owner]? = some i ∧ (R.swap = false → i.tree.Listens listener child)
  | .host react => ∀ event, (react event).Obeys R R.swap

/-- An alarm is set by a host that follows the rules, or for a job of an instance that has the tag. -/
def Alarm.Valid (R : Rules σ) (w : World σ) (tag : Tag) : Alarm σ → Prop
  | .job owner j => tag = owner ∧ ∃ i, w.instances[owner]? = some i ∧ (R.swap = false → i.tree.Accepts j)
  | .host act => act.Obeys R R.swap

structure World.Holds (R : Rules σ) (w : World σ) (o : Tag) (i : Instance) : Prop where
  given : o.index < w.nextTag
  loaded : R.registry.Loads i.tree
  pending : R.swap = false → ∀ job ∈ i.pending, i.tree.Accepts job
  idle : i.executing = false →
    i.interrupted = false ∧ i.pending = [] ∧ R.Rests i.tree i.env (w.spilled o i.tree)

/-- What holds of a world at all times. -/
structure World.Good (R : Rules σ) (w : World σ) : Prop where
  registry : w.registry = R.registry
  host : R.host w.host
  subscriptions : w.subscriptions.Filed
  delays : w.delays.Filed
  listeners {id : SubscriptionId} {e : Subscription (Listener σ)} :
    w.subscriptions.entries[id]? = some e → e.callback.Valid R w e.tag
  alarms {id : DelayId} {e : PendingDelay (Alarm σ)} :
    w.delays.pending[id]? = some e → e.callback.Valid R w e.tag
  silent {o : Tag} : w.instances[o]? = none → w.acts o = []
  holds {o : Tag} {i : Instance} : w.instances[o]? = some i → w.Holds R o i

variable {R : Rules σ} {w w' : World σ} {owner o tag : Tag} {i i' : Instance}

theorem Listener.Valid.mono {l : Listener σ} (h : l.Valid R w tag)
    (hw : ∀ o i, tag = o → w.instances[o]? = some i →
      ∃ i', w'.instances[o]? = some i' ∧ (R.swap = false → i'.tree = i.tree)) : l.Valid R w' tag := by
  cases l with
  | host react => exact h
  | node o l c =>
    obtain ⟨ho, i, hi, hl⟩ := h
    obtain ⟨i', hi', ht⟩ := hw o i ho hi
    exact ⟨ho, i', hi', fun hs => by rw [ht hs]; exact hl hs⟩

theorem Alarm.Valid.mono {a : Alarm σ} (h : a.Valid R w tag)
    (hw : ∀ o i, tag = o → w.instances[o]? = some i →
      ∃ i', w'.instances[o]? = some i' ∧ (R.swap = false → i'.tree = i.tree)) : a.Valid R w' tag := by
  cases a with
  | host act => exact h
  | job o j =>
    obtain ⟨ho, i, hi, hj⟩ := h
    obtain ⟨i', hi', ht⟩ := hw o i ho hi
    exact ⟨ho, i', hi', fun hs => by rw [ht hs]; exact hj hs⟩

theorem Listener.Valid.advance {l : Listener σ} {part : Tag → Part} (h : l.Valid R w tag)
    (hw : w.Advances (!R.swap) part w') : l.Valid R w' tag := by
  refine h.mono ?_
  intro o i _ hi
  obtain ⟨i', hi', _, ht⟩ := hw.exists_instance hi
  exact ⟨i', hi', fun hs => ht (.inl (by simp [hs]))⟩

theorem Alarm.Valid.advance {a : Alarm σ} {part : Tag → Part} (h : a.Valid R w tag)
    (hw : w.Advances (!R.swap) part w') : a.Valid R w' tag := by
  refine h.mono ?_
  intro o i _ hi
  obtain ⟨i', hi', _, ht⟩ := hw.exists_instance hi
  exact ⟨i', hi', fun hs => ht (.inl (by simp [hs]))⟩

namespace World

theorem spilled_eq {t : Tree} (h : w'.acts o = w.acts o) : w'.spilled o t = w.spilled o t := by
  rw [spilled, spilled, watch, watch, h]

theorem Holds.of_eq (h : w.Holds R o i) (htag : w.nextTag ≤ w'.nextTag) (hacts : w'.acts o = w.acts o) :
    w'.Holds R o i := by
  refine ⟨Nat.lt_of_lt_of_le h.given htag, h.loaded, h.pending, ?_⟩
  intro he
  rw [spilled_eq hacts]
  exact h.idle he

namespace Good

theorem of_eq (h : w.Good R) (hr : w'.registry = w.registry) (hh : R.host w'.host)
    (hs : w'.subscriptions = w.subscriptions) (hd : w'.delays = w.delays) (hi : w'.instances = w.instances)
    (ht : w.nextTag ≤ w'.nextTag) (ha : ∀ o, w'.acts o = w.acts o) : w'.Good R := by
  refine ⟨hr.trans h.registry, hh, hs ▸ h.subscriptions, hd ▸ h.delays, ?_, ?_, ?_, ?_⟩
  · intro id e he
    refine (h.listeners (hs ▸ he)).mono ?_
    intro o i _ ho
    exact ⟨i, hi ▸ ho, fun _ => rfl⟩
  · intro id e he
    refine (h.alarms (hd ▸ he)).mono ?_
    intro o i _ ho
    exact ⟨i, hi ▸ ho, fun _ => rfl⟩
  · intro o ho
    rw [ha]
    exact h.silent (hi ▸ ho)
  · intro o i ho
    exact (h.holds (hi ▸ ho)).of_eq ht (ha o)

theorem report (h : w.Good R) (r : Report) : (w.report r).Good R :=
  h.of_eq rfl h.host rfl rfl rfl (Nat.le_refl _) fun _ => acts_report w r _

theorem note (h : w.Good R) (v : Value) : (w.record (.note v)).Good R :=
  h.of_eq rfl h.host rfl rfl rfl (Nat.le_refl _) fun _ => by simp [acts_record, Entry.of?]

/-- One instance changes. If it gets another tree, nothing that it subscribed to may be left. -/
theorem of_replaced {acts : List Activity} (h : w.Good R) (hi : w.instances[owner]? = some i)
    (hc : w.Changes w' owner i' acts) (hloaded : R.registry.Loads i'.tree)
    (hkeep : (R.swap = false → i'.tree = i.tree) ∨ w.OwnsNothing owner)
    (hpending : R.swap = false → ∀ job ∈ i'.pending, i'.tree.Accepts job)
    (hidle : i'.executing = false →
      i'.interrupted = false ∧ i'.pending = [] ∧ R.Rests i'.tree i'.env (w'.spilled owner i'.tree)) :
    w'.Good R := by
  have hstays : ∀ tag, (R.swap = false → i'.tree = i.tree) ∨ tag ≠ owner →
      ∀ (o : Tag) (j : Instance), tag = o → w.instances[o]? = some j →
        ∃ j', w'.instances[o]? = some j' ∧ (R.swap = false → j'.tree = j.tree) := by
    rintro _ ht o j rfl hj
    rw [hc.instances]
    split
    · rename_i ho
      subst ho
      obtain rfl : i = j := Option.some.inj (hi.symm.trans hj)
      exact ⟨i', rfl, ht.resolve_right fun hne => hne rfl⟩
    · exact ⟨j, hj, fun _ => rfl⟩
  refine ⟨hc.registry.trans h.registry, hc.host ▸ h.host, hc.subscriptions ▸ h.subscriptions,
    hc.delays ▸ h.delays, ?_, ?_, ?_, ?_⟩
  · intro id e he
    rw [hc.subscriptions] at he
    exact (h.listeners he).mono (hstays e.tag (hkeep.imp_right fun hk => hk.subscriptions id e he))
  · intro id e he
    rw [hc.delays] at he
    exact (h.alarms he).mono (hstays e.tag (hkeep.imp_right fun hk => hk.delays id e he))
  · intro o ho
    rw [hc.instances] at ho
    split at ho
    · cases ho
    · rename_i hne
      rw [hc.acts, if_neg hne, List.append_nil]
      exact h.silent ho
  · intro o j hj
    rw [hc.instances] at hj
    split at hj
    · rename_i ho
      subst ho
      obtain rfl := Option.some.inj hj
      exact ⟨hc.nextTag ▸ (h.holds hi).given, hloaded, hpending, hidle⟩
    · rename_i hne
      exact (h.holds hj).of_eq (Nat.le_of_eq hc.nextTag.symm) (by rw [hc.acts, if_neg hne, List.append_nil])

theorem of_changes {acts : List Activity} (h : w.Good R) (hi : w.instances[owner]? = some i)
    (hc : w.Changes w' owner i' acts) (htree : i'.tree = i.tree)
    (hpending : R.swap = false → ∀ job ∈ i'.pending, i.tree.Accepts job)
    (hidle : i'.executing = false →
      i'.interrupted = false ∧ i'.pending = [] ∧ R.Rests i.tree i'.env (w'.spilled owner i.tree)) :
    w'.Good R := by
  refine h.of_replaced hi hc ?_ (.inl fun _ => htree) ?_ ?_
  · rw [htree]
    exact (h.holds hi).loaded
  · rw [htree]
    exact hpending
  · rw [htree]
    exact hidle

theorem of_subscriptions {s : Subscriptions (Listener σ)} (h : w.Good R) (hs : s.Filed)
    (hv : ∀ (id : SubscriptionId) (e : Subscription (Listener σ)), s.entries[id]? = some e →
      e.callback.Valid R w e.tag) :
    ({ w with subscriptions := s } : World σ).Good R := by
  refine ⟨h.registry, h.host, hs, h.delays, ?_, ?_, fun ho => h.silent ho, ?_⟩
  · intro id e he
    exact (hv id e he).mono fun o i _ hi => ⟨i, hi, fun _ => rfl⟩
  · intro id e he
    exact (h.alarms he).mono fun o i _ hi => ⟨i, hi, fun _ => rfl⟩
  · intro o i hi
    exact (h.holds hi).of_eq (Nat.le_refl _) rfl

theorem of_delays {d : Delays (Alarm σ)} {time : Float} (h : w.Good R) (hd : d.Filed)
    (hv : ∀ (id : DelayId) (e : PendingDelay (Alarm σ)), d.pending[id]? = some e →
      e.callback.Valid R w e.tag) :
    ({ w with delays := d, time } : World σ).Good R := by
  refine ⟨h.registry, h.host, h.subscriptions, hd, ?_, ?_, fun ho => h.silent ho, ?_⟩
  · intro id e he
    exact (h.listeners he).mono fun o i _ hi => ⟨i, hi, fun _ => rfl⟩
  · intro id e he
    exact (hv id e he).mono fun o i _ hi => ⟨i, hi, fun _ => rfl⟩
  · intro o i hi
    exact (h.holds hi).of_eq (Nat.le_refl _) rfl

theorem subscribe (h : w.Good R) {l : Listener σ} (key : EventKey) (hl : l.Valid R w tag) :
    (w.subscribe key tag l).2.Good R := by
  refine h.of_subscriptions (s := (w.subscriptions.add key tag l).2) (h.subscriptions.add key tag l) ?_
  intro id e he
  rw [Subscriptions.entries_add] at he
  split at he
  · obtain rfl := Option.some.inj he
    exact hl
  · exact h.listeners he

theorem delay (h : w.Good R) {a : Alarm σ} (span : Float) (ha : a.Valid R w tag) :
    (w.delay span tag a).2.Good R := by
  refine h.of_delays (d := (w.delays.schedule (w.time + span) tag a).2) (h.delays.schedule _ tag a) ?_
  intro id e he
  rw [Delays.pending_schedule] at he
  split at he
  · obtain rfl := Option.some.inj he
    exact ha
  · exact h.alarms he

theorem releaseTag (h : w.Good R) (tag : Tag) : (w.releaseTag tag).Good R := by
  have hgood : ({ w with
      subscriptions := (w.subscriptions.removeOwner tag).2
      delays := (w.delays.cancelOwner tag).2 } : World σ).Good R := by
    refine (h.of_subscriptions (h.subscriptions.removeOwner tag) ?_).of_delays (h.delays.cancelOwner tag) ?_
    · intro id e he
      exact h.listeners (Subscriptions.entries_removeOwner h.subscriptions he).1
    · intro id e he
      exact h.alarms (Delays.pending_cancelOwner h.delays he).1
  rw [World.releaseTag]
  simp only
  split
  · exact hgood.report _
  · exact hgood

end Good

end World

end BehaviorTree
