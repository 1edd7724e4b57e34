import BehaviorTree.Proofs.Life.Markers
import BehaviorTree.Proofs.World.Ownership

/-!
What an instance remembers of its nodes. As long as no host clears instances or gives them other trees, an instance
forgets nothing: what others do to it while it executes, and whatever is dropped of it, leaves the private variables of
its nodes alone. In its ticks and jobs a node that runs its child once is seen to do so.
-/

namespace BehaviorTree
set_option autoImplicit false

variable {σ : Type} {o p : Tag} {k : NodeId} {w₀ w w' w'' : World σ} {x : Bool}

/-! ### Hosts that let instances remember -/

/-- A host that neither clears instances nor gives them other trees, and neither do its callbacks. -/
def Program.Lasting : Program σ → Prop
  | .done => True
  | .look next => ∀ v, (next v).Lasting
  | .store _ next => next.Lasting
  | .note _ next => next.Lasting
  | .load _ _ next => ∀ result, (next result).Lasting
  | .install _ _ next => next.Lasting
  | .newTag next => ∀ tag, (next tag).Lasting
  | .create _ _ next => ∀ owner, (next owner).Lasting
  | .run _ next => ∀ result, (next result).Lasting
  | .interrupt _ next => next.Lasting
  | .clear _ _ => False
  | .setTree _ _ _ => False
  | .setVar _ _ _ next => next.Lasting
  | .drop _ next => next.Lasting
  | .update _ next => next.Lasting
  | .dispatch _ _ next => ∀ heard, (next heard).Lasting
  | .subscribe _ _ callback next => (∀ event, (callback event).Lasting) ∧ ∀ id, (next id).Lasting
  | .unsubscribe _ next => ∀ found, (next found).Lasting
  | .unsubscribeEvent _ _ next => ∀ count, (next count).Lasting
  | .release _ next => next.Lasting
  | .delay _ _ callback next => callback.Lasting ∧ ∀ id, (next id).Lasting
  | .cancel _ next => ∀ found, (next found).Lasting

/-- If it is a host who listens, it lets instances remember. -/
def Listener.Lasting : Listener σ → Prop
  | .node .. => True
  | .host react => ∀ event, (react event).Lasting

/-- If it is a host who has set an alarm, it lets instances remember. -/
def Alarm.Lasting : Alarm σ → Prop
  | .job .. => True
  | .host act => act.Lasting

namespace World

/-- What is filed was filed under tags that were given, and hosts that are called back let instances remember. -/
structure Lasts (w : World σ) : Prop extends w.Dated where
  hears {id : SubscriptionId} {e : Subscription (Listener σ)} :
    w.subscriptions.entries[id]? = some e → e.callback.Lasting
  rings {id : DelayId} {e : PendingDelay (Alarm σ)} : w.delays.pending[id]? = some e → e.callback.Lasting

namespace Lasts

variable (h : w.Lasts)
include h

theorem of_filed (hd : w'.Dated)
    (hs : ∀ (id : SubscriptionId) (e : Subscription (Listener σ)),
      w'.subscriptions.entries[id]? = some e → w.subscriptions.entries[id]? = some e)
    (ha : ∀ (id : DelayId) (e : PendingDelay (Alarm σ)),
      w'.delays.pending[id]? = some e → w.delays.pending[id]? = some e) : w'.Lasts :=
  ⟨hd, fun he => h.hears (hs _ _ he), fun he => h.rings (ha _ _ he)⟩

theorem of_eq (hs : w'.subscriptions = w.subscriptions) (hd : w'.delays = w.delays) (hi : w'.instances = w.instances)
    (ha : ∀ o, w'.acts o = w.acts o) (hn : w.nextTag ≤ w'.nextTag) : w'.Lasts :=
  h.of_filed (h.toDated.of_eq hs hd hi ha hn) (fun _ _ he => hs ▸ he) fun _ _ he => hd ▸ he

theorem modify (ho : o.index < w.nextTag) (f : Instance → Instance) : (w.modifyInstance o f).Lasts :=
  h.of_filed (h.toDated.modify ho f) (fun _ _ => id) fun _ _ => id

theorem observe (ho : o.index < w.nextTag) (a : Activity) : (w.observe o a).Lasts :=
  h.of_filed (h.toDated.observe ho a) (fun _ _ => id) fun _ _ => id

theorem record {e : Entry} (he : ∀ o, o.index < w.nextTag ∨ e.of? o = none) : (w.record e).Lasts := by
  refine h.of_filed { h.toDated with acts := fun {o} ho => ?_ } (fun _ _ => id) fun _ _ => id
  rw [acts_record, (he o).resolve_left (Nat.not_lt.mpr ho), Option.toList_none, List.append_nil]
  exact h.acts ho

theorem subscribe (key : EventKey) (tag : Tag) {l : Listener σ}
    (ho : ∀ o, l.owner? = some o → tag = o ∧ o.index < w.nextTag) (hl : l.Lasting) :
    (w.subscribe key tag l).2.Lasts := by
  refine ⟨h.toDated.subscribe key tag ho, fun {id e} he => ?_, h.rings⟩
  change (w.subscriptions.add key tag l).2.entries[id]? = some e at he
  rw [Subscriptions.entries_add] at he
  split at he
  · obtain rfl := Option.some.inj he
    exact hl
  · exact h.hears he

theorem delay (span : Float) (tag : Tag) {a : Alarm σ} (ho : ∀ o, a.owner? = some o → tag = o ∧ o.index < w.nextTag)
    (ha : a.Lasting) : (w.delay span tag a).2.Lasts := by
  refine ⟨h.toDated.delay span tag ho, h.hears, fun {id e} he => ?_⟩
  change (w.delays.schedule (w.time + span) tag a).2.pending[id]? = some e at he
  rw [Delays.pending_schedule] at he
  split at he
  · obtain rfl := Option.some.inj he
    exact ha
  · exact h.rings he

theorem unsubscribe {s : Subscriptions (Listener σ)} (hs : s.Filed)
    (hsub : ∀ (id : SubscriptionId) (e : Subscription (Listener σ)),
      s.entries[id]? = some e → w.subscriptions.entries[id]? = some e) :
    ({ w with subscriptions := s } : World σ).Lasts :=
  h.of_filed (h.toDated.unsubscribe hs hsub) hsub fun _ _ => id

theorem expire (now : Float) {d : Delays (Alarm σ)} (hd : d.Filed)
    (hdel : ∀ (id : DelayId) (e : PendingDelay (Alarm σ)), d.pending[id]? = some e → w.delays.pending[id]? = some e) :
    ({ w with time := now, delays := d } : World σ).Lasts :=
  h.of_filed (h.toDated.of_filed h.subscriptions hd (fun _ _ => id) hdel rfl (fun _ => rfl) (Nat.le_refl _))
    (fun _ _ => id) hdel

theorem releaseTag (tag : Tag) : (w.releaseTag tag).Lasts := by
  refine h.of_filed (h.toDated.releaseTag tag) (fun id e he => ?_) fun id e he => ?_
  · rw [subscriptions_releaseTag] at he
    exact (Subscriptions.entries_removeOwner h.subscriptions he).1
  · rw [delays_releaseTag] at he
    exact (Delays.pending_cancelOwner h.delays he).1

end Lasts

/-! ### What an instance remembers -/

/-- What is seen of a node does not tell that it starts; of what the instance remembers nothing is lost. -/
structure Unmoved (o : Tag) (k : NodeId) (w w' : World σ) : Prop where
  later : w.nextTag ≤ w'.nextTag
  executing : (w'.instanceOf o).executing = (w.instanceOf o).executing
  tree : (w'.instanceOf o).tree = (w.instanceOf o).tree
  privates : (w'.instanceOf o).env.privates = (w.instanceOf o).env.privates
  unasked : (w.instanceOf o).clearRequested = false → (w'.instanceOf o).clearRequested = false
  acts : ∃ acts, w'.acts o = w.acts o ++ acts ∧ ∀ a ∈ acts, ∀ resumed, a ≠ .called k resumed

/-- If a node of an instance runs its child once, it was seen to do so, and the instance remembers. -/
def Vouches (o : Tag) (k : NodeId) (w : World σ) : Prop :=
  (w.instanceOf o).tree.IsOnce k → (w.instanceOf o).env.Vouches k (w.acts o)

namespace Unmoved

theorem refl (o : Tag) (k : NodeId) (w : World σ) : w.Unmoved o k w :=
  ⟨Nat.le_refl _, rfl, rfl, rfl, id, [], (List.append_nil _).symm, nofun⟩

theorem trans (h : w.Unmoved o k w') (h' : w'.Unmoved o k w'') : w.Unmoved o k w'' := by
  refine ⟨Nat.le_trans h.later h'.later, h'.executing.trans h.executing, h'.tree.trans h.tree,
    h'.privates.trans h.privates, fun hc => h'.unasked (h.unasked hc), ?_⟩
  obtain ⟨acts, hacts, hfree⟩ := h.acts
  obtain ⟨more, hmore, hfree'⟩ := h'.acts
  refine ⟨acts ++ more, by rw [hmore, hacts, List.append_assoc], fun a ha => ?_⟩
  exact (List.mem_append.mp ha).elim (hfree a) (hfree' a)

/-- Nothing of the instance changes, and nothing is seen of it. -/
theorem of_eq (hn : w.nextTag ≤ w'.nextTag) (hi : w'.instanceOf o = w.instanceOf o) (ha : w'.acts o = w.acts o) :
    w.Unmoved o k w' :=
  ⟨hn, by rw [hi], by rw [hi], by rw [hi], fun hc => hi ▸ hc, [], by rw [ha, List.append_nil], nofun⟩

theorem record {e : Entry} (he : ∀ resumed, e.of? o ≠ some (.called k resumed)) : w.Unmoved o k (w.record e) := by
  refine ⟨Nat.le_refl _, rfl, rfl, rfl, id, (e.of? o).toList, acts_record _ _ _, fun a ha resumed heq => ?_⟩
  exact he resumed (heq ▸ Option.mem_toList.mp ha)

theorem unseen {e : Entry} (he : e.of? o = none) : w.Unmoved o k (w.record e) :=
  record fun _ => he ▸ (Option.some_ne_none _).symm

theorem observe {a : Activity} (ha : ∀ resumed, a ≠ .called k resumed) : w.Unmoved o k (w.observe p a) := by
  refine record (e := .activity p a) fun resumed he => ?_
  rw [Entry.of?] at he
  split at he
  · exact ha resumed (Option.some.inj he)
  · cases he

theorem modify_other (hp : o ≠ p) (f : Instance → Instance) : w.Unmoved o k (w.modifyInstance p f) :=
  .of_eq (Nat.le_refl _) (instanceOf_modifyInstance_of_ne hp f) (acts_modifyInstance w f p o)

/-- Something happens to the instance that changes neither its tree nor what its nodes remember. -/
theorem modify_self {f : Instance → Instance} (he : ∀ i, (f i).executing = i.executing) (ht : ∀ i, (f i).tree = i.tree)
    (hp : ∀ i, (f i).env.privates = i.env.privates) (hc : ∀ i, i.clearRequested = false → (f i).clearRequested = false) :
    w.Unmoved o k (w.modifyInstance o f) := by
  have hself := instanceOf_modifyInstance_self w o f
  refine ⟨Nat.le_refl _, ?_, ?_, ?_, ?_, [], (List.append_nil _).symm, nofun⟩
  · rw [hself, he]
  · rw [hself, ht]
  · rw [hself, hp]
  · rw [hself]
    exact hc _

theorem releaseTag (tag : Tag) : w.Unmoved o k (w.releaseTag tag) :=
  .of_eq (Nat.le_of_eq (nextTag_releaseTag w tag).symm) (instanceOf_releaseTag w tag o) (acts_releaseTag w tag o)

end Unmoved

theorem Vouches.unmoved (h : w.Vouches o k) (hu : w.Unmoved o k w') : w'.Vouches o k := by
  obtain ⟨acts, hacts, hfree⟩ := hu.acts
  intro honce
  rw [hacts]
  exact ((h (hu.tree ▸ honce)).append hfree).edit hu.privates

/-- Hosts let the instance remember, and if it is idle it vouches for its node. -/
structure Mindful (o : Tag) (k : NodeId) (w : World σ) : Prop where
  lasts : w.Lasts
  unasked : (w.instanceOf o).clearRequested = false
  idle : (w.instanceOf o).executing = false → w.Vouches o k

/-- Something is done to a world that comes to an end before the instance goes on. -/
structure Elapses (o : Tag) (k : NodeId) (w w' : World σ) : Prop where
  mindful : w'.Mindful o k
  later : w.nextTag ≤ w'.nextTag
  executing : (w'.instanceOf o).executing = (w.instanceOf o).executing
  tree : o.index < w.nextTag → (w'.instanceOf o).tree = (w.instanceOf o).tree
  lent : (w.instanceOf o).executing = true → w.Unmoved o k w'

/-- Something is being done with the instance, which vouches for its node; `x` tells whether it executes. The world has
come from another one. -/
structure Minded (o : Tag) (k : NodeId) (w w₀ : World σ) (x : Bool) : Prop where
  lasts : w.Lasts
  later : w₀.nextTag ≤ w.nextTag
  given : o.index < w.nextTag
  executing : (w.instanceOf o).executing = x
  tree : (w.instanceOf o).tree = (w₀.instanceOf o).tree
  unasked : (w.instanceOf o).clearRequested = false
  vouches : w.Vouches o k

namespace Elapses

theorem refl (h : w.Mindful o k) : w.Elapses o k w := ⟨h, Nat.le_refl _, rfl, fun _ => rfl, fun _ => .refl o k w⟩

theorem trans (h : w.Elapses o k w') (h' : w'.Elapses o k w'') : w.Elapses o k w'' :=
  ⟨h'.mindful, Nat.le_trans h.later h'.later, h'.executing.trans h.executing,
    fun ho => (h'.tree (Nat.lt_of_lt_of_le ho h.later)).trans (h.tree ho),
    fun hx => (h.lent hx).trans (h'.lent (h.executing.trans hx))⟩

theorem unmoved (h : w₀.Elapses o k w) (hs : w'.Lasts) (hu : w.Unmoved o k w') : w₀.Elapses o k w' := by
  have hmindful : w'.Mindful o k := ⟨hs, hu.unasked h.mindful.unasked,
    fun hx => (h.mindful.idle (hu.executing.symm.trans hx)).unmoved hu⟩
  exact h.trans ⟨hmindful, hu.later, hu.executing, fun _ => hu.tree, fun _ => hu⟩

theorem record (h : w₀.Elapses o k w) {e : Entry} (he : ∀ p, e.of? p = none) : w₀.Elapses o k (w.record e) :=
  h.unmoved (h.mindful.lasts.record fun p => .inr (he p)) (.unseen (he o))

end Elapses

theorem Mindful.minded (h : w.Mindful o k) (ho : o.index < w.nextTag) (hx : (w.instanceOf o).executing = false) :
    w.Minded o k w false := ⟨h.lasts, Nat.le_refl _, ho, hx, rfl, h.unasked, h.idle hx⟩

namespace Minded

/-- What is done with the idle instance itself comes to an end. -/
theorem elapsed (h : w'.Minded o k w false) (hx : (w.instanceOf o).executing = false) : w.Elapses o k w' :=
  ⟨⟨h.lasts, h.unasked, fun _ => h.vouches⟩, h.later, h.executing.trans hx.symm, fun _ => h.tree,
    fun hx' => absurd (hx.symm.trans hx') (by decide)⟩

variable (h : w.Minded o k w₀ x)
include h

theorem mindful : w.Mindful o k := ⟨h.lasts, h.unasked, fun _ => h.vouches⟩

theorem unmoved (hs : w'.Lasts) (hu : w.Unmoved o k w') : w'.Minded o k w₀ x :=
  ⟨hs, Nat.le_trans h.later hu.later, Nat.lt_of_lt_of_le h.given hu.later, hu.executing.trans h.executing,
    hu.tree.trans h.tree, hu.unasked h.unasked, h.vouches.unmoved hu⟩

theorem observe {a : Activity} (ha : ∀ resumed, a ≠ .called k resumed) : (w.observe o a).Minded o k w₀ x :=
  h.unmoved (h.lasts.observe h.given a) (.observe ha)

/-- An instance that executes is left alone by what others do. -/
theorem elapses (hx : x = true) (he : w.Elapses o k w') : w'.Minded o k w₀ x :=
  h.unmoved he.mindful.lasts (he.lent (h.executing.trans hx))

theorem execute (y : Bool) : (w.modifyInstance o fun i => { i with executing := y }).Minded o k w₀ y := by
  have hself := instanceOf_modifyInstance_self w o fun i => { i with executing := y }
  refine ⟨h.lasts.modify h.given _, h.later, h.given, ?_, ?_, ?_, ?_⟩
  · rw [hself]
  · rw [hself]
    exact h.tree
  · rw [hself]
    exact h.unasked
  · intro honce
    rw [hself] at honce ⊢
    exact h.vouches honce

end Minded

end World

/-! ### Ticks -/

/-- A tick or job has the state of an instance, which vouches for its node. -/
structure Tick.Minded (o : Tag) (k : NodeId) (w₀ : World σ) (running : Tree) (t : Tick σ) : Prop where
  lasts : t.world.Lasts
  later : w₀.nextTag ≤ t.world.nextTag
  given : o.index < t.world.nextTag
  executing : (t.world.instanceOf o).executing = true
  unasked : (t.world.instanceOf o).clearRequested = false
  tree : (t.world.instanceOf o).tree = running
  vouches : running.IsOnce k → t.env.Vouches k (t.world.acts o)

/-- A computation of ticks keeps an instance vouching for its node. -/
abbrev TickM.Minds (o : Tag) (k : NodeId) (w₀ : World σ) (running : Tree) : TickM.Relation σ :=
  TickM.Sustains o running (Tick.Minded o k w₀ running)

namespace Tick.Minded

variable {running : Tree} {u : Tick σ} (h : u.Minded o k w₀ running)
include h

theorem edit (env : Env) (he : env.privates = u.env.privates) : Tick.Minded o k w₀ running { u with env } :=
  ⟨h.lasts, h.later, h.given, h.executing, h.unasked, h.tree, fun honce => (h.vouches honce).edit he⟩

theorem unmoved (hs : w.Lasts) (hu : u.world.Unmoved o k w) : Tick.Minded o k w₀ running { u with world := w } := by
  refine ⟨hs, Nat.le_trans h.later hu.later, Nat.lt_of_lt_of_le h.given hu.later, hu.executing.trans h.executing,
    hu.unasked h.unasked, hu.tree.trans h.tree, fun honce => ?_⟩
  obtain ⟨acts, hacts, hfree⟩ := hu.acts
  change u.env.Vouches k (w.acts o)
  rw [hacts]
  exact (h.vouches honce).append hfree

theorem observe {a : Activity} (ha : ∀ resumed, a ≠ .called k resumed) :
    Tick.Minded o k w₀ running { u with world := u.world.observe o a } :=
  h.unmoved (h.lasts.observe h.given a) (.observe ha)

/-- If the node does not run its child once, there is nothing to vouch for. -/
theorem idly (hn : ¬ running.IsOnce k) (a : Activity) :
    Tick.Minded o k w₀ running { u with world := u.world.observe o a } :=
  ⟨h.lasts.observe h.given a, h.later, h.given, h.executing, h.unasked, h.tree, fun honce => absurd honce hn⟩

/-- The node is called, and returns at once. If it was called afresh, it has started before, and fails. -/
theorem bounced {resumed : Bool} {status : Option Status} {env : Env}
    (hs : resumed = false → u.env.Spent k ∧ status = some .failure) (he : env.privates = u.env.privates) :
    Tick.Minded o k w₀ running ⟨env, (u.world.observe o (.called k resumed)).observe o (.returned k status)⟩ := by
  refine ⟨(h.lasts.observe h.given _).observe h.given _, h.later, h.given, h.executing, h.unasked, h.tree, ?_⟩
  intro honce
  change env.Vouches k (((u.world.observe o (.called k resumed)).observe o (.returned k status)).acts o)
  rw [World.acts_observe, World.acts_observe, if_pos rfl, if_pos rfl, List.append_assoc]
  exact ((h.vouches honce).bounce hs).edit he

/-- The node is called afresh for the first time, and from now on that is remembered. -/
theorem started {env : Env} (hs : ¬ u.env.Spent k) (he : env.Spent k) :
    Tick.Minded o k w₀ running ⟨env, u.world.observe o (.called k false)⟩ := by
  refine ⟨h.lasts.observe h.given _, h.later, h.given, h.executing, h.unasked, h.tree, fun honce => ?_⟩
  change env.Vouches k ((u.world.observe o (.called k false)).acts o)
  rw [World.acts_observe, if_pos rfl]
  exact (h.vouches honce).start hs he

/-- A node returns to its caller's slots, and that is seen. -/
theorem returned (env : Env) (id : NodeId) (status : Option Status) : Tick.Minded o k w₀ running
    ⟨{ u.env with input := env.input, output := env.output }, u.world.observe o (.returned id status)⟩ :=
  Tick.Minded.observe (h.edit { u.env with input := env.input, output := env.output } rfl) fun _ => nofun

end Tick.Minded

namespace TickM

variable {running : Tree}

theorem correspondence_minds : TickM.Correspondence o (fun _ => True) (fun n => ∃ i, running.get? i = some n)
    (TickM.Minds o k w₀ running) := by
  have hrespects : TickM.Respects o (fun _ => True) (fun n => ∃ i, running.get? i = some n)
      (TickM.Minds o k w₀ running) := by
    refine respects_sustains (fun _ hp hu => hu.edit _ hp) (fun {t i n} name _ hget hvalue hu => ?_)
      (fun he hu => hu.unmoved (hu.lasts.record fun p => .inr (he p)) (.unseen (he o)))
      (fun {u} hu => ?_) fun {u} span job hu => ?_
    · refine ⟨hu.lasts, hu.later, hu.given, hu.executing, hu.unasked, hu.tree, fun honce => ?_⟩
      exact (hu.vouches honce).setPrivate name fun hid => hvalue (honce i n hget hid)
    · have hasked := hu.observe (a := .requested false) fun _ => nofun
      exact hasked.unmoved (hasked.lasts.modify hasked.given _)
        (.modify_self (fun _ => rfl) (fun _ => rfl) (fun _ => rfl) fun _ => id)
    · refine hu.unmoved (hu.lasts.delay span o ?_ trivial) (.of_eq (Nat.le_refl _) rfl rfl)
      rintro _ ⟨⟩
      exact ⟨rfl, hu.given⟩
  have hreturned : ∀ (id : NodeId) (status : Option Status),
      TickM.Relation.Self (TickM.Minds o k w₀ running) (TickM.observe (.returned id status)) :=
    fun _ _ _ hu => hu.observe fun _ => nofun
  refine { hrespects with
    returned := fun status _ _ => hreturned _ status
    listens := fun {n event} _ hn hb => hrespects.listens hn hb (hreturned _) fun target _ u hu => ?_ }
  unfold Engine.startListening TickM.child TickM.element
  cases n.toSite.children[0]? with
  | none => exact trivial
  | some c =>
    have hfiled := hu.unmoved (hu.lasts.subscribe ⟨event, target⟩ o (l := .node o n.id c) ?_ trivial)
      (.of_eq (Nat.le_refl _) rfl rfl)
    · have hreported := hfiled.unmoved (hfiled.lasts.record (e := .report (.listening running.name n.id event))
        fun _ => .inr rfl) (.unseen rfl)
      exact hreported.edit _ rfl
    · rintro _ ⟨⟩
      exact ⟨rfl, hu.given⟩

end TickM

namespace Engine.Relates

variable {e : Engine σ} {running : Tree} {u : Tick σ}

/-- A node that runs its child once does so, if it has not done so before. -/
theorem minds_once {n : Node}
    (he : Engine.Relates o (fun _ => True) (fun n => ∃ i, running.get? i = some n) (TickM.Minds o n.id w₀ running) e e)
    (hb : n.behavior = .once) (hu : u.Minded o n.id w₀ running) :
    (e.runFramed n (u.env.isSuspended n.id) ⟨o, running⟩ u).Leaves (Tick.Minded o n.id w₀ running) := by
  refine Engine.leaves_runFramed (fun r => he.takeUp n _ r) ?_
  rw [hb]
  cases hs : u.env.isSuspended n.id with
  | true =>
    have hresumed := once_suspended (e := e) (s := n.toSite) (c := ⟨o, running⟩) (t := u.opened ⟨o, running⟩ n true) hs
    refine hresumed.mono (fun status v hv => ?_) fun _ v hv => ?_
    · rw [hv.1]
      exact hu.bounced nofun hv.2
    · rw [hv.1]
      exact hu.bounced nofun hv.2
  | false =>
    change (e.once n.toSite ⟨o, running⟩ (u.opened ⟨o, running⟩ n false)).Meets _ _ _
    by_cases hp : u.env.Spent n.id
    · rw [once_spent (s := n.toSite) (t := u.opened ⟨o, running⟩ n false) hs hp]
      exact hu.bounced (fun _ => ⟨hp, rfl⟩) rfl
    · rw [once_fresh (s := n.toSite) (t := u.opened ⟨o, running⟩ n false) hs hp]
      have hspent := Env.spent_setPrivate (u.opened ⟨o, running⟩ n false).env n.id
      have hwrapped := he.wrap n.toSite id (hu.started hp hspent)
      exact hwrapped.meets (fun status _ hv => hv.returned u.env n.id (some status)) fun _ _ hv =>
        hv.returned u.env n.id none

end Engine.Relates

end BehaviorTree
