import BehaviorTree.Proofs.Life.Passage
import BehaviorTree.Proofs.World.Roster

/-!
An instance that nobody else has a hand in. Those who subscribe under its tag are its own nodes, and it is there before any
of them does; the host keeps its hands off. What others do to a world then leaves alone what the instance is listening to,
and the subscriptions of its tag.
-/

namespace BehaviorTree
set_option autoImplicit false

variable {σ : Type} {o p : Tag} {w w' w'' : World σ}

/-! ### What has been seen of a node -/

namespace Activity

/-- A node has returned success, and what was suspended has not been dropped since. -/
def Succeeded (l : NodeId) (acts : List Activity) : Prop :=
  ∃ pre post, acts = pre ++ .returned l (some .success) :: post ∧ .unwound ∉ post

variable {l : NodeId} {acts : List Activity} {a : Activity}

theorem not_succeeded_nil : ¬ Succeeded l [] := by
  rintro ⟨pre, post, h, -⟩
  simp at h

theorem succeeded_concat :
    Succeeded l (acts ++ [a]) ↔ a = .returned l (some .success) ∨ a ≠ .unwound ∧ Succeeded l acts := by
  constructor
  · rintro ⟨pre, post, h, hpost⟩
    obtain rfl | ⟨post, b, rfl⟩ := List.eq_nil_or_concat post
    · exact .inl (List.singleton_inj.mp (List.append_inj' h rfl).2)
    · rw [List.concat_eq_append, ← List.cons_append, ← List.append_assoc] at h
      obtain ⟨hacts, hlast⟩ := List.append_inj' h rfl
      obtain rfl := List.singleton_inj.mp hlast
      rw [List.concat_eq_append, List.mem_append, List.mem_singleton, not_or] at hpost
      exact .inr ⟨Ne.symm hpost.2, pre, post, hacts, hpost.1⟩
  · rintro (rfl | ⟨ha, pre, post, rfl, hpost⟩)
    · exact ⟨acts, [], rfl, List.not_mem_nil⟩
    · refine ⟨pre, post ++ [a], by simp, ?_⟩
      rw [List.mem_append, List.mem_singleton, not_or]
      exact ⟨hpost, Ne.symm ha⟩

theorem not_succeeded_unwound : ¬ Succeeded l (acts ++ [.unwound]) := by
  rw [succeeded_concat]
  rintro (h | ⟨h, -⟩)
  · cases h
  · exact h rfl

end Activity

/-! ### Worlds in which an instance is spared -/

namespace World

/-- Nobody but an instance has a hand in its subscriptions: those of its tag are its nodes', and neither they nor its jobs
are called before it is there. -/
structure Spared (o : Tag) (w : World σ) : Prop where
  listed : ∃ r, w.subscriptions.Lists r
  owned {id : SubscriptionId} {e : Subscription (Listener σ)} :
    w.subscriptions.entries[id]? = some e → (e.tag = o ↔ e.callback.owner? = some o)
  subscribed {id : SubscriptionId} {e : Subscription (Listener σ)} :
    w.subscriptions.entries[id]? = some e → e.callback.owner? = some o → o.index < w.nextTag
  delayed {id : DelayId} {e : PendingDelay (Alarm σ)} :
    w.delays.pending[id]? = some e → e.callback.owner? = some o → o.index < w.nextTag
  unborn : w.nextTag ≤ o.index → w.instances[o]? = none ∧ w.acts o = []
  kept : (w.instanceOf o).dropped = false

structure Untouched (o : Tag) (w w' : World σ) : Prop where
  later : w.nextTag ≤ w'.nextTag
  entries {id : SubscriptionId} {e : Subscription (Listener σ)} : e.tag = o →
    (w'.subscriptions.entries[id]? = some e ↔ w.subscriptions.entries[id]? = some e)
  executing : (w'.instanceOf o).executing = (w.instanceOf o).executing
  tree : (w'.instanceOf o).tree = (w.instanceOf o).tree
  listening : (w'.instanceOf o).env.listening = (w.instanceOf o).env.listening
  acts {l : NodeId} : Activity.Succeeded l (w'.acts o) → Activity.Succeeded l (w.acts o)

theorem create_eq (w : World σ) (tree : Tree) (vars : Variables) :
    (w.create tree vars).2 = w.newTag.2.modifyInstance ⟨w.nextTag⟩ fun _ => { tree, env := { vars } } := rfl

namespace Untouched

theorem refl (o : Tag) (w : World σ) : w.Untouched o w :=
  ⟨Nat.le_refl _, fun _ => Iff.rfl, rfl, rfl, rfl, id⟩

theorem trans (h : w.Untouched o w') (h' : w'.Untouched o w'') : w.Untouched o w'' where
  later := Nat.le_trans h.later h'.later
  entries ht := (h'.entries ht).trans (h.entries ht)
  executing := h'.executing.trans h.executing
  tree := h'.tree.trans h.tree
  listening := h'.listening.trans h.listening
  acts hl := h.acts (h'.acts hl)

theorem of_eq (hn : w.nextTag ≤ w'.nextTag) (hs : w'.subscriptions = w.subscriptions)
    (hi : w'.instanceOf o = w.instanceOf o) (ha : w'.acts o = w.acts o) : w.Untouched o w' := by
  refine ⟨hn, fun _ => by rw [hs], ?_, ?_, ?_, ?_⟩
  · rw [hi]
  · rw [hi]
  · rw [hi]
  · rw [ha]
    exact id

theorem record {e : Entry} (he : ∀ l, e.of? o ≠ some (.returned l (some .success))) : w.Untouched o (w.record e) := by
  refine ⟨Nat.le_refl _, fun _ => Iff.rfl, rfl, rfl, rfl, ?_⟩
  intro l hl
  rw [acts_record] at hl
  cases ha : e.of? o with
  | none => rwa [ha, Option.toList_none, List.append_nil] at hl
  | some a =>
    rw [ha, Option.toList_some, Activity.succeeded_concat] at hl
    exact (hl.resolve_left fun hr => he l (ha.trans (congrArg some hr))).2

theorem report (r : Report) : w.Untouched o (w.report r) := record fun _ => nofun

theorem observe {a : Activity} (ha : ∀ l, a ≠ .returned l (some .success)) : w.Untouched o (w.observe p a) := by
  refine record (e := .activity p a) fun l => ?_
  rw [Entry.of?]
  split
  · exact fun he => ha l (Option.some.inj he)
  · simp

theorem modify_other (hp : o ≠ p) (f : Instance → Instance) : w.Untouched o (w.modifyInstance p f) :=
  .of_eq (Nat.le_refl _) rfl (instanceOf_modifyInstance_of_ne hp f) (acts_modifyInstance w f p o)

/-- Something happens to the instance that changes neither its tree nor who is listening, nor whether it executes. -/
theorem modify_self {f : Instance → Instance} (he : ∀ i, (f i).executing = i.executing) (ht : ∀ i, (f i).tree = i.tree)
    (hl : ∀ i, (f i).env.listening = i.env.listening) : w.Untouched o (w.modifyInstance o f) := by
  refine ⟨Nat.le_refl _, fun _ => Iff.rfl, ?_, ?_, ?_, ?_⟩
  · rw [instanceOf_modifyInstance_self, he]
  · rw [instanceOf_modifyInstance_self, ht]
  · rw [instanceOf_modifyInstance_self, hl]
  · rw [acts_modifyInstance]
    exact id

theorem create (ho : o ≠ ⟨w.nextTag⟩) (tree : Tree) (vars : Variables) : w.Untouched o (w.create tree vars).2 := by
  have hgiven : w.Untouched o w.newTag.2 := .of_eq (Nat.le_succ _) rfl rfl rfl
  rw [create_eq]
  exact hgiven.trans (.modify_other ho _)

end Untouched

namespace Spared

variable (h : w.Spared o)
include h

/-- Of what is filed in the end, all that is new is filed for the instance only if that is there. -/
theorem next (hl : ∃ r, w'.subscriptions.Lists r) (hn : w.nextTag ≤ w'.nextTag)
    (hs : ∀ (id : SubscriptionId) (e : Subscription (Listener σ)), w'.subscriptions.entries[id]? = some e →
      w.subscriptions.entries[id]? = some e ∨
        (e.tag = o ↔ e.callback.owner? = some o) ∧ (e.callback.owner? = some o → o.index < w'.nextTag))
    (hd : ∀ (id : DelayId) (e : PendingDelay (Alarm σ)), w'.delays.pending[id]? = some e →
      w.delays.pending[id]? = some e ∨ (e.callback.owner? = some o → o.index < w'.nextTag))
    (hb : w'.nextTag ≤ o.index → w'.instances[o]? = none ∧ w'.acts o = [])
    (hi : (w'.instanceOf o).dropped = false) : w'.Spared o where
  listed := hl
  owned he := (hs _ _ he).elim h.owned And.left
  subscribed he := (hs _ _ he).elim (fun hold howner => Nat.lt_of_lt_of_le (h.subscribed hold howner) hn) And.right
  delayed he := (hd _ _ he).elim (fun hold howner => Nat.lt_of_lt_of_le (h.delayed hold howner) hn) id
  unborn := hb
  kept := hi

theorem of_eq (hs : w'.subscriptions = w.subscriptions) (hd : w'.delays = w.delays) (hn : w.nextTag ≤ w'.nextTag)
    (hb : w'.nextTag ≤ o.index → w'.instances[o]? = none ∧ w'.acts o = [])
    (hi : (w'.instanceOf o).dropped = false) : w'.Spared o :=
  h.next (hs ▸ h.listed) hn (fun _ _ he => .inl (hs ▸ he)) (fun _ _ he => .inl (hd ▸ he)) hb hi

theorem given (ho : w.instances.contains o = true) : o.index < w.nextTag := by
  apply Nat.lt_of_not_le
  intro hn
  rw [Std.ExtTreeMap.contains_eq_isSome_getElem?, (h.unborn hn).1] at ho
  cases ho

/-- Something is recorded, and not before the instance is there if it is about that. -/
theorem record {e : Entry} (he : o.index < w.nextTag ∨ e.of? o = none) : (w.record e).Spared o := by
  refine h.of_eq rfl rfl (Nat.le_refl _) (fun hn => ?_) h.kept
  have hnone := he.resolve_left (Nat.not_lt.mpr hn)
  refine ⟨(h.unborn hn).1, ?_⟩
  rw [acts_record, (h.unborn hn).2, hnone]
  rfl

theorem report (r : Report) : (w.report r).Spared o := h.record (.inr rfl)

/-- Something happens to the instance itself, which is not given up. -/
theorem modify_self (ho : o.index < w.nextTag) {f : Instance → Instance} (hf : (f (w.instanceOf o)).dropped = false) :
    (w.modifyInstance o f).Spared o := by
  refine h.of_eq rfl rfl (Nat.le_refl _) (fun hn => absurd ho (Nat.not_lt.mpr hn)) ?_
  rw [instanceOf_modifyInstance_self]
  exact hf

theorem modify_other (hp : o ≠ p) (f : Instance → Instance) : (w.modifyInstance p f).Spared o := by
  refine h.of_eq rfl rfl (Nat.le_refl _) (fun hn => ⟨?_, ?_⟩) ?_
  · rw [modifyInstance, setInstance, Std.ExtTreeMap.getElem?_insert, if_neg]
    · exact (h.unborn hn).1
    · rw [Std.LawfulEqCmp.compare_eq_iff_eq]
      exact Ne.symm hp
  · rw [acts_modifyInstance]
    exact (h.unborn hn).2
  · rw [instanceOf_modifyInstance_of_ne hp]
    exact h.kept

theorem store (host : σ) : ({ w with host } : World σ).Spared o :=
  h.of_eq rfl rfl (Nat.le_refl _) h.unborn h.kept

theorem install (code : String) (f : Lookup → Except ExprError Value) : (w.install code f).Spared o :=
  h.of_eq rfl rfl (Nat.le_refl _) h.unborn h.kept

theorem newTag : w.newTag.2.Spared o :=
  h.of_eq rfl rfl (Nat.le_succ _) (fun hn => h.unborn (Nat.le_of_succ_le hn)) h.kept

theorem create (tree : Tree) (vars : Variables) : (w.create tree vars).2.Spared o := by
  rw [create_eq]
  by_cases ho : o = ⟨w.nextTag⟩
  · subst ho
    exact h.newTag.modify_self (Nat.lt_succ_self _) rfl
  · exact h.newTag.modify_other ho _

theorem fresh {id : SubscriptionId} {e : Subscription (Listener σ)} (he : w.subscriptions.entries[id]? = some e) :
    (⟨w.subscriptions.nextIndex⟩ : SubscriptionId) ≠ id := by
  obtain ⟨r, hr⟩ := h.listed
  rintro rfl
  exact Nat.lt_irrefl _ (hr.given he)

/-- Someone subscribes, but a node of the instance under its tag, and nobody else under it. -/
theorem subscribe (key : EventKey) {tag : Tag} {l : Listener σ} (ht : tag = o ↔ l.owner? = some o)
    (hl : l.owner? = some o → o.index < w.nextTag) : (w.subscribe key tag l).2.Spared o := by
  obtain ⟨r, hr⟩ := h.listed
  refine h.next ⟨_, (hr.add key tag l).2⟩ (Nat.le_refl _) ?_ (fun _ _ => .inl) h.unborn h.kept
  intro id e he
  change (w.subscriptions.add key tag l).2.entries[id]? = some e at he
  rw [Subscriptions.entries_add] at he
  split at he
  · obtain rfl := Option.some.inj he
    exact .inr ⟨ht, hl⟩
  · exact .inl he

theorem untouched_subscribe (key : EventKey) {tag : Tag} (l : Listener σ) (ht : tag ≠ o) :
    w.Untouched o (w.subscribe key tag l).2 := by
  refine ⟨Nat.le_refl _, ?_, rfl, rfl, rfl, id⟩
  intro id e he
  change (w.subscriptions.add key tag l).2.entries[id]? = some e ↔ _
  rw [Subscriptions.entries_add]
  split
  · rename_i hid
    refine iff_of_false ?_ fun hold => h.fresh hold hid
    intro hnew
    obtain rfl := Option.some.inj hnew
    exact ht he
  · exact Iff.rfl

theorem delay (span : Float) (tag : Tag) {a : Alarm σ} (ha : a.owner? = some o → o.index < w.nextTag) :
    (w.delay span tag a).2.Spared o := by
  refine h.next h.listed (Nat.le_refl _) (fun _ _ => .inl) ?_ h.unborn h.kept
  intro id e he
  change (w.delays.schedule (w.time + span) tag a).2.pending[id]? = some e at he
  rw [Delays.pending_schedule] at he
  split at he
  · obtain rfl := Option.some.inj he
    exact .inr ha
  · exact .inl he

theorem expire (now : Float) {d : Delays (Alarm σ)} (hd : ∀ (id : DelayId) (e : PendingDelay (Alarm σ)),
      d.pending[id]? = some e → w.delays.pending[id]? = some e) :
    ({ w with time := now, delays := d } : World σ).Spared o :=
  h.next h.listed (Nat.le_refl _) (fun _ _ => .inl) (fun _ _ he => .inl (hd _ _ he)) h.unborn h.kept

end Spared

section Removal

variable {r : Roster (Listener σ)} {s : Subscriptions (Listener σ)}
  {keep : SubscriptionId × Subscription (Listener σ) → Bool}

theorem entries_struck (hr : w.subscriptions.Lists r) (hs : s.Lists { r with members := r.members.filter keep })
    {id : SubscriptionId} {e : Subscription (Listener σ)} :
    s.entries[id]? = some e ↔ w.subscriptions.entries[id]? = some e ∧ keep (id, e) = true := by
  rw [hs.entries, hr.entries, List.mem_filter]

theorem Spared.unsubscribe (h : w.Spared o) (hr : w.subscriptions.Lists r)
    (hs : s.Lists { r with members := r.members.filter keep }) : ({ w with subscriptions := s } : World σ).Spared o :=
  h.next ⟨_, hs⟩ (Nat.le_refl _) (fun _ _ he => .inl ((entries_struck hr hs).mp he).1) (fun _ _ => .inl) h.unborn h.kept

theorem untouched_unsubscribe (hr : w.subscriptions.Lists r)
    (hs : s.Lists { r with members := r.members.filter keep })
    (hkeep : ∀ (id : SubscriptionId) (e : Subscription (Listener σ)), w.subscriptions.entries[id]? = some e →
      e.tag = o → keep (id, e) = true) : w.Untouched o { w with subscriptions := s } := by
  refine ⟨Nat.le_refl _, ?_, rfl, rfl, rfl, id⟩
  intro id e ht
  change s.entries[id]? = some e ↔ _
  rw [entries_struck hr hs, and_iff_left_iff_imp]
  exact fun he => hkeep id e he ht

end Removal

theorem Spared.releaseTag (h : w.Spared o) (tag : Tag) : (w.releaseTag tag).Spared o := by
  obtain ⟨r, hr⟩ := h.listed
  have hlisted : ∃ r, (w.releaseTag tag).subscriptions.Lists r := by
    rw [subscriptions_releaseTag]
    exact ⟨_, (hr.removeOwner tag).2⟩
  have hn := Nat.le_of_eq (nextTag_releaseTag w tag).symm
  refine h.next hlisted hn (fun id e he => .inl ?_) (fun id e he => .inl ?_) (fun hn => ?_) ?_
  · rw [subscriptions_releaseTag] at he
    exact ((entries_struck hr (hr.removeOwner tag).2).mp he).1
  · rw [delays_releaseTag, Delays.pending_cancelOwner_eq] at he
    exact Delays.pending_of_takeEach he
  · rw [nextTag_releaseTag] at hn
    rw [instances_releaseTag, acts_releaseTag]
    exact h.unborn hn
  · rw [instanceOf_releaseTag]
    exact h.kept

theorem Spared.untouched_releaseTag (h : w.Spared o) {tag : Tag} (ht : tag ≠ o) :
    w.Untouched o (w.releaseTag tag) := by
  obtain ⟨r, hr⟩ := h.listed
  have hsame := instanceOf_releaseTag w tag o
  refine ⟨Nat.le_of_eq (nextTag_releaseTag w tag).symm, fun {id e} he => ?_, ?_, ?_, ?_, ?_⟩
  · rw [subscriptions_releaseTag]
    refine (entries_struck hr (hr.removeOwner tag).2).trans (and_iff_left_of_imp fun _ => ?_)
    simpa [he] using Ne.symm ht
  · rw [hsame]
  · rw [hsame]
  · rw [hsame]
  · rw [acts_releaseTag]
    exact id

end World

end BehaviorTree
