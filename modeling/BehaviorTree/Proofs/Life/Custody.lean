import BehaviorTree.Proofs.Life.Conduct
import BehaviorTree.Proofs.Life.Sparing

/-!
What an instance is listening to is filed twice: in its own state, by node, and among the subscriptions of the world,
under its tag. While a tick or a job has its state, its listening nodes keep the two in agreement, as long as nobody else
has a hand in them.
-/

namespace BehaviorTree
set_option autoImplicit false

open Std

variable {σ : Type} {o : Tag} {w₀ w w' : World σ} {t : Tree} {listening : ExtTreeSet NodeId}
  {l : NodeId} {b : Bool}

/-! ### The two sides -/

/-- A subscription is that of a listening node of a tree: to the event of the node, under the tag of the instance, and
for the child of the node. -/
def Tree.Makes (t : Tree) (o : Tag) (l : NodeId) (e : Subscription (Listener σ)) : Prop :=
  e.tag = o ∧ e.key.Heard o ∧ ∃ i n c, t.get? i = some n ∧ n.id = l ∧ n.behavior = .listen e.key.name ∧
    n.children[0]? = some c ∧ e.callback = .node o l c

/-- Every node with this id is a listening node. -/
def Tree.IsListener (t : Tree) (l : NodeId) : Prop :=
  ∀ i n, t.get? i = some n → n.id = l → ∃ event, n.behavior = .listen event

namespace World

/-- Each of the nodes that are listening has made one subscription of the tag, and nobody else has made any. -/
structure Tally (o : Tag) (w : World σ) (t : Tree) (listening : ExtTreeSet NodeId) : Prop where
  made {id : SubscriptionId} {e : Subscription (Listener σ)} :
    w.subscriptions.entries[id]? = some e → e.tag = o → ∃ l ∈ listening, t.Makes o l e
  live {l : NodeId} : l ∈ listening → ∃ (id : SubscriptionId) (e : Subscription (Listener σ)),
    w.subscriptions.entries[id]? = some e ∧ t.Makes o l e
  once {id id' : SubscriptionId} {e e' : Subscription (Listener σ)} {l c c' : NodeId} :
    w.subscriptions.entries[id]? = some e → w.subscriptions.entries[id']? = some e' → e.tag = o → e'.tag = o →
      e.callback = .node o l c → e'.callback = .node o l c' → id = id'

/-- What a state and a world have of who is listening agrees; `b` tells whether the subscriptions do as well. In any case
those nodes are listening that have returned success. -/
structure Custody (o : Tag) (b : Bool) (w : World σ) (t : Tree) (listening : ExtTreeSet NodeId) : Prop where
  tally : b = true → w.Tally o t listening
  told {l : NodeId} : Activity.Succeeded l (w.acts o) → t.IsListener l → l ∈ listening

theorem Tally.untouched (h : w.Tally o t listening) (hu : w.Untouched o w') : w'.Tally o t listening where
  made he ht := h.made ((hu.entries ht).mp he) ht
  live hl := by
    obtain ⟨id, e, he, hm⟩ := h.live hl
    exact ⟨id, e, (hu.entries hm.1).mpr he, hm⟩
  once he he' ht ht' := h.once ((hu.entries ht).mp he) ((hu.entries ht').mp he') ht ht'

theorem Custody.untouched (h : w.Custody o b t listening) (hu : w.Untouched o w') : w'.Custody o b t listening :=
  ⟨fun hb => (h.tally hb).untouched hu, fun hl => h.told (hu.acts hl)⟩

theorem Custody.modify (h : w.Custody o b t listening) (p : Tag) (f : Instance → Instance) :
    (w.modifyInstance p f).Custody o b t listening :=
  ⟨fun hb => ⟨(h.tally hb).made, (h.tally hb).live, (h.tally hb).once⟩,
    fun hs => h.told (acts_modifyInstance w f p o ▸ hs)⟩

theorem custody_bare
    (he : ∀ (id : SubscriptionId) (e : Subscription (Listener σ)), w.subscriptions.entries[id]? = some e → e.tag ≠ o)
    (ha : ∀ l, ¬ Activity.Succeeded l (w.acts o)) : w.Custody o b t ∅ where
  tally _ :=
    { made := fun hentry ht => absurd ht (he _ _ hentry)
      live := fun hl => absurd hl ExtTreeSet.not_mem_empty
      once := fun hentry _ ht => absurd ht (he _ _ hentry) }
  told hl := absurd hl (ha _)

theorem Tally.subscribe (h : w.Tally o t listening) (hw : w.Spared o) {key : EventKey} {l c : NodeId}
    (hm : t.Makes (σ := σ) o l ⟨key, o, .node o l c⟩) (hl : l ∉ listening) :
    (w.subscribe key o (.node o l c)).2.Tally o t (listening.insert l) := by
  have hentries : ∀ (id : SubscriptionId) (e : Subscription (Listener σ)),
      (w.subscribe key o (.node o l c)).2.subscriptions.entries[id]? = some e →
        (⟨w.subscriptions.nextIndex⟩ : SubscriptionId) = id ∧ e = ⟨key, o, .node o l c⟩ ∨
          w.subscriptions.entries[id]? = some e := by
    intro id e he
    change (w.subscriptions.add key o (.node o l c)).2.entries[id]? = some e at he
    rw [Subscriptions.entries_add] at he
    split at he
    · rename_i hid
      exact .inl ⟨hid, (Option.some.inj he).symm⟩
    · exact .inr he
  -- nobody else has subscribed for this node
  have hnew : ∀ (id : SubscriptionId) (e : Subscription (Listener σ)) (c' : NodeId),
      w.subscriptions.entries[id]? = some e → e.tag = o → e.callback ≠ .node o l c' := by
    intro id e c' he ht hc
    obtain ⟨l', hl', -, -, _, _, c'', -, -, -, -, hc'⟩ := h.made he ht
    obtain ⟨-, rfl, -⟩ := Listener.node.inj (hc.symm.trans hc')
    exact hl hl'
  refine ⟨?_, ?_, ?_⟩
  · intro id e he ht
    rcases hentries id e he with ⟨-, rfl⟩ | he
    · exact ⟨l, ExtTreeSet.mem_insert_self, hm⟩
    · obtain ⟨l', hl', hm'⟩ := h.made he ht
      exact ⟨l', ExtTreeSet.mem_insert.mpr (.inr hl'), hm'⟩
  · intro l' hl'
    rcases ExtTreeSet.mem_insert.mp hl' with heq | hl'
    · obtain rfl := LawfulEqCmp.eq_of_compare heq
      refine ⟨⟨w.subscriptions.nextIndex⟩, _, ?_, hm⟩
      change (w.subscriptions.add key o (.node o l c)).2.entries[_]? = _
      rw [Subscriptions.entries_add, if_pos rfl]
    · obtain ⟨id, e, he, hm'⟩ := h.live hl'
      refine ⟨id, e, ?_, hm'⟩
      change (w.subscriptions.add key o (.node o l c)).2.entries[_]? = _
      rw [Subscriptions.entries_add, if_neg (hw.fresh he)]
      exact he
  · intro id id' e e' l' c₁ c₂ he he' ht ht' hc hc'
    rcases hentries id e he with ⟨rfl, rfl⟩ | he
    · rcases hentries id' e' he' with ⟨rfl, -⟩ | he'
      · rfl
      · obtain ⟨-, rfl, -⟩ := Listener.node.inj hc
        exact absurd hc' (hnew id' e' c₂ he' ht')
    · rcases hentries id' e' he' with ⟨rfl, rfl⟩ | he'
      · obtain ⟨-, rfl, -⟩ := Listener.node.inj hc'
        exact absurd hc (hnew id e c₁ he ht)
      · exact h.once he he' ht ht' hc hc'

end World

/-! ### Ticks -/

/-- A tick or job has the state of an instance that is spared, and what that and the world have agrees. -/
structure Tick.Lent (o : Tag) (w₀ : World σ) (b : Bool) (running : Tree) (t : Tick σ) :
    Prop where
  spared : t.world.Spared o
  later : w₀.nextTag ≤ t.world.nextTag
  given : o.index < t.world.nextTag
  executing : (t.world.instanceOf o).executing = true
  tree : (t.world.instanceOf o).tree = running
  custody : t.world.Custody o b running t.env.listening

def TickM.Keeps (o : Tag) (w₀ : World σ) (b : Bool) (running : Tree) :
    TickM.Relation σ := fun _ m _ =>
  ∀ ⦃t : Tick σ⦄, t.Lent o w₀ b running → (m ⟨o, running⟩ t).Leaves (Tick.Lent o w₀ b running)

namespace Tick.Lent

variable {running : Tree} {u : Tick σ} (h : u.Lent o w₀ b running)
include h

theorem edit {env : Env} (he : env.listening = u.env.listening) : Tick.Lent o w₀ b running { u with env } := by
  refine ⟨h.spared, h.later, h.given, h.executing, h.tree, ?_⟩
  rw [he]
  exact h.custody

theorem untouched (hw : w.Spared o) (hu : u.world.Untouched o w) :
    Tick.Lent o w₀ b running { u with world := w } :=
  ⟨hw, Nat.le_trans h.later hu.later, Nat.lt_of_lt_of_le h.given hu.later, hu.executing.trans h.executing, hu.tree.trans h.tree,
    h.custody.untouched hu⟩

theorem record {e : Entry} (he : ∀ l, e.of? o ≠ some (.returned l (some .success))) :
    Tick.Lent o w₀ b running { u with world := u.world.record e } :=
  h.untouched (h.spared.record (.inl h.given)) (.record he)

theorem observe {a : Activity} (ha : ∀ l, a ≠ .returned l (some .success)) :
    Tick.Lent o w₀ b running { u with world := u.world.observe o a } :=
  h.untouched (h.spared.record (.inl h.given)) (.observe ha)

/-- A node that has no listening nodes' id returns, or one that is listening. -/
theorem returned {l : NodeId} {status : Option Status}
    (hl : status = some .success → running.IsListener l → l ∈ u.env.listening) :
    Tick.Lent o w₀ b running { u with world := u.world.observe o (.returned l status) } := by
  refine ⟨h.spared.record (.inl h.given), h.later, h.given, h.executing,
    h.tree, ?_, ?_⟩
  · exact fun hb => ⟨(h.custody.tally hb).made, (h.custody.tally hb).live, (h.custody.tally hb).once⟩
  · intro l' hl' hlistens
    rw [World.acts_observe, if_pos rfl, Activity.succeeded_concat] at hl'
    rcases hl' with heq | ⟨-, hold⟩
    · obtain ⟨rfl, rfl⟩ := Activity.returned.inj heq
      exact hl rfl hlistens
    · exact h.custody.told hold hlistens

theorem start {key : EventKey} {l c : NodeId} (hm : running.Makes (σ := σ) o l ⟨key, o, .node o l c⟩)
    (hl : l ∉ u.env.listening) :
    Tick.Lent o w₀ b running
      ⟨{ u.env with listening := u.env.listening.insert l }, (u.world.subscribe key o (.node o l c)).2⟩ where
  spared := h.spared.subscribe key (iff_of_true rfl rfl) fun _ => h.given
  later := h.later
  given := h.given
  executing := h.executing
  tree := h.tree
  custody :=
    { tally := fun hb => (h.custody.tally hb).subscribe h.spared hm hl
      told := fun hs hlistens => ExtTreeSet.mem_insert.mpr (.inr (h.custody.told hs hlistens)) }

end Tick.Lent

/-- What a computation yields, if it does not fail, is as described. -/
def Outcome.Yields {α : Type} (r : Outcome σ α) (Q : α → Tick σ → Prop) : Prop :=
  match r with
  | .ok a t => Q a t
  | .failed _ _ => False
  | .halted _ => True

namespace Engine

variable {running : Tree} {u : Tick σ}

theorem startListening_yields {site : Site} {event : String} {target : Option String} {Q : Status → Tick σ → Prop}
    (hstart : ∀ c : NodeId, site.children[0]? = some c →
        Q .success ⟨{ u.env with listening := u.env.listening.insert site.id },
          (u.world.subscribe ⟨event, target⟩ o (.node o site.id c)).2.report (.listening running.name site.id event)⟩) :
    (Engine.startListening site event target ⟨o, running⟩ u).Yields Q := by
  unfold Engine.startListening TickM.child TickM.element
  cases hc : site.children[0]? with
  | some c => exact hstart c hc
  | none => exact trivial

/-- A listening node finds itself listening, or begins to, or finds its target no string. -/
theorem listen_yields {site : Site} {event : String} {Q : Status → Tick σ → Prop}
    (hlistening : site.id ∈ u.env.listening → Q .success u)
    (hstart : ∀ (target : Option String) (c : NodeId), site.id ∉ u.env.listening → EventKey.Heard ⟨event, target⟩ o →
      site.children[0]? = some c →
        Q .success ⟨{ u.env with listening := u.env.listening.insert site.id },
          (u.world.subscribe ⟨event, target⟩ o (.node o site.id c)).2.report (.listening running.name site.id event)⟩)
    (hfailure : Q .failure { u with world := u.world.report (.notATarget running.name site.id) }) :
    (Engine.listen site event ⟨o, running⟩ u).Yields Q := by
  unfold Engine.listen
  simp only [TickM.bind_apply, TickM.env]
  split
  · rename_i hmem
    exact hlistening (ExtTreeSet.mem_iff_contains.mpr hmem)
  · rename_i hmem
    have hnot : site.id ∉ u.env.listening := fun hin => hmem (ExtTreeSet.mem_iff_contains.mp hin)
    split
    · have howner : ∀ f : Tag → TickM σ Status, (TickM.owner >>= f) ⟨o, running⟩ u = f o ⟨o, running⟩ u := fun _ => rfl
      rw [howner]
      exact startListening_yields fun c => hstart (some o.text) c hnot fun _ => rfl
    · rename_i hname
      have hheard : ∀ target, EventKey.Heard ⟨event, target⟩ o := fun _ hlifecycle => absurd hlifecycle hname
      simp only [TickM.bind_apply, Engine.target?, TickM.env]
      cases u.env.input? 0 with
      | none => exact startListening_yields fun c => hstart none c hnot (hheard _)
      | some v =>
        cases v with
        | string target => exact startListening_yields fun c => hstart (some target) c hnot (hheard _)
        | _ => exact hfailure

/-- A listening node that is attended to does not fail, and has its result seen. -/
theorem attend_leaves (e : Engine σ) {n : Node} {event : String} (hb : n.behavior = .listen event) {P : Tick σ → Prop}
    (h : (Engine.listen n.toSite event ⟨o, running⟩
        { u with env := { u.env with input := n.input.map u.env.get?, output := [] } }).Yields fun status v =>
      P ⟨{ v.env with input := u.env.input, output := u.env.output },
        v.world.observe o (.returned n.id (some status))⟩) : (e.attend n ⟨o, running⟩ u).Leaves P := by
  unfold Engine.attend Engine.withSlots
  rw [hb]
  simp only [TickM.bind_apply, TickM.env, TickM.modifyEnv, TickM.attempt_apply, Engine.behave]
  generalize Engine.listen n.toSite event ⟨o, running⟩
    { u with env := { u.env with input := n.input.map u.env.get?, output := [] } } = r at h
  cases r with
  | ok status v => exact h
  | failed err v => exact h.elim
  | halted halt => exact trivial

end Engine

namespace TickM

variable {running : Tree}

theorem respects_keeps : TickM.Respects o (fun _ => True) (fun n => ∃ i, running.get? i = some n)
    (TickM.Keeps o w₀ b running) := by
  refine respects_sustains (fun hl _ hu => hu.edit hl) (fun _ value _ _ hu => hu.edit (by cases value <;> rfl))
    (fun he hu => hu.record fun _ => by rw [he]; exact nofun) (fun {u} hu => ?_) fun {u} span job hu => ?_
  · have hasked := hu.observe (a := .requested false) fun _ => nofun
    refine hasked.untouched (hasked.spared.modify_self hasked.given hasked.spared.kept) ?_
    exact .modify_self (fun _ => rfl) (fun _ => rfl) fun _ => rfl
  · exact hu.untouched (hu.spared.delay span o fun _ => hu.given) (.of_eq (Nat.le_refl _) rfl rfl rfl)

theorem correspondence_keeps : TickM.Correspondence o (fun _ => True) (fun n => ∃ i, running.get? i = some n)
    (TickM.Keeps o w₀ b running) := by
  refine { respects_keeps with returned := ?_, listens := ?_ }
  · rintro n status ⟨i, hn⟩ hlisten u hu
    refine hu.returned fun _ hlistens => ?_
    obtain ⟨event, hb⟩ := hlistens i n hn rfl
    exact absurd hb (hlisten event)
  · rintro n event ⟨i, hn⟩ - hb e e' u hu
    have hopen : Tick.Lent o w₀ b running
        { u with env := { u.env with input := n.input.map u.env.get?, output := [] } } := hu.edit rfl
    have hclose : ∀ {v : Tick σ} {status : Status}, v.Lent o w₀ b running →
        (status = .success → n.id ∈ v.env.listening) → Tick.Lent o w₀ b running
          ⟨{ v.env with input := u.env.input, output := u.env.output },
            v.world.observe o (.returned n.id (some status))⟩ := by
      intro v status hv hl
      have hback : Tick.Lent o w₀ b running
          { v with env := { v.env with input := u.env.input, output := u.env.output } } := hv.edit rfl
      exact hback.returned fun hstatus _ => hl (Option.some.inj hstatus)
    apply Engine.attend_leaves e hb
    apply Engine.listen_yields
    · exact fun hlistening => hclose hopen fun _ => hlistening
    · intro target c hnot hheard hc
      have hm : running.Makes (σ := σ) o n.id ⟨⟨event, target⟩, o, .node o n.id c⟩ :=
        ⟨rfl, hheard, i, n, c, hn, rfl, hb, hc, rfl⟩
      have hstarted := (hopen.start hm hnot).record (e := .report (.listening running.name n.id event)) fun _ => nofun
      exact hclose hstarted fun _ => ExtTreeSet.mem_insert_self
    · exact hclose (hopen.record (e := .report _) fun _ => nofun) nofun

end TickM

end BehaviorTree
