import BehaviorTree.Proofs.Life.Hearing
import Mathlib.Data.List.DropRight
import Mathlib.Data.Set.Function
import Mathlib.Tactic.Choose

/-!
What a host finds between its operations. The nodes of an instance that are listening and the subscriptions of its tag are
in bijection, and a listening node that has returned success is heard once whenever its event is dispatched, until what is
suspended is dropped.
-/

namespace BehaviorTree
set_option autoImplicit false

open Std

variable {σ : Type} {o : Tag} {w w' : World σ} {t : Tree} {listening : ExtTreeSet NodeId} {l : NodeId}

theorem forall₂_append {α β : Type} {R : α → β → Prop} {as as' : List α} {bs : List β}
    (h : List.Forall₂ R (as ++ as') bs) : ∃ bs₁ bs₂, List.Forall₂ R as bs₁ ∧ List.Forall₂ R as' bs₂ ∧ bs = bs₁ ++ bs₂ := by
  induction as generalizing bs with
  | nil => exact ⟨[], bs, .nil, h, rfl⟩
  | cons a as ih =>
    obtain ⟨b, rest, hb, hrest, rfl⟩ := List.forall₂_cons_left_iff.mp h
    obtain ⟨bs₁, bs₂, h₁, h₂, rfl⟩ := ih hrest
    exact ⟨b :: bs₁, bs₂, .cons hb h₁, h₂, rfl⟩

namespace World

theorem Tally.bijOn (h : w.Tally o t listening) : ∃ f : NodeId → SubscriptionId,
    Set.BijOn f {l | l ∈ listening} {id | w.subscriptions.owner? id = some o} ∧
      ∀ l ∈ listening, ∃ e : Subscription (Listener σ), w.subscriptions.entries[f l]? = some e ∧ t.Makes o l e := by
  have hlive : ∀ l, ∃ id : SubscriptionId, l ∈ listening → ∃ e : Subscription (Listener σ),
      w.subscriptions.entries[id]? = some e ∧ t.Makes o l e := by
    intro l
    by_cases hl : l ∈ listening
    · obtain ⟨id, e, he, hm⟩ := h.live hl
      exact ⟨id, fun _ => ⟨e, he, hm⟩⟩
    · exact ⟨⟨0⟩, fun hl' => absurd hl' hl⟩
  choose f hf using hlive
  refine ⟨f, ⟨?_, ?_, ?_⟩, hf⟩
  · intro l hl
    obtain ⟨e, he, ht, -⟩ := hf l hl
    exact Option.map_eq_some_iff.mpr ⟨e, he, ht⟩
  · intro l hl l' hl' heq
    obtain ⟨e, he, -, -, _, _, c, -, -, -, -, hc⟩ := hf l hl
    obtain ⟨e', he', -, -, _, _, c', -, -, -, -, hc'⟩ := hf l' hl'
    obtain rfl : e = e' := Option.some.inj (he.symm.trans ((congrArg _ heq).trans he'))
    exact (Listener.node.inj (hc.symm.trans hc')).2.1
  · intro id howner
    obtain ⟨e, he, ht⟩ := Option.map_eq_some_iff.mp howner
    obtain ⟨l, hl, -, -, _, _, c, -, -, -, -, hc⟩ := h.made he ht
    obtain ⟨e', he', ht', -, _, _, c', -, -, -, -, hc'⟩ := hf l hl
    exact ⟨l, hl, h.once he' he ht' ht hc' hc⟩

/-- A listening node hears an event once: among those who hear it there is one listener of the node, and when the event is
dispatched this queues one job for the child of the node, which starts at once. -/
def HearsOnce (w : World σ) (o : Tag) (l : NodeId) (key : EventKey) : Prop :=
  ∃ (c : NodeId) (before after : List (Listener σ)),
    w.subscriptions.callbacks key = before ++ .node o l c :: after ∧ (∀ c', .node o l c' ∉ before ++ after) ∧
      ∀ (n : Nat) (args : List Value) (heard : Nat) (w' : World σ),
        ((Engine.ofDepth n).dispatch key args).run w = .ok (heard, w') → w'.Kept o →
          let event : Event := ⟨key.name, key.target, args⟩
          ∃ (parts parts' : List (List Activity)) (rest : List Activity),
            List.Forall₂ (Listener.Seen o event false) before parts ∧
            List.Forall₂ (Listener.Seen o event false) after parts' ∧
            w'.acts o = w.acts o ++ (parts.flatten ++
              (.queued (.fired l c event) :: .entered :: .started (.fired l c event) :: rest ++ parts'.flatten))

/-- Whose subscription is the only one of a node is found once among those who hear its event. -/
theorem Tally.listed (h : w.Tally o t listening) (hw : w.Spared o) {id : SubscriptionId}
    {e : Subscription (Listener σ)} {c : NodeId} (he : w.subscriptions.entries[id]? = some e)
    (hc : e.callback = .node o l c) : ∃ before after : List (Listener σ),
      w.subscriptions.callbacks e.key = before ++ .node o l c :: after ∧ ∀ c', .node o l c' ∉ before ++ after := by
  obtain ⟨r, hr⟩ := hw.listed
  have hmem : (id, e) ∈ r.members.filter (·.2.key = e.key) := List.mem_filter.mpr ⟨hr.entries.mp he, decide_eq_true rfl⟩
  obtain ⟨pre, post, hsplit⟩ := List.append_of_mem hmem
  refine ⟨pre.map (·.2.callback), post.map (·.2.callback), ?_, fun c' hin => ?_⟩
  · rw [hr.callbacks, hsplit, List.map_append, List.map_cons, hc]
  · -- another listener of the node would have the same id
    rw [← List.map_append] at hin
    obtain ⟨⟨id', e'⟩, hother, hc'⟩ := List.mem_map.mp hin
    have hfiled : (id', e') ∈ r.members.filter (·.2.key = e.key) := by
      rw [hsplit]
      exact List.mem_append.mpr ((List.mem_append.mp hother).imp_right (List.mem_cons_of_mem _))
    have he' := hr.entries.mpr (List.mem_of_mem_filter hfiled)
    have ht := (hw.owned he).mpr (hc ▸ rfl)
    have ht' := (hw.owned he').mpr (hc' ▸ rfl)
    obtain rfl : id = id' := h.once he he' ht ht' hc hc'
    have hdistinct : ((pre ++ (id, e) :: post).map (·.1)).Nodup :=
      hsplit ▸ hr.distinct.sublist (List.filter_sublist.map _)
    rw [List.map_append, List.map_cons, List.nodup_middle, List.nodup_cons, ← List.map_append] at hdistinct
    exact hdistinct.1 (List.mem_map.mpr ⟨_, hother, rfl⟩)

/-- A listening node that has a subscription hears its event once while the instance is idle. -/
theorem Tally.hearsOnce (h : w.Tally o t listening) (hw : w.Spared o) (hcoherent : w.Coherent)
    (hx : (w.instanceOf o).executing = false) {id : SubscriptionId} {e : Subscription (Listener σ)}
    (he : w.subscriptions.entries[id]? = some e) (hm : t.Makes o l e) : w.HearsOnce o l e.key := by
  obtain ⟨-, -, _, _, c, -, -, -, -, hc⟩ := hm
  obtain ⟨before, after, hsplit, honce⟩ := h.listed hw he hc
  refine ⟨c, before, after, hsplit, honce, fun n args heard w' hr hk => ?_⟩
  obtain ⟨-, all, hacts, hseen⟩ := Engine.dispatch_seen hcoherent (hw.subscribed he (hc ▸ rfl)) hr hk
  rw [hsplit, hx] at hseen
  obtain ⟨parts, others, hbefore, hrest, rfl⟩ := forall₂_append hseen
  obtain ⟨own, parts', hown, hafter, rfl⟩ := List.forall₂_cons_left_iff.mp hrest
  cases hown with
  | waits _ _ hx' => cases hx'
  | starts _ _ rest =>
    refine ⟨parts, parts', rest, hbefore, hafter, ?_⟩
    rw [hacts, List.flatten_append, List.flatten_cons]
  | other hl => exact absurd rfl hl

/-- Before a host does anything, an instance that is not there yet is spared. -/
theorem rests_start (registry : Registry) (host : σ) (o : Tag) : ({ registry, host } : World σ).Rests o := by
  have hnothing : ∀ {id : SubscriptionId} {e : Subscription (Listener σ)},
      ({ registry, host } : World σ).subscriptions.entries[id]? ≠ some e := fun h => by
    cases ExtTreeMap.getElem?_empty.symm.trans h
  refine ⟨⟨⟨{}, Subscriptions.lists_empty⟩, fun h => absurd h hnothing, fun h => absurd h hnothing, fun h => ?_,
    fun _ => ⟨rfl, rfl⟩, rfl⟩, fun _ => custody_bare (fun _ _ h => absurd h hnothing) fun _ => Activity.not_succeeded_nil⟩
  cases ExtTreeMap.getElem?_empty.symm.trans h

/-- A listening node holds exactly one live subscription. Whatever a host does that keeps its hands off what an instance
subscribes to: between its operations the nodes of the instance that are listening are in bijection with the
subscriptions of its tag, each with one that it has made, to its own event. And a listening node that has returned
success, with nothing dropped since, is among those nodes and hears its event once. -/
theorem Spares.listens_once {registry : Registry} {host : σ} {depth : Nat} {p : Program σ}
    (hs : World.Spares o depth p { registry, host }) (hp : World.perform depth p { registry, host } = .ok w) :
    (∃ f : NodeId → SubscriptionId,
      Set.BijOn f {l | l ∈ (w.instanceOf o).env.listening} {id | w.subscriptions.owner? id = some o} ∧
        ∀ l ∈ (w.instanceOf o).env.listening, ∃ e : Subscription (Listener σ),
          w.subscriptions.entries[f l]? = some e ∧ (w.instanceOf o).tree.Makes o l e) ∧
    ∀ l, Activity.Succeeded l (w.acts o) → (w.instanceOf o).tree.IsListener l →
      l ∈ (w.instanceOf o).env.listening ∧ ∃ (id : SubscriptionId) (e : Subscription (Listener σ)),
        w.subscriptions.entries[id]? = some e ∧ (w.instanceOf o).tree.Makes o l e ∧ w.HearsOnce o l e.key := by
  have hspares : World.performSparing o depth p { registry, host } = .ok w := hs.trans hp
  obtain ⟨hcoherent, hidle⟩ := Reached.continues ⟨registry, host, depth, p, hp⟩
  have hpasses := (Engine.minding_ofDepth o depth).perform p (rests_start registry host o) () w (run_of_map hspares)
  have hcustody := hpasses.rests.custody (hidle o)
  have htally := hcustody.tally rfl
  refine ⟨htally.bijOn, fun l hl hlistens => ?_⟩
  have hlistening := hcustody.told hl hlistens
  obtain ⟨id, e, he, hm⟩ := htally.live hlistening
  exact ⟨hlistening, id, e, he, hm, htally.hearsOnce hpasses.rests.spared hcoherent (hidle o) he hm⟩

end World

def Behavior.isListen : Behavior → Bool
  | .listen _ => true
  | _ => false

theorem Tree.isListener_of_toList (h : ∀ x ∈ t.nodes.toList, x.2.id = l → x.2.behavior.isListen = true) :
    t.IsListener l := by
  intro i n hn hid
  have hlisten := h (i, n) (ExtTreeMap.mem_toList_iff_getElem?_eq_some.mpr hn) hid
  cases hb : n.behavior with
  | listen event => exact ⟨event, rfl⟩
  | _ =>
    rw [hb] at hlisten
    cases hlisten

def Activity.isSuccess (l : NodeId) : Activity → Bool
  | .returned id (some .success) => id = l
  | _ => false

theorem Activity.succeeded_of_any {acts : List Activity}
    (h : (acts.rtakeWhile fun a => !a.isUnwound).any (Activity.isSuccess l) = true) : Activity.Succeeded l acts := by
  obtain ⟨a, ha, hsuccess⟩ := List.any_eq_true.mp h
  obtain ⟨pre, hpre⟩ := List.rtakeWhile_suffix (fun a => !Activity.isUnwound a) acts
  obtain ⟨s, post, hsplit⟩ := List.append_of_mem ha
  have hreturned : a = .returned l (some .success) := by
    unfold Activity.isSuccess at hsuccess
    split at hsuccess
    · rw [of_decide_eq_true hsuccess]
    · cases hsuccess
  refine ⟨pre ++ s, post, ?_, fun hu => ?_⟩
  · rw [← hpre, hsplit, hreturned, List.append_assoc]
  · have hlast : Activity.unwound ∈ acts.rtakeWhile fun a => !a.isUnwound :=
      hsplit ▸ List.mem_append_right s (List.mem_cons_of_mem a hu)
    exact absurd (List.mem_rtakeWhile_imp hlast) (by decide)

/-- A host that listens along with a tree, under a tag of its own, and interrupts the tree between two runs. -/
def fellowListener : Program Unit :=
  .create hearer ∅ fun owner => .newTag fun tag =>
    .subscribe ⟨"go", none⟩ tag (fun _ => .done) fun id =>
      .run owner fun _ => .interrupt owner <| .run owner fun _ => .unsubscribe id fun _ => .done

/-- The node that listens again after the interruption has one subscription, and hears its event once. -/
theorem listens_once_fellow : ∃ w : World Unit,
    World.perform 4 fellowListener { registry := ∅, host := () } = .ok w ∧ w.subscriptions.count ⟨0⟩ = 1 ∧
      (∃ f : NodeId → SubscriptionId,
        Set.BijOn f {l | l ∈ (w.instanceOf ⟨0⟩).env.listening} {id | w.subscriptions.owner? id = some ⟨0⟩}) ∧
      ∃ (id : SubscriptionId) (e : Subscription (Listener Unit)),
        w.subscriptions.entries[id]? = some e ∧ w.HearsOnce ⟨0⟩ ⟨0⟩ e.key := by
  have hruns : (World.performSparing ⟨0⟩ 4 fellowListener { registry := ∅, host := () }).toOption.any (fun w =>
      w.subscriptions.count ⟨0⟩ == 1 &&
        ((w.acts ⟨0⟩).rtakeWhile fun a => !a.isUnwound).any (Activity.isSuccess ⟨0⟩) &&
        decide (∀ x ∈ (w.instanceOf ⟨0⟩).tree.nodes.toList, x.2.id = ⟨0⟩ → x.2.behavior.isListen = true)) = true := by
    decide +kernel
  obtain ⟨w, hw, htested⟩ := exists_ok_of_any hruns
  simp only [Bool.and_eq_true, beq_iff_eq, decide_eq_true_eq] at htested
  obtain ⟨⟨hone, hsuccess⟩, hlistens⟩ := htested
  have hspares := World.spares_of_ok hw
  have hperformed := hspares.symm.trans hw
  obtain ⟨⟨f, hf, _⟩, hnodes⟩ := World.Spares.listens_once hspares hperformed
  obtain ⟨-, id, e, he, -, honce⟩ :=
    hnodes ⟨0⟩ (Activity.succeeded_of_any hsuccess) (Tree.isListener_of_toList hlistens)
  exact ⟨w, hperformed, hone, ⟨f, hf⟩, id, e, he, honce⟩

end BehaviorTree
