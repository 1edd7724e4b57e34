import BehaviorTree.Proofs.Engine.Lookout
import BehaviorTree.Proofs.World.Programs
import BehaviorTree.Workbench.Nodes

/-!
What a lookout finds. If what it looks for is there whenever a node is called or has returned, before waiting jobs are
run and after a job, then calls under it keep what is asked of calls, and so none of them halts for it: a program that
follows the rules does under the lookout what it does without.
-/

namespace BehaviorTree
set_option autoImplicit false

open TickM World

variable {σ : Type} {R : Rules σ} {c : Activation} {t : Tick σ} {e : Engine σ} {L : Lookout} {job : Job}
  {owner : Tag} {i : Instance} {w : World σ}

/-- What a lookout looks for is there as long as the rules are kept. -/
structure Lookout.Finds (L : Lookout) (R : Rules σ) : Prop where
  fresh {c : Activation} {t : Tick σ} {id : NodeId} :
    t.Fresh R c id → t.world.Undisturbed c.owner → L.called c.tree t.env id
  poised {c : Activation} {t : Tick σ} {n : Node} {p : Payload} {base : List NodeId} :
    t.Poised R c n p base → L.called c.tree t.env n.id
  ran {c : Activation} {t u : Tick σ} {id : NodeId} {base : List NodeId} {status : Status} :
    t.Ran R c id base status u → t.Runs R c → (¬ t.Flagged c → c.tree.Beside t.env id base) →
      u.world.Undisturbed c.owner → L.returned c.tree u.env id status
  waiting {w : World σ} {owner : Tag} {i : Instance} :
    w.Busy R owner i → w.Settled R owner i → w.Undisturbed owner → L.waiting i.tree i.env
  did {c : Activation} {t u : Tick σ} {job : Job} : t.Did R c job u → L.job job t.env u.env

/-- An instance that nothing disturbs is not to be interrupted. -/
theorem Tick.not_flagged (h : t.world.Undisturbed c.owner) : ¬ t.Flagged c := by
  rw [Flagged, h.2]
  exact Bool.false_ne_true

namespace TickM

theorem meets_insist {P : Activation → Tick σ → Prop} {Q : Unit → Tick σ → Prop} {E : RunError → Tick σ → Prop}
    {H : Halt → Prop} (h : P c t) : (insist P c t).Meets Q E H ↔ Q () t := by
  have hok : insist P c t = .ok () t := if_pos h
  rw [hok, meets_ok]

theorem meets_look {P : Tree → Env → Prop} {Q : Unit → Tick σ → Prop} {E : RunError → Tick σ → Prop} {H : Halt → Prop}
    (h : t.world.Undisturbed c.owner → P c.tree t.env) : (look P c t).Meets Q E H ↔ Q () t := meets_insist h

theorem meets_lookAround {α : Type} {P : Env → Env → Prop} {m : TickM σ α} {Q : α → Tick σ → Prop}
    {E : RunError → Tick σ → Prop} (hm : (m c t).Meets Q E) (hq : ∀ a u, Q a u → P t.env u.env)
    (he : ∀ err u, E err u → P t.env u.env) : (lookAround P m c t).Meets Q E := by
  simp only [lookAround, meets_bind, meets_env, meets_attempt]
  refine hm.mono ?_ ?_
  · intro a u hu
    rw [meets_insist (hq a u hu), meets_ofExcept_ok]
    exact hu
  · intro err u hu
    rw [meets_insist (he err u hu), meets_ofExcept_error]
    exact hu

end TickM

/-- A zone does not say what is found in it as long as no node has failed. -/
theorem Zone.Rests.look {z : Zone c.tree} (hs : R.swap = false) (P : Tree → Env → Prop) :
    z.Rests R (TickM.look (σ := σ) P) fun _ => True := by
  intro frames t t' hf hframes
  by_cases hp : t'.world.Undisturbed c.owner → P c.tree t'.env
  · rw [meets_look hp]
    exact ⟨hf, hframes, trivial⟩
  · have hcut : TickM.look P c t' = .halted .outOfRange := if_neg hp
    obtain ⟨acts, hacts, _⟩ := hf.advances.each c.owner
    rw [hcut]
    exact .inr ⟨hs, (Classical.not_imp.mp hp).1.1.of_acts hacts⟩

namespace Engine

theorem after_lookInto {P : Tree → Env → Prop} {Q : Unit → World σ → Prop} (hi : w.instances[owner]? = some i)
    (h : w.Undisturbed owner → P i.tree i.env) : w.After (lookInto owner P) Q ↔ Q () w := by
  have hok : (lookInto owner P).run w = .ok ((), w) := if_pos fun hw => by
    rw [instanceOf_eq hi]
    exact h hw
  rw [World.After, hok]

/-- One level of calls more keeps what is asked for under a lookout as well: it finds what it looks for. -/
theorem Serves.under (he : e.Serves R) (hs : R.swap = false) (hL : L.Finds R) : (e.under L).Serves R := by
  have hdeep := he.deeper
  have hhonors : (e.under L).Honors R := ⟨hdeep.sound.honors.hear, hdeep.sound.honors.alarm⟩
  have hconfined : (e.under L).Confined R := by
    refine ⟨fun {c z id frames} hid hfl => ?_, hdeep.sound.confined.resume⟩
    refine .after (.look hs _) fun _ _ => (hdeep.sound.confined.run hid hfl).bind fun status frames' hends => ?_
    exact .after (.look hs _) fun _ _ => .pure hends
  refine ⟨⟨hhonors, hconfined, ?_, ?_, hdeep.sound.resumes⟩, ?_⟩
  · intro c id t h
    rw [Engine.under, meets_bind, meets_look (hL.fresh h), meets_bind]
    refine (hdeep.sound.fresh h).mono ?_ fun _ _ hb => hb
    intro status u hran
    rw [meets_bind, meets_look (hL.ran hran h.runs h.beside)]
    exact hran
  · intro c n p base t h
    rw [Engine.under, meets_bind, meets_look fun _ => hL.poised h, meets_bind]
    refine (hdeep.sound.poised h).mono ?_ fun _ _ hb => hb
    intro status u hran
    rw [meets_bind, meets_look (hL.ran hran h.runs h.beside)]
    exact hran
  · intro w owner i hbusy hsettled
    rw [Engine.under, after_bind, after_lookInto hbusy.here (hL.waiting hbusy hsettled)]
    refine he.runNextWith (fun hruns hrests haccepts => ?_) hbusy hsettled
    exact meets_lookAround (he.sound.runJob hruns hrests haccepts) (fun _ _ => hL.did) fun _ _ => hL.did

theorem serves_ofDepthUnder (hs : R.swap = false) (hL : L.Finds R) (n : Nat) :
    (ofDepthUnder L n : Engine σ).Serves R := by
  induction n with
  | zero => exact serves_exhausted
  | succ n ih => exact ih.under hs hL

end Engine

theorem World.Good.start {host : σ} (h : R.host host) : ({ registry := R.registry, host } : World σ).Good R := by
  refine ⟨rfl, h, Subscriptions.filed_empty, Delays.filed_empty, ?_, ?_, fun _ => rfl, ?_⟩
  · intro id entry hentry
    have hnone : (∅ : Std.ExtTreeMap SubscriptionId (Subscription (Listener σ)))[id]? = none := by simp
    cases hnone.symm.trans hentry
  · intro id entry hentry
    have hnone : (∅ : Std.ExtTreeMap DelayId (PendingDelay (Alarm σ)))[id]? = none := by simp
    cases hnone.symm.trans hentry
  · intro o i hi
    simp at hi

/-- The worlds that a host makes who follows the rules. -/
theorem Program.Obeys.good {p : Program σ} {may : Bool} {host : σ} {depth : Nat} (hp : p.Obeys R may)
    (hh : R.host host) (hw : World.perform depth p { registry := R.registry, host } = .ok w) : w.Good R := by
  have habides := (Engine.serves_ofDepth depth).perform hp (.start hh)
  rw [World.After] at habides
  change (((Engine.ofDepth depth).perform p).run _).map _ = _ at hw
  split at habides
  · rename_i heq
    rw [heq] at hw
    cases hw
    exact habides.good
  · rename_i heq
    rw [heq] at hw
    cases hw

/-- Calls that keep what they are asked for ask for nothing that is not there. -/
theorem World.After.map_ne {m : WorldM σ Unit} {Q : Unit → World σ → Prop} (h : w.After m Q) :
    (m w).map (·.2) ≠ .error .outOfRange := by
  rw [World.After] at h
  change (m.run w).map _ ≠ _
  split at h
  · rename_i heq
    rw [heq]
    simp [Except.map]
  · rename_i heq
    rw [heq, h]
    simp [Except.map]

/-- Whatever a host does that follows the rules, and as deep as calls nest, a lookout that finds what it looks for
changes nothing. -/
theorem Program.Obeys.performUnder_eq {p : Program σ} {may : Bool} {host : σ} (hp : p.Obeys R may)
    (hs : R.swap = false) (hL : L.Finds R) (hh : R.host host) (depth : Nat) :
    World.performUnder L depth p { registry := R.registry, host } =
        World.perform depth p { registry := R.registry, host } ∧
      World.perform depth p { registry := R.registry, host } ≠ .error .outOfRange := by
  have hgood : ({ registry := R.registry, host } : World σ).Good R := .start hh
  have hunder := ((Engine.serves_ofDepthUnder hs hL depth).perform hp hgood).map_ne
  have hplain := ((Engine.serves_ofDepth depth).perform hp hgood).map_ne
  exact ⟨(World.performUnder_eq L depth p _).resolve_right hunder, hplain⟩

/-- Trees of the built-in types and that of steps, which callbacks leave alone. -/
def Workbench.rules : Rules Unit where
  registry := Registry.builtIn.register step
  plain := Registry.plain_builtIn.register rfl fun _ _ _ hb => ⟨_, (Except.ok.inj hb).symm⟩
  host := fun _ => True
  swap := false

end BehaviorTree
