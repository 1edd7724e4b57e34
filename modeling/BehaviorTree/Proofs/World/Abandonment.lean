import BehaviorTree.Proofs.Life.Exclusion
import BehaviorTree.Proofs.World.Lookout

/-!
Abandonment is complete. What a timeout, a race, a watchdog, a listening node or a delay abandons is looked for at the
next call or return of a node, or when the next waiting jobs are run: nothing is left of it, so its next start is a
fresh one. That is looked for in every tick and every job of whatever a host does, and found.
-/

namespace BehaviorTree
set_option autoImplicit false

open TickM World

variable {σ : Type} {R : Rules σ} {c : Activation} {t u : Tick σ} {e : Engine σ} {n : Node} {p : Payload}
  {id : NodeId} {base : List NodeId} {status : Status} {owner : Tag} {i : Instance} {w : World σ}

namespace Tree

variable {t : Tree} {env : Env} {frames : List NodeId}

/-- The payloads of a node and of what is started below it name only frames that have payloads. -/
def Backed (t : Tree) (env : Env) (id : NodeId) : Prop :=
  ∀ x y p, t.Region id x → env.temps[x]? = some p → y ∈ p.nestedFrames → env.temps[y]? ≠ none

theorem Suspended.backed (h : t.Suspended env.temps id frames) (ht : t.Orderly) : t.Backed env id := by
  intro x y p hx hp hy
  obtain ⟨s, hs, hy⟩ := List.mem_flatMap.mp hy
  obtain ⟨d, _, hsus⟩ := h.nested ht hx hp hs
  exact (hsus.mem_frames hy).2

end Tree

/-- What abandonment leaves. A node that is called goes on if its frame is on top, and then it has a payload; otherwise
it is started, and then nothing is left of it, nor of what it is to clean up after. A node that has returned is still
running, and then what is saved in payloads there is suspended, or it has ended, and then nothing is left of it. When
waiting jobs are run, nothing is left of the children of delays. -/
def Lookout.abandonment : Lookout where
  called t env id :=
    if env.stack.top? = some id then env.temps[id]? ≠ none
    else t.Forgotten env id ∧ ∀ b, t.CleansUp id b → t.Forgotten env b
  returned t env id status := if status = .running then t.Backed env id else t.Forgotten env id
  waiting t env := ∀ d k, t.PutsOff d k → t.Forgotten env k

namespace Tick

theorem Fresh.called (h : t.Fresh R c id) (hf : ¬ t.Flagged c) : Lookout.abandonment.called c.tree t.env id := by
  have htop : t.env.stack.top? ≠ some id := fun ht => h.apart id (List.mem_of_mem_head? ht) (.refl _)
  simp only [Lookout.abandonment, if_neg htop]
  exact ⟨(h.beside hf).forgotten h.runs.orderly h.idle h.apart fun _ hx => hx, h.cleaned hf⟩

theorem Poised.called (h : t.Poised R c n p base) : Lookout.abandonment.called c.tree t.env n.id := by
  have htop : t.env.stack.top? = some n.id := by
    rw [Stack.top?, h.stack]
    rfl
  simp only [Lookout.abandonment, if_pos htop, h.ready.payload]
  exact Option.some_ne_none p

theorem Ran.returned (h : t.Ran R c id base status u) (hr : t.Runs R c)
    (hb : ¬ t.Flagged c → c.tree.Beside t.env id base) (hf : ¬ u.Flagged c) :
    Lookout.abandonment.returned c.tree u.env id status := by
  by_cases hs : status = .running
  · obtain ⟨above, _, hsus⟩ := h.ends.suspended hf hs
    simp only [Lookout.abandonment, if_pos hs]
    exact hsus.backed hr.orderly
  · obtain ⟨hstack, hidle, _⟩ := h.ends.ended hs
    obtain ⟨happ, _⟩ := h.stays
    simp only [Lookout.abandonment, if_neg hs]
    refine (h.beside hr hb hf).forgotten hr.orderly hidle ?_ ?_
    · rw [hstack]
      exact happ
    · rw [hstack]
      exact fun _ hx => hx

end Tick

/-- Between jobs nothing is left of the children of delays. -/
theorem World.Busy.waiting (h : w.Busy R owner i) (hsettled : w.Settled R owner i) (hs : R.swap = false)
    (hw : w.Undisturbed owner) : Lookout.abandonment.waiting i.tree i.env := by
  intro d k hd
  have ht := h.good.orderly h.here
  have ho : i.env.Ordered i.tree (w.spilled owner i.tree) := hsettled.ordered hs
  have hbeside : i.tree.Beside i.env k [] :=
    ho.beside ht hd.base id fun hl => ⟨hl, fun hlistens => ht.not_listens_of_putsOff hd hlistens⟩
  refine hbeside.forgotten ht (ho.delayed (hw.1.spilled i.tree) hd) ?_ (by simp)
  have hjob : i.tree.Accepts (.delayed k []) := ⟨d, hd⟩
  exact (ho.apart_of_accepts ht hjob).2.2

theorem Lookout.Finds.abandonment (hs : R.swap = false) : Lookout.abandonment.Finds R where
  fresh h hw := h.called (Tick.not_flagged hw)
  poised h := h.called
  ran h hr hb hw := h.returned hr hb (Tick.not_flagged hw)
  waiting h hsettled hw := h.waiting hsettled hs hw
  did _ := trivial

/-- Abandonment is complete. Whatever a host does that follows the rules, and as deep as calls nest, the lookout finds
what it looks for in every tick and job that nothing disturbs: the calls under it do what they do without. -/
theorem Program.Obeys.abandonment_complete {p : Program σ} {may : Bool} {host : σ} (hp : p.Obeys R may)
    (hs : R.swap = false) (hh : R.host host) (depth : Nat) :
    World.performUnder .abandonment depth p { registry := R.registry, host } =
        World.perform depth p { registry := R.registry, host } ∧
      World.perform depth p { registry := R.registry, host } ≠ .error .outOfRange :=
  hp.performUnder_eq hs (.abandonment hs) hh depth

def Activity.returned? : Activity → Option (NodeId × Option Status)
  | returned id status => some (id, status)
  | _ => none

namespace Contest

/-- Two long steps side by side race against a short one. -/
def spec : TreeSpec where
  name := "contest"
  root :=
    { id := ⟨0⟩, name := "Race"
      children :=
        [{ id := ⟨1⟩, name := "Parallel"
           children :=
            [{ id := ⟨2⟩, name := "Step", args := [("label", .string "left"), ("ticks", .int 5)] },
              { id := ⟨3⟩, name := "Step", args := [("label", .string "right"), ("ticks", .int 5)] }] },
          { id := ⟨4⟩, name := "Step", args := [("label", .string "ahead"), ("ticks", .int 1)] }] }

/-- A host that loads the contest and runs it twice. -/
def program : Program Unit :=
  .load spec true fun
    | .ok tree => .create tree ∅ fun owner => .run owner fun _ => .run owner fun _ => .done
    | .error _ => .done

theorem obeys : program.Obeys Workbench.rules false := by
  intro result hload
  cases result with
  | ok tree => exact ⟨hload tree rfl, fun _ _ _ => trivial⟩
  | error err => exact trivial

end Contest

open Contest in
/-- The short step wins in the second run, and what the others have done by then is abandoned. -/
theorem abandonment_complete_contest : ∃ w : World Unit,
    World.performUnder .abandonment 6 program { registry := Workbench.rules.registry, host := () } = .ok w ∧
      (w.acts ⟨0⟩).filterMap Activity.returned? =
        [(⟨2⟩, some .running), (⟨3⟩, some .running), (⟨1⟩, some .running), (⟨4⟩, some .running), (⟨0⟩, some .running),
          (⟨2⟩, some .running), (⟨3⟩, some .running), (⟨1⟩, some .running), (⟨4⟩, some .success), (⟨0⟩, some .success)] ∧
      (w.instanceOf ⟨0⟩).env.temps.isEmpty = true := by
  have hruns : (World.perform 6 program { registry := Workbench.rules.registry, host := () }).toOption.any (fun w =>
      (w.acts ⟨0⟩).filterMap Activity.returned? ==
        [(⟨2⟩, some .running), (⟨3⟩, some .running), (⟨1⟩, some .running), (⟨4⟩, some .running), (⟨0⟩, some .running),
          (⟨2⟩, some .running), (⟨3⟩, some .running), (⟨1⟩, some .running), (⟨4⟩, some .success), (⟨0⟩, some .success)] &&
        (w.instanceOf ⟨0⟩).env.temps.isEmpty) = true := by
    decide +kernel
  obtain ⟨w, hw, hseen⟩ := exists_ok_of_any hruns
  obtain ⟨hreturned, hempty⟩ := Bool.and_eq_true_iff.mp hseen
  have hunder : World.performUnder .abandonment 6 program { registry := Workbench.rules.registry, host := () } =
      World.perform 6 program { registry := Workbench.rules.registry, host := () } :=
    (obeys.abandonment_complete rfl trivial 6).1
  exact ⟨w, hunder.trans hw, beq_iff_eq.mp hreturned, hempty⟩

end BehaviorTree
