import BehaviorTree.Proofs.Steps.Play
import BehaviorTree.Proofs.Steps.Total

/-!
One run of a node of a tree of steps plays its reading up to the first leaf that takes time. If there is none, the node
ends as it is read; otherwise the frames that it leaves remember what is left of the reading.
-/

namespace BehaviorTree
set_option autoImplicit false

variable {σ : Type} {S : Script} {o : Tag} {e : Engine σ} {t u v : Tick σ} {n : Node} {id x : NodeId} {b b' : Nat}
  {base : List NodeId} {r r' : Reading} {s : Status} {p : Payload}

namespace Tick

def seen (S : Script) (o : Tag) (t : Tick σ) : List Visit := t.world.visits S.tree o

structure Same (S : Script) (t u : Tick σ) : Prop where
  world : ∃ journal, u.world = { t.world with journal }
  vars {name : String} : ¬ S.tree.Writes name → u.env.vars[name]? = t.env.vars[name]?
  input : u.env.input = t.env.input
  output : u.env.output = t.env.output

/-- Nothing below some rank is suspended, and nobody asks for an interruption. -/
structure Ready (S : Script) (o : Tag) (b : Nat) (t : Tick σ) : Prop where
  clear {id : NodeId} : S.rank id < b → t.env.temps[id]? = none
  vars {name : String} : ¬ S.tree.Writes name → t.env.vars[name]? = S.vars[name]?
  calm : (t.world.instanceOf o).interrupted = false

structure Active (S : Script) (o : Tag) (n : Node) (base : List NodeId) (t : Tick σ) : Prop where
  ready : t.Ready S o (S.rank n.id)
  frames : t.env.stack.frames = n.id :: base

structure Wrote (S : Script) (o : Tag) (t u : Tick σ) : Prop where
  same : t.Same S u
  stack : u.env.stack = t.env.stack
  temps : u.env.temps = t.env.temps
  seen : u.seen S o = t.seen S o

namespace Same

theorem refl (t : Tick σ) : t.Same S t := ⟨⟨t.world.journal, rfl⟩, fun _ => rfl, rfl, rfl⟩

theorem trans (h : t.Same S u) (h' : u.Same S v) : t.Same S v := by
  obtain ⟨journal, hw⟩ := h.world
  obtain ⟨journal', hw'⟩ := h'.world
  refine ⟨⟨journal', ?_⟩, fun hn => (h'.vars hn).trans (h.vars hn), h'.input.trans h.input, h'.output.trans h.output⟩
  rw [hw', hw]

theorem instanceOf (h : t.Same S u) (owner : Tag) : u.world.instanceOf owner = t.world.instanceOf owner := by
  obtain ⟨journal, hw⟩ := h.world
  rw [hw]
  rfl

theorem env (h : t.Same S u) {env : Env} (hv : env.vars = u.env.vars) (hi : env.input = u.env.input)
    (ho : env.output = u.env.output) : t.Same S { u with env } :=
  ⟨h.world, fun hn => hv ▸ h.vars hn, hi.trans h.input, ho.trans h.output⟩

end Same

namespace Ready

theorem mono (h : t.Ready S o b) (hb : b' ≤ b) : t.Ready S o b' :=
  ⟨fun hr => h.clear (Nat.lt_of_lt_of_le hr hb), h.vars, h.calm⟩

theorem same (h : t.Ready S o b) (hs : t.Same S u) (ht : u.env.temps = t.env.temps) : u.Ready S o b :=
  ⟨fun hr => ht ▸ h.clear hr, fun hn => (hs.vars hn).trans (h.vars hn), by rw [hs.instanceOf]; exact h.calm⟩

end Ready

theorem Active.same (h : t.Active S o n base) (hs : t.Same S u) (hst : u.env.stack = t.env.stack)
    (ht : u.env.temps = t.env.temps) : u.Active S o n base :=
  ⟨h.ready.same hs ht, hst ▸ h.frames⟩

theorem Wrote.refl (t : Tick σ) : t.Wrote S o t := ⟨.refl t, rfl, rfl, rfl⟩

theorem Wrote.trans (h : t.Wrote S o u) (h' : u.Wrote S o v) : t.Wrote S o v :=
  ⟨h.same.trans h'.same, h'.stack.trans h.stack, h'.temps.trans h.temps, h'.seen.trans h.seen⟩

theorem Active.wrote (h : t.Active S o n base) (hw : t.Wrote S o u) : u.Active S o n base :=
  h.same hw.same hw.stack hw.temps

end Tick

/-- A reading has been played as far as possible: to its end, or to the first leaf that takes time, which waits on
top of frames that hold the rest of the reading. The frames are those on top of `base`. -/
inductive Script.Plays (S : Script) (o : Tag) (id : NodeId) (t : Tick σ) (base : List NodeId) (r : Reading) :
    Status → Tick σ → Prop where
  | ended {u : Tick σ} (same : t.Same S u) (stack : u.env.stack = t.env.stack) (temps : u.env.temps = t.env.temps)
      (seen : u.seen S o = t.seen S o ++ S.play r) (swift : ∀ x ∈ r.completed, S.ticks x = 0) :
      Plays S o id t base r r.status u
  | waits {u : Tick σ} {x : NodeId} {done left : List NodeId} {below : List Cell} (same : t.Same S u)
      (frames : u.env.stack.frames = x :: below.map Prod.fst ++ base)
      (temps : u.env.temps = t.env.temps.place ((x, .value (.int 1)) :: below))
      (seen : u.seen S o = t.seen S o ++ (done.flatMap S.visits ++ [(x, .running)]))
      (cut : r.completed = done ++ x :: left) (swift : ∀ y ∈ done, S.ticks y = 0) (ticks : 0 < S.ticks x)
      (leaf : S.tree.isLeaf x = true) (path : S.Path id x below)
      (rest : S.remaining below (S.result x) = ⟨r.status, left⟩) : Plays S o id t base r .running u

def Engine.Performs (e : Engine σ) (S : Script) (o : Tag) (x : NodeId) : Prop :=
  ∀ t : Tick σ, t.Ready S o (S.rank x + 1) → (e.run x ⟨o, S.tree⟩ t).Gives fun s u =>
    S.Plays o x t t.env.stack.frames (S.reading x) s u ∧ u.env.lastStatus = s

namespace Script

theorem reading_ne_running (x : NodeId) : (S.reading x).status ≠ .running := by
  refine Tree.reading_ne_running (fun {id n react} hn hb => ?_) x
  have hnode := S.scripted.node hn
  rw [Node.Scripted, hb] at hnode
  exact S.orderly.id_eq hn ▸ hnode.2

namespace Plays

theorem finished (t : Tick σ) (s : Status) : S.Plays o id t base (.finished s) s t :=
  .ended (r := .finished s) (.refl t) rfl rfl (List.append_nil _).symm (by simp)

theorem same (h : S.Plays o id t base r s u) : t.Same S u := by
  cases h with
  | ended same => exact same
  | waits same => exact same

theorem after (hs : t.Same S u) (hst : u.env.stack = t.env.stack) (ht : u.env.temps = t.env.temps)
    (hseen : u.seen S o = t.seen S o ++ S.play r) (hswift : ∀ x ∈ r.completed, S.ticks x = 0)
    (h : S.Plays o id u base r' s v) : S.Plays o id t base ⟨r'.status, r.completed ++ r'.completed⟩ s v := by
  cases h with
  | ended same stack temps seen swift =>
    refine .ended (r := ⟨r'.status, r.completed ++ r'.completed⟩) (hs.trans same) (stack.trans hst) (temps.trans ht) ?_ ?_
    · rw [seen, hseen, List.append_assoc, play_append]
    · intro x hx
      exact (List.mem_append.mp hx).elim (hswift x) (swift x)
  | @waits _ x done left below same frames temps seen cut swift ticks leaf path rest =>
    have hcut : r.completed ++ r'.completed = (r.completed ++ done) ++ x :: left := by rw [cut, List.append_assoc]
    refine .waits (hs.trans same) frames (ht ▸ temps) ?_ hcut ?_ ticks leaf path rest
    · rw [seen, hseen, List.append_assoc, List.flatMap_append, List.append_assoc]
      rfl
    · intro y hy
      exact (List.mem_append.mp hy).elim (hswift y) (swift y)

theorem wrote (hw : t.Wrote S o u) (h : S.Plays o id u base r s v) : S.Plays o id t base r s v :=
  after (r := .finished .success) hw.same hw.stack hw.temps (hw.seen.trans (List.append_nil _).symm) (by simp) h

end Plays

end Script

namespace Engine

open TickM

/-- A child is run, and the node waits for it with a payload or goes on. -/
theorem Performs.then (he : e.Performs S o x) (hn : S.tree.get? n.id = some n) (hx : x ∈ S.tree.started n)
    (h : t.Active S o n base) (hp : S.Saves n p) {k : Status → TickM σ Status}
    (hk : ∀ u, k .running ⟨o, S.tree⟩ u = .ok .running { u with env := u.env.setPayload n.id p })
    (hend : ∀ u, u.Active S o n base → (S.reading x).status ≠ .running →
      (k (S.reading x).status ⟨o, S.tree⟩ u).Gives
        (S.Plays o n.id u base (S.rest n p (S.reading x).status))) :
    ((e.run x >>= k) ⟨o, S.tree⟩ t).Gives
      (S.Plays o n.id t base ((S.reading x).andThen (S.rest n p))) := by
  have hlt := S.rank_lt hn hx
  rw [gives_bind]
  refine (he t (h.ready.mono hlt)).mono ?_
  rintro s u ⟨hplays, -⟩
  cases hplays with
  | ended same stack temps seen swift =>
    refine (hend u (h.same same stack temps) (Script.reading_ne_running x)).mono fun s v hv => ?_
    exact hv.after same stack temps seen swift
  | @waits _ y done left below same frames temps seen cut swift ticks leaf path rest =>
    rw [hk]
    have hnot : n.id ∉ ((y, Payload.value (.int 1)) :: below).map Prod.fst := fun hmem => by
      have := path.rank_le hmem
      omega
    have hcut : ((S.reading x).andThen (S.rest n p)).completed =
        done ++ y :: (left ++ (S.rest n p (S.reading x).status).completed) := by
      rw [Reading.andThen_completed, cut, List.append_assoc, List.cons_append]
    refine .waits (same.env rfl rfl rfl) ?_ ?_ seen hcut swift ticks leaf (path.snoc hn hp hlt) ?_
    · change u.env.stack.frames = _
      rw [frames, h.frames]
      simp
    · change u.env.temps.insert n.id p = _
      rw [temps, ← List.cons_append, Temps.place_append, Temps.place_cons, Temps.place]
      exact (Temps.place_insert t.env.temps hnot p).symm
    · rw [Script.remaining_append fun cell hc => (path.saved cell hc).imp fun _ h => h.1, rest]
      have hlast : S.remaining [(n.id, p)] = S.rest n p := by
        funext s
        rw [Script.remaining_cons hn]
        exact Reading.andThen_finished _
      rw [hlast]
      rfl

end Engine

end BehaviorTree
