import BehaviorTree.Proofs.Steps.Leaves

/-!
Resuming a tree of steps. The leaf on top of the stack takes its next tick, and if this was its last, the frames below
it play what is left of the reading.
-/

namespace BehaviorTree
set_option autoImplicit false

open TickM

variable {σ : Type} {S : Script} {o : Tag} {t u v : Tick σ} {n : Node} {id x : NodeId} {cells below : List Cell}
  {s : Status} {p : Payload} {k d : Nat}

namespace Tick

def bare (t : Tick σ) : Tick σ := { t with env := { t.env with stack := ∅, temps := ∅ } }

/-- Some cells and nothing else are suspended, in the order of the stack. -/
structure Holds (S : Script) (o : Tag) (cells : List Cell) (t : Tick σ) : Prop where
  frames : t.env.stack.frames = cells.map Prod.fst
  temps : t.env.temps = Temps.place ∅ cells
  vars {name : String} : ¬ S.tree.Writes name → t.env.vars[name]? = S.vars[name]?
  calm : (t.world.instanceOf o).interrupted = false

theorem Same.bare (h : t.popped.Same S u) : t.bare.Same S u.bare := ⟨h.world, h.vars, h.input, h.output⟩

namespace Holds

theorem of_same (h : t.Holds S o below) (hs : t.popped.Same S u) (hframes : u.env.stack.frames = cells.map Prod.fst)
    (htemps : u.env.temps = Temps.place ∅ cells) : u.Holds S o cells := by
  have hvars : t.popped.env.vars = t.env.vars := by
    rw [popped, Env.popFrame]
  refine ⟨hframes, htemps, fun hname => ?_, ?_⟩
  · rw [hs.vars hname, hvars]
    exact h.vars hname
  · rw [hs.instanceOf]
    exact h.calm

theorem bare_eq (h : t.Holds S o []) : t.bare = t := by
  have hstack : t.env.stack = ∅ := congrArg Stack.mk h.frames
  have htemps : t.env.temps = ∅ := h.temps
  rw [bare, ← hstack, ← htemps]

theorem get (h : t.Holds S o ((x, p) :: below)) : t.env.temps[x]? = some p := by
  rw [h.temps, Temps.place_cons, Temps.get_insert, if_pos rfl]

/-- Without its top frame, the rest is suspended as before. -/
theorem popped (h : t.Holds S o ((x, p) :: below)) (hpath : S.Path id x below) :
    t.popped.env.stack.frames = below.map Prod.fst ∧ t.popped.env.temps = Temps.place ∅ below := by
  rw [Tick.popped, Env.popFrame_eq h.frames]
  refine ⟨rfl, ?_⟩
  change t.env.temps.erase x = _
  rw [h.temps, Temps.place_cons, Temps.erase_insert]
  exact (Temps.get_place hpath.not_mem).trans (by simp)

theorem called (h : t.Holds S o ((n.id, p) :: below)) (hpath : S.Path id n.id below) (hp : S.Saves n p)
    (hs : t.env.lastStatus ≠ .running) : t.Called S o n (below.map Prod.fst) := by
  refine ⟨⟨⟨fun {z} hz => ?_, h.vars, h.calm⟩, h.frames⟩, fun hq => ?_, fun _ => hs⟩
  · have hnot : z ∉ ((n.id, p) :: below).map Prod.fst := by
      intro hmem
      rcases List.mem_cons.mp hmem with rfl | hmem
      · exact Nat.lt_irrefl _ hz
      · exact Nat.lt_asymm hz ((List.pairwise_cons.mp hpath.rising).1 z hmem)
    rw [h.temps, Temps.get_place hnot]
    simp
  · obtain rfl := Option.some.inj (h.get.symm.trans hq)
    exact hp

end Holds

end Tick

namespace Script

theorem Saves.inner (hn : S.tree.get? n.id = some n) (h : S.Saves n p) : S.Inner n := by
  unfold Saves at h
  refine ⟨hn, fun hb => ?_, fun react hb => ?_⟩
  · rw [hb] at h
    exact h
  · rw [hb] at h
    exact h

/-- How the frames of a waiting leaf, called `k` times before, are resumed. -/
inductive Resumes (S : Script) (o : Tag) (id x : NodeId) (k : Nat) (below : List Cell) (t : Tick σ) :
    Status → Tick σ → Prop where
  | took {u : Tick σ} (ticks : k < S.ticks x) (same : t.Same S u)
      (holds : u.Holds S o ((x, .value (.int (k + 1 : Nat))) :: below))
      (seen : u.seen S o = t.seen S o ++ [(x, .running)]) : Resumes S o id x k below t .running u
  | completed {s : Status} {v u : Tick σ} (ticks : ¬ k < S.ticks x) (same : t.Same S v) (holds : v.Holds S o [])
      (seen : v.seen S o = t.seen S o ++ [(x, S.result x)])
      (plays : S.Plays o id v [] (S.remaining below (S.result x)) s u) : Resumes S o id x k below t s u

end Script

namespace Engine

theorem gives_resumeAbove {e : Engine σ} {c : Activation} {rest : List NodeId} {Q : Status → Tick σ → Prop}
    (h : t.env.stack.frames = id :: rest)
    (hrun : (e.run id c t).Gives fun s u => if s = .running then Q s u else (e.resume 0 c u).Gives Q) :
    (e.resumeAbove 0 c t).Gives Q := by
  have htop : t.env.stack.top? = some id := congrArg List.head? h
  have hsize : ¬ t.env.stack.size ≤ 0 := by
    rw [Stack.size, h, List.length_cons]
    omega
  rw [resumeAbove, gives_bind, gives_env, htop]
  simp only
  rw [if_neg hsize, gives_bind]
  refine hrun.mono fun s u hu => ?_
  cases s with
  | running => exact hu
  | success => exact hu
  | failure => exact hu

/-- With enough depth, the frames that waited for a node play what is left of the reading. -/
theorem plays_resume (hd : S.rank id + below.length + 2 ≤ d) (hpath : S.Path id x below) (h : t.Holds S o below)
    (hs : t.env.lastStatus ≠ .running) :
    ((ofDepth d : Engine σ).resume 0 ⟨o, S.tree⟩ t).Gives
      (S.Plays o id t.bare [] (S.remaining below t.env.lastStatus)) := by
  induction below generalizing t x d with
  | nil =>
    obtain ⟨d, rfl⟩ : ∃ d', d = d' + 1 := ⟨d - 1, by omega⟩
    have htop : t.env.stack.top? = none := congrArg List.head? h.frames
    change ((ofDepth d : Engine σ).resumeAbove 0 ⟨o, S.tree⟩ t).Gives _
    rw [resumeAbove, gives_bind, gives_env, htop, h.bare_eq]
    exact .finished t _
  | cons cell below ih =>
    obtain ⟨y, q⟩ := cell
    obtain ⟨d, rfl⟩ : ∃ d', d = d' + 2 := ⟨d - 2, by omega⟩
    obtain ⟨n, hn, hq⟩ := hpath.saved (y, q) List.mem_cons_self
    obtain rfl := S.orderly.id_eq hn
    have htail := hpath.tail
    have hrank : S.rank n.id ≤ S.rank id := htail.rank_le List.mem_cons_self
    obtain ⟨hframes, htemps⟩ := h.popped htail
    rw [List.length_cons] at hd
    have hstarted : ∀ y ∈ S.tree.started n, (ofDepth d : Engine σ).Performs S o y := by
      intro y hy
      have hstarts := Tree.starts_of_mem hn hy
      obtain ⟨m, hm⟩ := S.orderly.exists_of_starts hstarts
      obtain rfl := S.orderly.id_eq hm
      have hlt : S.rank m.id < S.rank n.id := S.rank_lt hn hy
      exact performs_ofDepth hm (S.not_case_of_starts hstarts hm) (by omega)
    change ((ofDepth (d + 1) : Engine σ).resumeAbove 0 ⟨o, S.tree⟩ t).Gives _
    refine gives_resumeAbove h.frames ?_
    change ((do (ofDepth d).runNode (← TickM.node n.id) : TickM σ Status) ⟨o, S.tree⟩ t).Gives _
    rw [gives_bind, gives_node hn, Script.remaining_cons hn]
    refine (Script.plays_resumed hstarted (hq.inner hn) h.get (h.called htail hq hs)).mono ?_
    rintro s u ⟨hplays, hlast⟩
    have hne := S.rest_ne_running hn hs (p := q)
    cases hplays with
    | ended same stack temps seen swift =>
      rw [if_neg hne]
      have hu : u.Holds S o below := h.of_same same (stack ▸ hframes) (temps.trans htemps)
      refine (ih (d := d + 1) (by omega) htail hu (hlast ▸ hne)).mono fun s v hv => ?_
      rw [hlast] at hv
      exact .after same.bare rfl rfl seen swift hv
    | @waits _ z done left above same frames temps seen cut swift ticks leaf path rest =>
      rw [if_pos rfl]
      have hcut : ((S.rest n q t.env.lastStatus).andThen (S.remaining below)).completed =
          done ++ z :: (left ++ (S.remaining below (S.rest n q t.env.lastStatus).status).completed) := by
        rw [Reading.andThen_completed, cut, List.append_assoc, List.cons_append]
      refine .waits ?_ ?_ ?_ seen hcut swift ticks leaf (path.trans htail) ?_
      · exact ⟨same.world, same.vars, same.input, same.output⟩
      · rw [frames]
        simp
      · rw [temps, htemps, ← List.cons_append, Temps.place_append]
        rfl
      · rw [Script.remaining_append fun cell hc => (path.saved cell hc).imp fun _ h => h.1, rest]
        rfl

/-- With enough depth, a waiting leaf takes its next tick, and what is left of the reading is played after its last. -/
theorem resumes_waiting (hd : S.rank id + below.length + 3 ≤ d) (hn : S.IsLeaf n) (hpath : S.Path id n.id below)
    (h : t.Holds S o ((n.id, .value (.int (k + 1 : Nat))) :: below)) :
    ((ofDepth d : Engine σ).resume 0 ⟨o, S.tree⟩ t).Gives (S.Resumes o id n.id (k + 1) below t) := by
  obtain ⟨d, rfl⟩ : ∃ d', d = d' + 2 := ⟨d - 2, by omega⟩
  obtain ⟨hframes, htemps⟩ := h.popped hpath
  change ((ofDepth (d + 1) : Engine σ).resumeAbove 0 ⟨o, S.tree⟩ t).Gives _
  refine gives_resumeAbove h.frames ?_
  change ((do (ofDepth d).runNode (← TickM.node n.id) : TickM σ Status) ⟨o, S.tree⟩ t).Gives _
  rw [gives_bind, gives_node hn.get]
  refine (hn.ticks_resumed h.frames h.get h.calm).mono ?_
  rintro s u ⟨hticks, hlast⟩
  cases hticks with
  | took hk htook =>
    rw [if_pos rfl]
    refine .took hk ?_ (h.of_same htook.same htook.frames ?_) htook.seen
    · exact ⟨htook.same.world, htook.same.vars, htook.same.input, htook.same.output⟩
    · rw [htook.temps, htemps]
      rfl
  | completed hk hdone =>
    rw [if_neg hn.ne_running]
    have hu : u.Holds S o below := h.of_same hdone.same (hdone.stack ▸ hframes) (hdone.temps.trans htemps)
    refine (plays_resume (by omega) hpath hu (hlast ▸ hn.ne_running)).mono fun s v hv => ?_
    rw [hlast] at hv
    refine .completed (v := u.bare) hk ?_ ⟨rfl, rfl, hu.vars, hu.calm⟩ hdone.seen hv
    exact ⟨hdone.same.world, hdone.same.vars, hdone.same.input, hdone.same.output⟩

end Engine

end BehaviorTree
