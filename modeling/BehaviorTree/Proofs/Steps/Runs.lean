import Mathlib.Algebra.GroupWithZero.Nat
import BehaviorTree.Proofs.Steps.Resumption
import BehaviorTree.Proofs.Tree.Loading
import BehaviorTree.Proofs.World.Alone

/-!
Runs of an instance of a tree of steps, one after the other until the tree has ended. Each run takes one tick of the
leaf that waits; together they play the reading of the tree.
-/

namespace BehaviorTree
set_option autoImplicit false

open TickM

variable {σ : Type} {S : Script} {o : Tag} {e : Engine σ} {w w' : World σ} {i : Instance} {visits : List Visit}

/-- An instance that nobody listens for, and the calls of leaves that were seen of it. -/
structure World.Has (S : Script) (o : Tag) (i : Instance) (visits : List Visit) (w : World σ) : Prop where
  instanceOf : w.instanceOf o = i
  unheard : w.Unheard o
  visits : w.visits S.tree o = visits

theorem World.Around.visits_eq {tree : Tree} (h : Around o w w') : w'.visits tree o = w.visits tree o :=
  h.filterMap_acts fun a ha => by cases a <;> first | rfl | exact ha.elim

namespace Engine

theorem gives_runTree {env : Env} {Q : Except RunError Status → World σ → Prop}
    (hp : ∀ w : World σ, (w.instanceOf o).pending = [] → w.Gives (e.runPending o) fun _ w' => w' = w)
    (h : w.Has S o { tree := S.tree, env } visits)
    (hm : ∀ t : Tick σ, t.env = env → (t.world.instanceOf o).interrupted = false → t.seen S o = visits →
      ((if env.stack.isEmpty then e.run S.tree.root else e.resume 0) ⟨o, S.tree⟩ t).Gives fun s u =>
        (∃ journal, u.world = { t.world with journal }) ∧
        ∀ w' : World σ, w'.Has S o { tree := S.tree, env := u.env } (u.seen S o) → Q (.ok s) w') :
    w.Gives (e.runTree o) Q := by
  have hsolo : w.Solo o S.tree env := ⟨h.instanceOf, h.unheard⟩
  have hcalm : ((w.entered o).instanceOf o).interrupted = false := by rw [hsolo.instanceOf_entered]
  obtain ⟨s, u, hu, hworld, hq⟩ := (hm ⟨env, w.entered o⟩ rfl hcalm (w.around_entered.visits_eq.trans h.visits)).exists
  obtain ⟨w', hrun, haround, hsolo'⟩ := runTree_of_ok hsolo hp hu hworld
  rw [World.Gives, hrun]
  exact hq w' ⟨hsolo'.instanceOf, hsolo'.unheard, haround.visits_eq⟩

/-- Runs of an instance until one ends the tree: their number, how the tree ends, and the world after them. -/
inductive RunsOut (e : Engine σ) (owner : Tag) : World σ → Nat → Status → World σ → Prop where
  | last {w w' : World σ} {s : Status} : (e.runTree owner).run w = .ok (.ok s, w') → s ≠ .running →
      RunsOut e owner w 1 s w'
  | more {w w' w'' : World σ} {k : Nat} {s : Status} : (e.runTree owner).run w = .ok (.ok .running, w') →
      RunsOut e owner w' k s w'' → RunsOut e owner w (k + 1) s w''

end Engine

namespace Script

def total (S : Script) (r : Reading) : Nat := (r.completed.map S.ticks).sum

def RunsTo (S : Script) (e : Engine σ) (o : Tag) (w : World σ) (runs : Nat) (s : Status) (visits : List Visit) : Prop :=
  ∃ w', e.RunsOut o w runs s w' ∧ w'.visits S.tree o = visits

/-- An instance stands still between runs, with `x` on top of the stack for its next tick after `k` calls, and a
reading still to be played afterwards. -/
structure Waits (S : Script) (o : Tag) (x : NodeId) (k : Nat) (below : List Cell) (r : Reading) (visits : List Visit)
    (w : World σ) : Prop where
  has : ∃ env, w.Has S o { tree := S.tree, env } visits ∧
    Tick.Holds S o ((x, .value (.int (k : Nat))) :: below) (⟨env, w⟩ : Tick σ)
  leaf : S.tree.isLeaf x = true
  path : S.Path S.tree.root x below
  ticks : k ≤ S.ticks x
  rest : S.remaining below (S.result x) = r
  ends : r.status ≠ .running

theorem exists_leaf {x : NodeId} (h : S.tree.isLeaf x = true) : ∃ n, n.id = x ∧ S.IsLeaf n := by
  rw [Tree.isLeaf] at h
  split at h
  · rename_i n hn
    obtain rfl := S.orderly.id_eq hn
    split at h
    · rename_i react hb
      rcases S.leaf_or_inner hn (by simp [hb]) with hleaf | hinner
      · exact ⟨n, rfl, hleaf⟩
      · exact absurd hb (hinner.leaf react)
    · cases h
  · cases h

/-- A run that plays a reading ends the tree, or has a leaf wait that the reading completes. -/
theorem runsTo_of_plays {w w' : World σ} {t u : Tick σ} {r : Reading} {s : Status}
    (hrun : (e.runTree o).run w = .ok (.ok s, w')) (ht : t.Holds S o [])
    (hplays : S.Plays o S.tree.root t [] r s u) (hw' : w'.Has S o { tree := S.tree, env := u.env } (u.seen S o))
    (hends : r.status ≠ .running)
    (hwaits : ∀ x below r' visits (w : World σ), S.Waits o x 1 below r' visits w →
      S.ticks x + S.total r' ≤ S.total r → S.RunsTo e o w (S.ticks x + S.total r') r'.status
        (visits ++ List.replicate (S.ticks x - 1) (x, .running) ++ [(x, S.result x)] ++ S.play r')) :
    S.RunsTo e o w (1 + S.total r) r.status (t.seen S o ++ S.play r) := by
  cases hplays with
  | ended same stack temps seen swift =>
    have htotal : S.total r = 0 := by
      rw [total, List.map_congr_left swift]
      simp
    rw [htotal]
    exact ⟨w', .last hrun hends, hw'.visits.trans seen⟩
  | @waits _ x done left below same frames temps seen cut swift ticks leaf path rest =>
    have hdone : (done.map S.ticks).sum = 0 := by
      rw [List.map_congr_left swift]
      simp
    have htotal : S.total r = S.ticks x + S.total ⟨r.status, left⟩ := by
      rw [total, total, cut, List.map_append, List.sum_append, hdone, List.map_cons, List.sum_cons, Nat.zero_add]
    have hholds : Tick.Holds S o ((x, .value (.int (1 : Nat))) :: below) (⟨u.env, w'⟩ : Tick σ) := by
      refine ⟨by simpa using frames, ?_, fun hname => (same.vars hname).trans (ht.vars hname), ?_⟩
      · rw [temps, ht.temps]
        rfl
      · rw [hw'.instanceOf]
    obtain ⟨w'', hout, hvisits⟩ := hwaits x below ⟨r.status, left⟩ _ w'
      ⟨⟨u.env, hw', hholds⟩, leaf, path, ticks, rest, hends⟩ (Nat.le_of_eq htotal.symm)
    refine ⟨w'', ?_, ?_⟩
    · rw [htotal, Nat.add_comm]
      exact .more hrun hout
    · obtain ⟨k, hk⟩ : ∃ k, S.ticks x = k + 1 := ⟨S.ticks x - 1, by omega⟩
      rw [hvisits, seen, play, play, cut, List.flatMap_append, List.flatMap_cons, Script.visits, hk, List.replicate_succ]
      simp [List.append_assoc]

variable {d k : Nat} {x : NodeId} {below : List Cell} {r : Reading}

/-- With enough depth, a leaf that waits takes the ticks that it has left, and then the rest is played. -/
theorem runsTo_of_waits (hd : 2 * S.rank S.tree.root + 4 ≤ d) (h : S.Waits o x (k + 1) below r visits w) :
    S.RunsTo (Engine.ofDepth d) o w (1 + (S.ticks x - (k + 1)) + S.total r) r.status
      (visits ++ List.replicate (S.ticks x - (k + 1)) (x, .running) ++ [(x, S.result x)] ++ S.play r) := by
  induction hm : S.ticks x - (k + 1) + S.total r using Nat.strong_induction_on generalizing x k below r visits w with
  | h m ih =>
    obtain ⟨env, hhas, hholds⟩ := h.has
    obtain ⟨n, rfl, hn⟩ := exists_leaf h.leaf
    have hlen := h.path.length_le
    have hframes : env.stack.isEmpty = false := by
      rw [Stack.isEmpty, hholds.frames]
      rfl
    have hgives : w.Gives ((Engine.ofDepth d).runTree o) fun a w' => ∃ (s : Status) (t u : Tick σ), a = .ok s ∧
        S.Resumes o S.tree.root n.id (k + 1) below t s u ∧ t.seen S o = visits ∧
        w'.Has S o { tree := S.tree, env := u.env } (u.seen S o) := by
      obtain ⟨d, rfl⟩ : ∃ d', d = d' + 1 := ⟨d - 1, by omega⟩
      refine Engine.gives_runTree (fun w hw => Engine.gives_runPending d hw) hhas fun t henv hcalm hseen => ?_
      rw [if_neg (by simp [hframes])]
      have ht : t.Holds S o ((n.id, .value (.int (k + 1 : Nat))) :: below) :=
        ⟨henv ▸ hholds.frames, henv ▸ hholds.temps, henv ▸ hholds.vars, hcalm⟩
      refine (Engine.resumes_waiting (by omega) hn h.path ht).mono fun s u hu => ⟨?_, fun w' hw' => ?_⟩
      · cases hu with
        | took _ same => exact same.world
        | completed _ same _ _ plays => exact (same.trans plays.same).world
      · exact ⟨s, t, u, rfl, hu, hseen, hw'⟩
    obtain ⟨_, w', hrun, s, t, u, rfl, hresumes, hseen, hw'⟩ := hgives.exists
    cases hresumes with
    | took ticks same holds seen =>
      have hnext : S.Waits o n.id (k + 1 + 1) below r (visits ++ [(n.id, .running)]) w' := by
        refine ⟨⟨u.env, by rw [← hseen, ← seen]; exact hw', ?_⟩, h.leaf, h.path, ticks, h.rest, h.ends⟩
        exact ⟨holds.frames, holds.temps, holds.vars, by rw [hw'.instanceOf]⟩
      obtain ⟨j, hj⟩ : ∃ j, S.ticks n.id = k + 1 + (j + 1) := ⟨S.ticks n.id - (k + 1) - 1, by omega⟩
      have hj' : S.ticks n.id - (k + 1 + 1) = j := by omega
      obtain ⟨w'', hout, hvisits⟩ := ih (j + S.total r) (by omega) hnext (by rw [hj'])
      rw [hj'] at hout hvisits
      rw [show S.ticks n.id - (k + 1) = j + 1 by omega]
      refine ⟨w'', ?_, ?_⟩
      · rw [show 1 + (j + 1) + S.total r = 1 + j + S.total r + 1 by omega]
        exact .more hrun hout
      · rw [hvisits, List.replicate_succ]
        simp [List.append_assoc]
    | @completed _ v _ ticks same holds seen plays =>
      have hzero : S.ticks n.id - (k + 1) = 0 := by
        have := h.ticks
        omega
      rw [h.rest] at plays
      obtain ⟨w'', hout, hvisits⟩ := runsTo_of_plays hrun holds plays hw' h.ends fun x below r' visits w hx hle => by
        have hpos := hx.ticks
        have hmeasure : S.ticks x - (0 + 1) + S.total r' < m := by omega
        have hthen := ih _ hmeasure hx rfl
        rwa [show 1 + (S.ticks x - (0 + 1)) = S.ticks x by omega] at hthen
      refine ⟨w'', ?_, ?_⟩
      · rw [hzero]
        exact hout
      · rw [hvisits, seen, hseen, hzero]
        simp

/-- With enough depth, a fresh instance plays the reading of its root. -/
theorem runsTo_of_fresh (hd : 2 * S.rank S.tree.root + 4 ≤ d)
    (h : w.Has S o { tree := S.tree, env := { vars := S.vars } } visits) :
    S.RunsTo (Engine.ofDepth d) o w (1 + S.total (S.reading S.tree.root)) (S.reading S.tree.root).status
      (visits ++ S.play (S.reading S.tree.root)) := by
  obtain ⟨n, hn⟩ := S.orderly.rooted
  have hroot := S.orderly.id_eq hn
  have hgives : w.Gives ((Engine.ofDepth d).runTree o) fun a w' => ∃ (s : Status) (t u : Tick σ), a = .ok s ∧
      t.Holds S o [] ∧ S.Plays o S.tree.root t [] (S.reading S.tree.root) s u ∧ t.seen S o = visits ∧
      w'.Has S o { tree := S.tree, env := u.env } (u.seen S o) := by
    obtain ⟨d, rfl⟩ : ∃ d', d = d' + 1 := ⟨d - 1, by omega⟩
    refine Engine.gives_runTree (fun w hw => Engine.gives_runPending d hw) h fun t henv hcalm hseen => ?_
    have hempty : ({ vars := S.vars } : Env).stack.isEmpty = true := rfl
    rw [if_pos hempty]
    have ht : t.Holds S o [] := by
      refine ⟨?_, ?_, fun _ => ?_, hcalm⟩
      · rw [henv]
        rfl
      · rw [henv]
        rfl
      · rw [henv]
    have hready : t.Ready S o (S.rank S.tree.root + 1) := by
      refine ⟨fun _ => ?_, ht.vars, hcalm⟩
      rw [ht.temps]
      simp [Temps.place]
    have hperforms : (Engine.ofDepth (d + 1) : Engine σ).Performs S o S.tree.root :=
      hroot ▸ Engine.performs_ofDepth (hroot ▸ hn) (S.not_case_root hn) (by rw [hroot]; omega)
    refine (hperforms t hready).mono fun s u hu => ⟨hu.1.same.world, fun w' hw' => ?_⟩
    refine ⟨s, t, u, rfl, ht, ?_, hseen, hw'⟩
    have hplays := hu.1
    rw [ht.frames] at hplays
    exact hplays
  obtain ⟨_, w', hrun, s, t, u, rfl, ht, hplays, hseen, hw'⟩ := hgives.exists
  rw [← hseen]
  refine runsTo_of_plays hrun ht hplays hw' (reading_ne_running _) fun x below r' visits w hx _ => ?_
  have hpos := hx.ticks
  have hthen := runsTo_of_waits (k := 0) hd hx
  rwa [show 1 + (S.ticks x - (0 + 1)) = S.ticks x by omega] at hthen

end Script

end BehaviorTree
