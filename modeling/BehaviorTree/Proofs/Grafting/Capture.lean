import BehaviorTree.Proofs.Engine.Contract
import BehaviorTree.Proofs.Grafting.Nodes
import BehaviorTree.Proofs.World.Lookout

/-!
The frames of a child that is still running are cut off and put back later, maybe on other frames. What a subtree does
above a level does not depend on what lies below that level, nor on what the nodes outside of the subtree have saved:
both ways of calling a child give the same on both grounds, and spare what is not the subtree's.
-/

namespace BehaviorTree
set_option autoImplicit false

variable {σ : Type}

/-- A stack that was cut off at a node: its frame, with frames of nodes under it on top. -/
def Stack.CutAt (tree : Tree) (root : NodeId) (s : Stack) : Prop :=
  ∃ above, (∀ x ∈ above, tree.Under root x) ∧ s.frames = above ++ [root]

namespace Tick

/-- Two states in which a subtree finds the same. The stacks, what nodes outside of the subtree have saved, what is
parked and the slot values of the caller may be different. -/
structure Agrees (tree : Tree) (root : NodeId) (t t' : Tick σ) : Prop where
  world : t'.world = t.world
  vars : t'.env.vars = t.env.vars
  privates : t'.env.privates = t.env.privates
  listening : t'.env.listening = t.env.listening
  lastStatus : t'.env.lastStatus = t.env.lastStatus
  temps {x : NodeId} : tree.Subtree root x → t'.env.temps[x]? = t.env.temps[x]?

def Inward (tree : Tree) (root : NodeId) (t : Tick σ) : Prop :=
  ∀ {x y : NodeId} {p : Payload},
    tree.Subtree root x → t.env.temps[x]? = some p → y ∈ p.nestedFrames → tree.Under root y

/-- Two states in which a subtree finds the same, and finds its way around in what it has saved. -/
structure Accords (tree : Tree) (root : NodeId) (t t' : Tick σ) : Prop extends t.Agrees tree root t' where
  inward : t.Inward tree root

/-- Frames were put on top. Those below are as they were, and so is what is not the subtree's. -/
structure Spares (tree : Tree) (root : NodeId) (above : List NodeId) (t u : Tick σ) : Prop where
  frames : u.env.stack.frames = above ++ t.env.stack.frames
  temps {x : NodeId} : ¬ tree.Subtree root x → u.env.temps[x]? = t.env.temps[x]?
  detached : u.env.detached = t.env.detached
  slots : t.env.SameSlots u.env

/-- A captured call has given the same result in both states, and has cut off what the subtree has left on the stack. -/
structure Captured (c : Activation) (root : NodeId) (t t' : Tick σ) (r : Status × Stack) (u u' : Tick σ) : Prop where
  accords : u.Accords c.tree root u'
  spares : t.Spares c.tree root [] u
  spares' : t'.Spares c.tree root [] u'
  running : r.1 = .running → r.2.CutAt c.tree root ∧ (¬ u.Flagged c → u.env.isSuspended root)
  ended : r.1 ≠ .running → r.2 = ∅ ∧ u.env.temps[root]? = none

/-- A captured call has failed in both states, and has left the same frames on both stacks. -/
structure Broken (c : Activation) (root : NodeId) (t t' u u' : Tick σ) : Prop where
  accords : u.Accords c.tree root u'
  spares : ∃ above, t.Spares c.tree root above u ∧ t'.Spares c.tree root above u'

end Tick

namespace Graft

variable {G : Graft} {S : Stack → Stack → Prop} {env env' : Env} {t t' : Tick σ}

/-- How a run of the whole subtree leaves the two grounds: its frames stay while it is running, and go once it has
ended. -/
structure Ends (G : Graft) (status : Status) (u u' : Tick σ) : Prop where
  running : status = .running → G.Near u u' ∧ (¬ u.Flagged G.activation → u.env.isSuspended G.root)
  bare : status ≠ .running → G.Like G.Bare u.env u'.env ∧ u'.world = u.world
  ended : status ≠ .running → u.env.lastStatus = status ∧ u.env.temps[G.root]? = none

/-- A run of the whole subtree has failed: its frames are left, or there were none. -/
def Breaks (G : Graft) (u u' : Tick σ) : Prop :=
  G.Like (fun s s' => G.Stands s s' ∨ G.Bare s s') u.env u'.env ∧ u'.world = u.world

theorem Near.breaks {u u' : Tick σ} (h : G.Near u u') : G.Breaks u u' :=
  ⟨⟨.inl h.env.stack, h.env.payloads, h.env.detached, h.env.detached', h.env.same⟩, h.world⟩

/-- The root leaves its frame, and with it the subtree is gone from the stack. -/
theorem leaveRoot (hG : G.Fits) {status : Status} (hs : status ≠ .running) {u u' : Tick σ} (h : G.Near u u')
    (hlast : u.env.lastStatus = status) :
    (Engine.leaveFrame G.root status G.activation u).Matches G.Ends G.Near
      (Engine.leaveFrame G.root status G.activation u') := by
  rw [Engine.leaveFrame_apply, Engine.leaveFrame_apply, h.env.stack.top?_eq]
  split
  · rename_i htop
    obtain ⟨hframes, hframes'⟩ := h.env.stack.pop_root hG htop
    have hpop : ∀ {env : Env} {below : Stack}, env.stack.frames = G.root :: below.frames →
        env.popFrame = { env with stack := below, temps := env.temps.erase G.root } := by
      intro env below h
      simp [Env.popFrame, Stack.pop, h]
    refine ⟨rfl, ?_⟩
    rw [hpop hframes, hpop hframes']
    have hbare : G.Bare G.here.stack G.there.stack := ⟨rfl, rfl⟩
    refine ⟨fun h => absurd h hs, fun _ => ⟨?_, h.world⟩, fun _ => ⟨hlast, ?_⟩⟩
    · exact (h.env.setStack hbare).setTemps (h.env.payloads.erase root_subtree)
    · exact (Temps.get_erase _ _ _).trans (if_pos rfl)
  · exact ⟨rfl, h⟩

end Graft

open Graft

variable {G : Graft} {e : Engine σ}

theorem Engine.Grafts.runRoot (he : e.Grafts G) {n : Node} (hn : G.Has n) (hroot : n.id = G.root) (resumed : Bool) :
    G.Goes G.Near G.Ends (e.runFramed n resumed) (e.runFramed n resumed) := by
  refine he.runFramed hn (fun u u' hu hflag => ?_) (fun u u' hu hsuspended => ?_) (fun status hs u u' hu hlast => ?_)
    resumed
  · exact ⟨fun _ => ⟨hu, fun h => absurd hflag h⟩, fun h => absurd rfl h, fun h => absurd rfl h⟩
  · exact ⟨fun _ => ⟨hu, fun _ => hroot ▸ hsuspended⟩, fun h => absurd rfl h, fun h => absurd rfl h⟩
  · rw [hroot]
    exact leaveRoot he.fits hs hu hlast

namespace Graft

theorem resume_bare {status : Status} (depth : Nat) {u u' : Tick σ} (h : G.Ends status u u') (hs : status ≠ .running) :
    ((Engine.ofDepth depth).resume G.here.stack.size G.activation u).Matches G.Ends G.Near
      ((Engine.ofDepth depth).resume G.there.stack.size G.activation u') := by
  obtain ⟨hlike, -⟩ := h.bare hs
  cases depth with
  | zero => rfl
  | succ depth =>
    change ((Engine.ofDepth depth).resumeAbove _ _ _).Matches G.Ends G.Near ((Engine.ofDepth depth).resumeAbove _ _ _)
    rw [Engine.resumeAbove_of_le, Engine.resumeAbove_of_le, hlike.lastStatus, (h.ended hs).1]
    · exact ⟨rfl, h⟩
    · rw [hlike.stack.2]
    · rw [hlike.stack.1]

/-- The frames above the root are resumed, then the root itself. Each round brings the root nearer to the top. -/
theorem resume_ends (hG : G.Fits) (hr : G.resumed) (depth : Nat) :
    ∀ t t' : Tick σ, G.Near t t' →
      ((Engine.ofDepth depth).resume G.here.stack.size G.activation t).Matches G.Ends G.Near
        ((Engine.ofDepth depth).resume G.there.stack.size G.activation t') := by
  induction depth with
  | zero => exact fun _ _ _ => rfl
  | succ depth ih =>
    intro t t' ht
    change ((Engine.ofDepth depth).resumeAbove _ _ _).Matches G.Ends G.Near ((Engine.ofDepth depth).resumeAbove _ _ _)
    obtain ⟨above, habove, hframes, hframes'⟩ := ht.env.stack
    cases above with
    | cons top above =>
      have hbelow : ∀ base : Stack, base.size ≤ (above ++ G.root :: base.frames).length := by
        intro base
        rw [List.length_append, List.length_cons, Stack.size]
        omega
      rw [Engine.resumeAbove_of_lt hframes (hbelow _), Engine.resumeAbove_of_lt hframes' (hbelow _)]
      refine ((Engine.grafts_ofDepth hG depth).run (habove top List.mem_cons_self) t t' ht).bind (fun _ _ => id)
        fun status u u' hu => ?_
      cases status with
      | running => exact ⟨rfl, fun _ => ⟨hu.2, fun _ => hu.2.root hr⟩, fun h => absurd rfl h, fun h => absurd rfl h⟩
      | success => exact ih u u' hu.2
      | failure => exact ih u u' hu.2
    | nil =>
      rw [Engine.resumeAbove_of_lt hframes (show G.here.stack.size ≤ _ from Nat.le_refl _),
        Engine.resumeAbove_of_lt hframes' (show G.there.stack.size ≤ _ from Nat.le_refl _)]
      have hroot : ((Engine.ofDepth depth).run G.root G.activation t).Matches G.Ends G.Near
          ((Engine.ofDepth depth).run G.root G.activation t') := by
        cases depth with
        | zero => rfl
        | succ depth =>
          refine Goes.node (f := (Engine.ofDepth depth).runNode) (g := (Engine.ofDepth depth).runNode) hG root_subtree
            (fun n hid hn u u' hu => ?_) t t' ht
          rw [Engine.runNode_eq, Engine.runNode_eq, hu.env.isSuspended hn.subtree, hid, if_pos (hu.root hr),
            if_pos (hu.root hr)]
          exact (Engine.grafts_ofDepth hG depth).runRoot hn hid _ u u' hu
      refine hroot.bind (fun _ _ => id) fun status u u' hu => ?_
      cases status with
      | running => exact ⟨rfl, hu⟩
      | success => exact resume_bare depth hu (by decide)
      | failure => exact resume_bare depth hu (by decide)

/-- What is left of the subtree on the stack is cut off, so that the ground is bare. -/
structure Closes (G : Graft) (r : Status × Stack) (u u' : Tick σ) : Prop where
  like : G.Like G.Bare u.env u'.env
  world : u'.world = u.world
  running : r.1 = .running → r.2.CutAt G.activation.tree G.root ∧ (¬ u.Flagged G.activation → u.env.isSuspended G.root)
  ended : r.1 ≠ .running → r.2 = ∅ ∧ u.env.temps[G.root]? = none

theorem Ends.capture {status : Status} {u u' : Tick σ} (h : G.Ends status u u') :
    ((do return (status, ← TickM.capture status G.here.stack.size) : TickM σ (Status × Stack)) G.activation u).Matches
      G.Closes G.Breaks
      ((do return (status, ← TickM.capture status G.there.stack.size) : TickM σ (Status × Stack)) G.activation u') := by
  by_cases hs : status = .running
  · subst hs
    obtain ⟨hnear, hsuspended⟩ := h.running rfl
    obtain ⟨above, habove, hframes, hframes'⟩ := hnear.env.stack
    have hcut : ∀ {s base : Stack}, s.frames = above ++ G.root :: base.frames →
        s.splitAt base.size = (base, ⟨above ++ [G.root]⟩) := by
      intro s base hs
      have happend : s = base ++ ⟨above ++ [G.root]⟩ := by
        refine congrArg Stack.mk (hs.trans ?_)
        rw [List.append_assoc]
        rfl
      rw [happend, Stack.splitAt_append]
    change (Outcome.ok (Status.running, (u.env.stack.splitAt _).2)
      { u with env := { u.env with stack := (u.env.stack.splitAt _).1 } }).Matches G.Closes G.Breaks
      (.ok (.running, (u'.env.stack.splitAt _).2)
        { u' with env := { u'.env with stack := (u'.env.stack.splitAt _).1 } })
    rw [hcut hframes, hcut hframes']
    refine ⟨rfl, hnear.env.setStack ⟨rfl, rfl⟩, hnear.world, fun _ => ⟨⟨above, habove, rfl⟩, hsuspended⟩, ?_⟩
    exact fun h => absurd rfl h
  · obtain ⟨hbare, hworld⟩ := h.bare hs
    have hempty : ∀ (level : Nat) (v : Tick σ),
        (do return (status, ← TickM.capture status level) : TickM σ (Status × Stack)) G.activation v =
          .ok (status, ∅) v := by
      intro level v
      cases status with
      | running => exact absurd rfl hs
      | success => rfl
      | failure => rfl
    rw [hempty, hempty]
    exact ⟨rfl, hbare, hworld, fun h => absurd h hs, fun _ => ⟨rfl, (h.ended hs).2⟩⟩

theorem captured {m k : TickM σ Status} {u u' : Tick σ}
    (h : (m G.activation u).Matches G.Ends G.Breaks (k G.activation u')) :
    ((do let status ← m; return (status, ← TickM.capture status G.here.stack.size) : TickM σ (Status × Stack))
      G.activation u).Matches G.Closes G.Breaks
      ((do let status ← k; return (status, ← TickM.capture status G.there.stack.size) : TickM σ (Status × Stack))
        G.activation u') :=
  h.bind (fun _ _ => id) fun _ _ _ hu => hu.capture

end Graft

/-! ### Captured calls -/

namespace Tick

variable {c : Activation} {root : NodeId} {t t' : Tick σ}

def Accords.graft (_ : t.Accords c.tree root t') (resumed : Prop) : Graft := ⟨c, root, t.env, t'.env, resumed⟩

/-- The subtree starts on the two grounds with whatever frames are put on them. -/
theorem Accords.like (h : t.Accords c.tree root t') {resumed : Prop} {S : Stack → Stack → Prop} {s s' : Stack}
    (hs : S s s') :
    (h.graft resumed).Like S { t.env with stack := s } { t'.env with stack := s' } := by
  refine ⟨hs, ⟨h.temps, h.inward, fun _ => rfl, fun _ => rfl⟩, rfl, rfl, s', t'.env.temps, t'.env.detached,
    t'.env.input, t'.env.output, ?_⟩
  obtain ⟨⟨-, hvars, hprivates, hlistening, hlast, -⟩, -⟩ := h
  rw [← hvars, ← hprivates, ← hlistening, ← hlast]

theorem Accords.of_like {resumed : Prop} (h : t.Accords c.tree root t') {S : Stack → Stack → Prop} {u u' : Tick σ}
    (hu : (h.graft resumed).Like S u.env u'.env) (hworld : u'.world = u.world) : u.Accords c.tree root u' :=
  ⟨⟨hworld, hu.vars, hu.privates, hu.listening, hu.lastStatus, hu.payloads.same⟩, hu.payloads.inward⟩

/-- What is not the subtree's is as it was on both grounds. -/
theorem Accords.spares {resumed : Prop} (h : t.Accords c.tree root t') {S : Stack → Stack → Prop} {u u' : Tick σ}
    (hu : (h.graft resumed).Like S u.env u'.env) (above : List NodeId)
    (hframes : u.env.stack.frames = above ++ t.env.stack.frames)
    (hframes' : u'.env.stack.frames = above ++ t'.env.stack.frames) (hslots : t.env.SameSlots u.env)
    (hslots' : t'.env.SameSlots u'.env) :
    t.Spares c.tree root above u ∧ t'.Spares c.tree root above u' :=
  ⟨⟨hframes, hu.payloads.here, hu.detached, hslots⟩, ⟨hframes', hu.payloads.there, hu.detached', hslots'⟩⟩

/-- A call that closes the subtree is captured, if it gives the slot values back. -/
theorem Accords.captures (h : t.Accords c.tree root t') (resumed : Prop) {m : TickM σ (Status × Stack)}
    (hm : m.Restores) (hends : (m c t).Matches (h.graft resumed).Closes (h.graft resumed).Breaks (m c t')) :
    (m c t).Matches (Captured c root t t') (Broken c root t t') (m c t') := by
  have hslots := hm c t
  have hslots' := hm c t'
  generalize m c t = o, m c t' = o' at *
  cases o <;> cases o'
  case ok.ok r u r' u' =>
    obtain ⟨rfl, hlike, hworld, hrunning, hended⟩ := hends
    obtain ⟨hspares, hspares'⟩ := h.spares hlike [] (congrArg Stack.frames hlike.stack.1)
      (congrArg Stack.frames hlike.stack.2) hslots hslots'
    exact ⟨rfl, h.of_like hlike hworld, hspares, hspares', hrunning, hended⟩
  case failed.failed error u error' u' =>
    obtain ⟨rfl, hlike, hworld⟩ := hends
    refine ⟨rfl, h.of_like hlike hworld, ?_⟩
    rcases hlike.stack with ⟨above, -, hframes, hframes'⟩ | ⟨hbare, hbare'⟩
    · have happend : ∀ base : List NodeId, above ++ root :: base = (above ++ [root]) ++ base := fun base => by
        rw [List.append_assoc, List.singleton_append]
      exact ⟨above ++ [root], h.spares hlike _ (hframes.trans (happend _)) (hframes'.trans (happend _)) hslots hslots'⟩
    · exact ⟨[], h.spares hlike [] (congrArg Stack.frames hbare) (congrArg Stack.frames hbare') hslots hslots'⟩
  case halted.halted => exact hends
  all_goals exact hends.elim

/-- A node that is not suspended is put on top of both grounds. -/
theorem Accords.run (h : t.Accords c.tree root t') (hc : c.tree.Orderly) (hfresh : t.env.temps[root]? = none)
    (depth : Nat) :
    ((Engine.ofDepth depth).run root c t).Matches (h.graft False).Ends (h.graft False).Breaks
      ((Engine.ofDepth depth).run root c t') := by
  cases depth with
  | zero => rfl
  | succ depth =>
    cases hget : c.tree.get? root with
    | none =>
      have hunknown : ∀ v : Tick σ,
          (Engine.ofDepth (depth + 1)).run root c v = .failed (.unknownNode c.tree.name root) v := by
        intro v
        change (TickM.node root >>= fun n => (Engine.ofDepth depth).runNode n) c v = _
        rw [TickM.bind_apply, TickM.node, TickM.bind_apply, TickM.tree]
        simp only [hget]
        rfl
      rw [hunknown, hunknown]
      exact ⟨rfl, h.like (S := fun s s' => _ ∨ _) (.inr ⟨rfl, rfl⟩), h.world⟩
    | some n =>
      obtain rfl := hc.id_eq hget
      have hfree : ∀ {env : Env}, env.temps[n.id]? = none → env.isSuspended n.id = false := fun hnone => by
        rw [Env.isSuspended_eq, hnone]
        rfl
      have hG : (h.graft False).Fits := hc
      have hroot : (h.graft False).Has n := ⟨hget, .refl⟩
      have hnear : (h.graft False).Near (t.pushed n.id) (t'.pushed n.id) :=
        ⟨h.like ⟨[], List.forall_mem_nil _, rfl, rfl⟩, h.world, False.elim⟩
      rw [Engine.run_ofDepth hget, Engine.run_ofDepth hget, Engine.runNode_eq, Engine.runNode_eq, hfree hfresh,
        hfree ((h.temps .refl).trans hfresh), if_neg Bool.false_ne_true, if_neg Bool.false_ne_true]
      exact ((Engine.grafts_ofDepth hG depth).runRoot hroot rfl false _ _ hnear).mono (fun _ _ _ _ => id) fun _ _ =>
        Near.breaks

/-- A stack that was cut off at a suspended node is put back on both grounds. -/
theorem Accords.resume (h : t.Accords c.tree root t') (hc : c.tree.Orderly) {saved : Stack}
    (hcut : saved.CutAt c.tree root) (hsuspended : t.env.isSuspended root) (depth : Nat) :
    ((Engine.ofDepth depth).resume t.env.stack.size c
        { t with env := { t.env with stack := t.env.stack ++ saved } }).Matches
      (h.graft True).Ends (h.graft True).Breaks
      ((Engine.ofDepth depth).resume t'.env.stack.size c
        { t' with env := { t'.env with stack := t'.env.stack ++ saved } }) := by
  obtain ⟨above, habove, hsaved⟩ := hcut
  have happend : ∀ base : Stack, (base ++ saved).frames = above ++ root :: base.frames := fun base => by
    rw [Stack.frames_append, hsaved, List.append_assoc, List.singleton_append]
  refine (resume_ends (G := h.graft True) hc trivial depth _ _ ?_).mono (fun _ _ _ _ => id) fun _ _ => Near.breaks
  exact ⟨h.like ⟨above, habove, happend _, happend _⟩, h.world, fun _ => hsuspended⟩

/-- Both ways of calling a child, in two states in which its subtree finds the same. -/
theorem Accords.captured (h : t.Accords c.tree root t') (hc : c.tree.Orderly) (depth : Nat) :
    (t.env.temps[root]? = none →
      ((Engine.ofDepth depth).runCaptured root c t).Matches (Captured c root t t') (Broken c root t t')
        ((Engine.ofDepth depth).runCaptured root c t')) ∧
    ∀ saved : Stack, saved.CutAt c.tree root → t.env.isSuspended root →
      ((Engine.ofDepth depth).resumeCaptured saved c t).Matches (Captured c root t t') (Broken c root t t')
        ((Engine.ofDepth depth).resumeCaptured saved c t') := by
  refine ⟨fun hfresh => ?_, fun saved hcut hsuspended => ?_⟩
  · refine h.captures False ((Engine.restoring_ofDepth depth).runCaptured root) ?_
    exact Graft.captured (m := (Engine.ofDepth depth).run root) (k := (Engine.ofDepth depth).run root)
      (h.run hc hfresh depth)
  · refine h.captures True ((Engine.restoring_ofDepth depth).resumeCaptured saved) ?_
    exact Graft.captured (m := (Engine.ofDepth depth).resume _) (k := (Engine.ofDepth depth).resume _)
      (h.resume hc hcut hsuspended depth)

/-- No node of a subtree has saved anything. -/
def Clear (tree : Tree) (root : NodeId) (t : Tick σ) : Prop := ∀ x, tree.Subtree root x → t.env.temps[x]? = none

/-- A stack that calls of a subtree have captured while its root was running, without a request to interrupt it. Since
then nobody else has touched what the subtree has saved. -/
inductive Retains (c : Activation) (root : NodeId) : Tick σ → Stack → Prop
  | ran {depth : Nat} {t u : Tick σ} {saved : Stack} : t.Clear c.tree root →
      (Engine.ofDepth depth).runCaptured root c t = .ok (.running, saved) u → ¬ u.Flagged c → Retains c root u saved
  | resumed {depth : Nat} {t u : Tick σ} {saved left : Stack} : Retains c root t saved →
      (Engine.ofDepth depth).resumeCaptured saved c t = .ok (.running, left) u → ¬ u.Flagged c → Retains c root u left
  | meanwhile {t u : Tick σ} {saved : Stack} : Retains c root t saved →
      (∀ x, c.tree.Subtree root x → u.env.temps[x]? = t.env.temps[x]?) → Retains c root u saved

theorem Clear.inward {tree : Tree} (h : t.Clear tree root) : t.Inward tree root := fun hx hp => by
  rw [h _ hx] at hp
  cases hp

theorem Agrees.refl (tree : Tree) (root : NodeId) (t : Tick σ) : t.Agrees tree root t :=
  ⟨rfl, rfl, rfl, rfl, rfl, fun _ => rfl⟩

theorem Captured.retains {r : Status × Stack} {u u' : Tick σ} (h : Captured c root t t' r u u') (hr : r.1 = .running)
    (hf : ¬ u.Flagged c) : r.2.CutAt c.tree root ∧ u.env.isSuspended root ∧ u.Inward c.tree root :=
  ⟨(h.running hr).1, (h.running hr).2 hf, h.accords.inward⟩

/-- A stack that is retained was cut off at the root, which is suspended. -/
theorem Retains.cut (hc : c.tree.Orderly) {saved : Stack} (h : t.Retains c root saved) :
    saved.CutAt c.tree root ∧ t.env.isSuspended root ∧ t.Inward c.tree root := by
  induction h with
  | @ran depth t u saved hclear hrun hf =>
    have hends := (Accords.captured ⟨.refl _ _ t, hclear.inward⟩ hc depth).1 (hclear _ .refl)
    rw [hrun] at hends
    exact hends.2.retains rfl hf
  | @resumed depth t u saved left _ hresume hf ih =>
    obtain ⟨hcut, hsuspended, hinward⟩ := ih
    have hends := (Accords.captured ⟨.refl _ _ t, hinward⟩ hc depth).2 saved hcut hsuspended
    rw [hresume] at hends
    exact hends.2.retains rfl hf
  | @meanwhile t u saved _ hsame ih =>
    obtain ⟨hcut, hsuspended, hinward⟩ := ih
    refine ⟨hcut, ?_, fun hx hp => hinward hx ((hsame _ hx).symm.trans hp)⟩
    rw [Env.isSuspended_eq] at hsuspended ⊢
    rw [hsame root .refl]
    exact hsuspended

end Tick

/-- Above a level it makes no difference what is below. A subtree that has saved nothing is run afresh, and a stack that
it retains is resumed, in two states in which it finds the same. Both calls give the same status with the same
frames cut off, or fail with the same error, and the subtree finds the same again. The frames below the level stay in
each state, and so does what is saved outside of the subtree. Unless the root is still running, the stack is at the
level again. -/
theorem Engine.captured_above_level {registry : Registry} (hr : registry.Plain) {c : Activation}
    (hl : registry.Loads c.tree) {root : NodeId} {t t' : Tick σ} (h : t.Agrees c.tree root t') (depth : Nat) :
    (t.Clear c.tree root →
      ((ofDepth depth).runCaptured root c t).Matches (Tick.Captured c root t t') (Tick.Broken c root t t')
        ((ofDepth depth).runCaptured root c t')) ∧
    ∀ saved : Stack, t.Retains c root saved →
      ((ofDepth depth).resumeCaptured saved c t).Matches (Tick.Captured c root t t') (Tick.Broken c root t t')
        ((ofDepth depth).resumeCaptured saved c t') := by
  have hc := hl.orderly hr
  refine ⟨fun hclear => ?_, fun saved hretained => ?_⟩
  · exact (Tick.Accords.captured ⟨h, hclear.inward⟩ hc depth).1 (hclear root .refl)
  · obtain ⟨hcut, hsuspended, hinward⟩ := hretained.cut hc
    exact (Tick.Accords.captured ⟨h, hinward⟩ hc depth).2 saved hcut hsuspended

namespace Nest

open Workbench

def world : World Unit := { registry := rules.registry, host := () }

/-- A nest is built in time, which takes a tick, while somebody watches. -/
def spec : TreeSpec where
  name := "nest"
  root :=
    { id := ⟨0⟩, name := "Parallel"
      children :=
        [{ id := ⟨1⟩, name := "Timeout", args := [("time", .int 9)]
           children :=
            [{ id := ⟨2⟩, name := "Sequence"
               children :=
                [{ id := ⟨3⟩, name := "Step", args := [("label", .string "gather"), ("ticks", .int 1)] },
                  { id := ⟨4⟩, name := "Step", args := [("label", .string "build")] }] }] },
          { id := ⟨5⟩, name := "Step", args := [("label", .string "watch"), ("ticks", .int 9)] }] }

def tree : Tree := (world.load spec true).1.toOption.getD default

theorem loads : (Tree.load rules.registry world.compile true spec).1 = .ok tree := rfl

def activation : Activation := ⟨⟨0⟩, tree⟩

/-- Nothing runs yet. -/
def alone : Tick Unit := ⟨{}, world⟩

/-- The root of the tree has its frame, and the watch has been suspended. -/
def elsewhere : Tick Unit :=
  ⟨{ stack := ⟨[⟨0⟩]⟩, temps := (∅ : Temps).insert ⟨0⟩ .marker |>.insert ⟨5⟩ .marker }, world⟩

theorem inside {x : NodeId} (h : tree.Subtree ⟨1⟩ x) : x.val ∈ [1, 2, 3, 4] := by
  have hall : ∀ d ∈ spec.root.loaded, d.id.val ∈ [1, 2, 3, 4] → ∀ x ∈ d.enabled.map (·.id), x.val ∈ [1, 2, 3, 4] := by
    decide +kernel
  induction h with
  | refl => decide
  | tail _ hp ih =>
    obtain ⟨n, hn, hx⟩ := hp
    obtain ⟨d, hd, rfl, hstands⟩ := (Tree.mirrors_of_load loads).get? hn
    exact hall d hd ih _ (hstands.children ▸ hx)

theorem agrees : alone.Agrees tree ⟨1⟩ elsewhere := by
  refine ⟨rfl, rfl, rfl, rfl, rfl, fun {x} hx => ?_⟩
  have hin := inside hx
  change (((∅ : Temps).insert ⟨0⟩ .marker).insert ⟨5⟩ .marker)[x]? = (∅ : Temps)[x]?
  rw [Temps.get_insert, Temps.get_insert, if_neg, if_neg]
  · rintro rfl
    exact absurd hin (by decide)
  · rintro rfl
    exact absurd hin (by decide)

theorem clear : alone.Clear tree ⟨1⟩ := fun _ _ => Std.ExtTreeMap.getElem?_empty

def builds : Bool :=
  match (Engine.ofDepth 8).runCaptured ⟨1⟩ activation alone with
  | .ok (status, saved) u =>
    status = .running && saved.frames = [⟨1⟩] && !(u.world.instanceOf activation.owner).interrupted &&
      match (Engine.ofDepth 8).resumeCaptured saved activation u with
      | .ok (status, _) _ => status = .success
      | _ => false
  | _ => false

theorem exists_builds : ∃ saved u left v,
    (Engine.ofDepth 8).runCaptured ⟨1⟩ activation alone = .ok (.running, saved) u ∧ saved.frames = [⟨1⟩] ∧
      ¬ u.Flagged activation ∧ (Engine.ofDepth 8).resumeCaptured saved activation u = .ok (.success, left) v := by
  have h : builds = true := by decide +kernel
  unfold builds at h
  split at h
  · rename_i status saved u hrun
    simp only [Bool.and_eq_true, Bool.not_eq_true', decide_eq_true_eq] at h
    obtain ⟨⟨⟨rfl, hframes⟩, hf⟩, hresume⟩ := h
    split at hresume
    · rename_i status left v hresumed
      obtain rfl := of_decide_eq_true hresume
      exact ⟨saved, u, left, v, hrun, hframes, Bool.eq_false_iff.mp hf, hresumed⟩
    · cases hresume
  · cases h

end Nest

open Nest Workbench in
/-- The timeout suspends and goes on in the same way, be it called alone or by a parallel node that has its frame. -/
theorem Engine.captured_above_level_nest : ∃ saved u u' v v',
    (ofDepth 8).runCaptured ⟨1⟩ activation alone = .ok (.running, saved) u ∧
      (ofDepth 8).runCaptured ⟨1⟩ activation elsewhere = .ok (.running, saved) u' ∧ saved.frames = [⟨1⟩] ∧
      (ofDepth 8).resumeCaptured saved activation u = .ok (.success, ∅) v ∧
      (ofDepth 8).resumeCaptured saved activation u' = .ok (.success, ∅) v' ∧
      v.env.stack.frames = [] ∧ v'.env.stack.frames = [⟨0⟩] ∧ v'.env.vars = v.env.vars := by
  obtain ⟨saved, u, left, v, hrun, hframes, hf, hresume⟩ := exists_builds
  have loaded : rules.registry.Loads activation.tree := ⟨world.compile, true, spec, _, Prod.ext loads rfl⟩
  have hran := (captured_above_level rules.plain loaded agrees 8).1 clear
  rw [hrun] at hran
  obtain ⟨u', hrun', hcaptured⟩ := hran.exists_ok
  have hretained : u.Retains activation ⟨1⟩ saved := .ran clear hrun hf
  have hresumed := (captured_above_level rules.plain loaded hcaptured.accords.toAgrees 8).2 saved hretained
  rw [hresume] at hresumed
  obtain ⟨v', hresume', hended⟩ := hresumed.exists_ok
  obtain rfl : left = ∅ := (hended.ended nofun).1
  refine ⟨saved, u, u', v, v', hrun, hrun', hframes, hresume, hresume', ?_, ?_, hended.accords.vars⟩
  · rw [hended.spares.frames, hcaptured.spares.frames]
    rfl
  · rw [hended.spares'.frames, hcaptured.spares'.frames]
    rfl

end BehaviorTree
