import BehaviorTree.Proofs.Engine.Astray
import BehaviorTree.Proofs.Steps.Total
import BehaviorTree.Proofs.World.Lookout

/-!
Every tick ends. A node calls nodes below it only, and whatever frames are resumed are those of a path in the tree, of
which each round takes one away or is the last. So how deep the calls of a tick nest is bounded by the tree alone, in
whatever state the tick finds its instance.
-/

namespace BehaviorTree
set_option autoImplicit false

open TickM World

variable {σ : Type} {R : Rules σ} {c : Activation} {t u : Tick σ} {e e' : Engine σ} {n : Node} {P : NodeId → Prop}
  {rank : NodeId → Nat} {depth level : Nat}

/-- How frames above a level are resumed, one round after the other. The node of the deepest frame is run: while it is
running, or if it fails, this is the last round; once it has ended, its frame is gone, and no other. -/
inductive Tick.Rounds (c : Activation) (level : Nat) : Tick σ → Outcome σ Status → Prop where
  | finished {t : Tick σ} : t.env.stack.size ≤ level → Rounds c level t (.ok t.env.lastStatus t)
  | waits {t u : Tick σ} {depth : Nat} {top : NodeId} {below : List NodeId} : t.env.stack.frames = top :: below →
      level ≤ below.length → (Engine.ofDepth depth).run top c t = .ok .running u → Rounds c level t (.ok .running u)
  | fails {t u : Tick σ} {depth : Nat} {top : NodeId} {below : List NodeId} {err : RunError} :
      t.env.stack.frames = top :: below → level ≤ below.length →
      (Engine.ofDepth depth).run top c t = .failed err u → Rounds c level t (.failed err u)
  | pops {t u : Tick σ} {depth : Nat} {top : NodeId} {below : List NodeId} {status : Status} {o : Outcome σ Status} :
      t.env.stack.frames = top :: below → level ≤ below.length → (Engine.ofDepth depth).run top c t = .ok status u →
      status ≠ .running → u.env.stack.frames = below → Rounds c level u o → Rounds c level t o

theorem Tick.Rounds.ends {o : Outcome σ Status} (h : t.Rounds c level o) : o.Ends := by
  induction h with
  | finished => trivial
  | waits => trivial
  | fails => trivial
  | pops _ _ _ _ _ _ ih => exact ih

namespace Tree

variable {tree : Tree} {temps : Temps} {id x : NodeId} {below : List NodeId}

/-- What lies below a node is of a lower rank. -/
theorem Below.rank_lt (hrank : ∀ a k, tree.Starts a k → rank k < rank a) (h : tree.Below id x) : rank x < rank id := by
  obtain ⟨k, hk, hx⟩ := h
  induction hx with
  | refl => exact hrank _ _ hk
  | tail _ hs ih => exact Nat.lt_trans (hrank _ _ hs) ih

namespace Path

theorem mem (h : tree.Path temps id x below) : id ∈ x :: below := by
  induction h with
  | here => exact List.mem_cons_self
  | above _ _ _ _ _ _ ih => exact List.mem_cons_of_mem _ ih

/-- Each node of a path is further down in the tree than the one that waits for it. -/
theorem length_le (hrank : ∀ a k, tree.Starts a k → rank k < rank a) (h : tree.Path temps id x below) :
    rank x + below.length ≤ rank id := by
  induction h with
  | here => exact Nat.le_refl _
  | above _ hn _ hs ha _ ih =>
    have hlt := hrank _ _ ⟨_, hn, mem_started_of_awaited hs ha⟩
    rw [List.length_cons]
    omega

end Path

end Tree

/-- There are no more frames about to be resumed than their nodes have ranks. -/
theorem Tick.Resumes.exists_above {id : NodeId} {base : List NodeId} (h : t.Resumes R c id base)
    (hrank : ∀ a k, c.tree.Starts a k → rank k < rank a) :
    ∃ above, t.env.stack.frames = above ++ base ∧ ∀ r, (∀ x ∈ above, rank x < r) → above.length ≤ r := by
  rcases h.frames with ⟨-, hbase, -⟩ | ⟨x, below, n, p, hs, hpath, -, -⟩
  · exact ⟨[], hbase, fun r _ => Nat.zero_le r⟩
  · refine ⟨x :: below, hs, fun r hr => ?_⟩
    have hlength := hpath.length_le hrank
    have hlt := hr id hpath.mem
    rw [List.length_cons]
    omega

namespace Engine

theorem ends_closeNode (n : Node) (resumed : Bool) (before : Env) (result : Except RunError Status) (c : Activation)
    (t : Tick σ) : (closeNode n resumed before result c t).Ends := by
  cases result with
  | error err => trivial
  | ok status =>
    obtain ⟨w, -, hclose⟩ := closeNode_ok n resumed before status c t
    rw [hclose]
    split
    · trivial
    · by_cases hs : status = .running
      · rw [hs, conclude_running_eq]
        trivial
      · rw [conclude_ended_eq hs, leaveFrame_apply]
        split
        · trivial
        · trivial

/-- A run of a node comes to an end if all calls in order of nodes below it do. -/
theorem Sound.runNode_ends (he : e.Sound R) (hlasts : e.Lasts R c P) (hquiet : c.tree.Quiet)
    (hbelow : ∀ x, c.tree.Below n.id x → P x) (hn : c.tree.get? n.id = some n) (h : t.Calls R c n.id) :
    (e.runNode n c t).Ends := by
  have hbehave : (e.behave n.toSite n.behavior c (n.entered c t)).Ends := by
    rcases h with hfresh | ⟨m, p, base, hid, hpoised⟩
    · exact he.behave_ends hlasts hquiet (hfresh.entered_begins hn) hbelow (entered_adds n c t)
    · obtain rfl : m = n := Option.some.inj (hpoised.ready.get.symm.trans (hid ▸ hn))
      exact he.behave_ends hlasts hquiet hpoised.entered_begins hbelow (entered_adds m c t)
  rw [runNode_eq, runFramed_eq]
  unfold Outcome.Ends
  rw [meets_bind, meets_attempt]
  exact hbehave.mono (fun _ _ _ => ends_closeNode _ _ _ _ _ _) fun _ _ _ => ends_closeNode _ _ _ _ _ _

/-- Frames are resumed in rounds if calls of their nodes end, and calls nest deep enough for one more round for each. -/
theorem rounds_of_resumes (hrun : ∀ d, depth ≤ d → ∀ id (t : Tick σ), P id → t.Calls R c id →
      ((ofDepth d).run id c t).Ends) {above base : List NodeId} {id : NodeId} (h : t.Resumes R c id base)
    (hframes : t.env.stack.frames = above ++ base) (hP : ∀ x ∈ above, P x) {d : Nat}
    (hd : depth + above.length < d) :
    t.Rounds c base.length ((ofDepth d).resume base.length c t) := by
  -- The induction is on the frames that are left: a node that ends leaves all but its own to be resumed.
  induction above generalizing t d with
  | nil =>
    obtain ⟨d, rfl⟩ := Nat.exists_eq_add_one_of_ne_zero (Nat.ne_of_gt (Nat.zero_lt_of_lt hd))
    have hsize : t.env.stack.size ≤ base.length := by
      rw [Stack.size, hframes]
      exact Nat.le_refl _
    change t.Rounds c base.length ((ofDepth d).resumeAbove base.length c t)
    rw [resumeAbove_of_le hsize]
    exact .finished hsize
  | cons top rest ih =>
    rw [List.length_cons] at hd
    obtain ⟨d, rfl⟩ := Nat.exists_eq_add_one_of_ne_zero (Nat.ne_of_gt (Nat.zero_lt_of_lt hd))
    rcases h.frames with ⟨-, hbase, -⟩ | ⟨x, below, n, p, hs, hpath, hready, hlast⟩
    · have hlength := congrArg List.length (hframes.symm.trans hbase)
      rw [List.length_append, List.length_cons] at hlength
      omega
    · obtain ⟨rfl, rfl⟩ : x = top ∧ below = rest := by
        have hsame := List.append_cancel_right (hs.symm.trans hframes)
        exact List.cons.inj hsame
      obtain rfl : n.id = x := h.runs.orderly.id_eq hready.get
      have hpoised := h.poised hs hpath hready hlast
      have hlevel : base.length ≤ (below ++ base).length := by
        rw [List.length_append]
        omega
      have hends := hrun d (by omega) n.id t (hP _ List.mem_cons_self) (.inr ⟨n, p, _, rfl, hpoised⟩)
      have hmeets := (serves_ofDepth d).sound.poised hpoised
      change t.Rounds c base.length ((ofDepth d).resumeAbove base.length c t)
      rw [resumeAbove_of_lt hs hlevel, bind_apply]
      cases hstep : (ofDepth d).run n.id c t with
      | halted halt =>
        rw [hstep] at hends
        exact hends.elim
      | failed err u => exact .fails hs hlevel hstep
      | ok status u =>
        have hran : t.Ran R c n.id (below ++ base) status u := by
          rwa [hstep] at hmeets
        have hpop : status ≠ .running → t.Rounds c base.length ((ofDepth d).resume base.length c u) := by
          intro hst
          have hstack := (hran.ends.ended hst).1
          refine .pops hs hlevel hstep hst hstack ?_
          exact ih (h.next hpath hran hst) hstack (fun x hx => hP x (List.mem_cons_of_mem _ hx)) (by omega)
        cases status with
        | running => exact .waits hs hlevel hstep
        | success => exact hpop (by simp)
        | failure => exact hpop (by simp)

/-- The depth that is enough for nodes below a rank. -/
def enough : Nat → Nat
  | 0 => 0
  | r + 1 => enough r + r + 3

section Ranks

variable (ht : c.tree.Orderly) (hrank : ∀ a k, c.tree.Starts a k → rank k < rank a) (hquiet : c.tree.Quiet) {r d : Nat}
include hrank

/-- Frames of nodes below a rank are resumed to an end if runs of such nodes end. -/
theorem resume_ends (hrun : ∀ d, depth ≤ d → ∀ id (t : Tick σ), rank id < r → t.Calls R c id →
      ((ofDepth d).run id c t).Ends) (hd : depth + r < d) (h : t.Reenters R c level)
    (habove : ∀ x ∈ (t.env.stack.splitAt level).2.frames, rank x < r) : ((ofDepth d).resume level c t).Ends := by
  obtain ⟨id, base, rfl, h⟩ := h
  obtain ⟨above, hframes, hlength⟩ := h.exists_above hrank
  have hsplit : (t.env.stack.splitAt base.length).2 = ⟨above⟩ := by
    have hstack : t.env.stack = (⟨base⟩ : Stack) ++ (⟨above⟩ : Stack) := congrArg Stack.mk hframes
    have hcut := Stack.splitAt_append ⟨base⟩ ⟨above⟩
    rw [hstack]
    exact congrArg Prod.snd hcut
  rw [hsplit] at habove
  have hle := hlength r habove
  exact (rounds_of_resumes hrun h hframes habove (by omega)).ends

include ht hquiet

/-- Calls of nodes below a rank come to an end, in whatever state they are in order. -/
theorem lasts_ofDepth (hd : enough r < d) : (ofDepth d : Engine σ).Lasts R c fun x => rank x < r := by
  induction r generalizing d with
  | zero =>
    have hrun : ∀ d, 0 ≤ d → ∀ id (t : Tick σ), rank id < 0 → t.Calls R c id → ((ofDepth d).run id c t).Ends :=
      fun _ _ _ _ hid => absurd hid (Nat.not_lt_zero _)
    exact ⟨hrun d (Nat.zero_le d) _ _, resume_ends hrank hrun hd⟩
  | succ r ih =>
    rw [enough] at hd
    -- One level more is enough for the nodes of this rank: all that they call is below it.
    have hrun : ∀ d, enough r + 2 ≤ d → ∀ id (t : Tick σ), rank id < r + 1 → t.Calls R c id →
        ((ofDepth d).run id c t).Ends := by
      intro d hd id t hid h
      obtain ⟨d, rfl⟩ := Nat.exists_eq_add_one_of_ne_zero (show d ≠ 0 by omega)
      obtain ⟨n, hn⟩ : ∃ n, c.tree.get? id = some n := by
        rcases h with hfresh | ⟨n, p, base, rfl, hpoised⟩
        · exact hfresh.entered.1
        · exact ⟨n, hpoised.ready.get⟩
      obtain rfl : n.id = id := ht.id_eq hn
      have hbelow : ∀ x, c.tree.Below n.id x → rank x < r := fun x hx => by
        have hlt := hx.rank_lt hrank
        omega
      rw [run_ofDepth hn]
      exact (serves_ofDepth d).sound.runNode_ends (ih (by omega)) hquiet hbelow hn h
    exact ⟨hrun d (by omega) _ _, resume_ends hrank hrun (by omega)⟩

end Ranks

/-- Lending the state of an instance to a computation that ends gives a result. -/
theorem exists_activate {α : Type} {w : World σ} {owner : Tag} {i : Instance} {m : TickM σ α}
    (hi : w.instances[owner]? = some i) (h : (m ⟨owner, i.tree⟩ ⟨i.env, w.observe owner .entered⟩).Ends) :
    ∃ result w', (activate owner m).run w = .ok (result, w') := by
  have hgives : w.Gives (activate owner m) fun _ _ => True := by
    have hseen : (w.observe owner .entered).instanceOf owner = i := instanceOf_eq hi
    simp only [activate, World.gives_bind, gives_modify, gives_get, hseen]
    cases hm : m ⟨owner, i.tree⟩ ⟨i.env, w.observe owner .entered⟩ with
    | ok a t => trivial
    | failed err t => trivial
    | halted halt => exact (h.ne_halted halt hm).elim
  obtain ⟨result, w', hrun, -⟩ := hgives.exists
  exact ⟨result, w', hrun⟩

section Ticks

variable {w : World σ} {owner : Tag} {i : Instance} (h : w.Busy R owner i) (hs : w.Settled R owner i)
  (hswap : R.swap = false) (hrank : ∀ a k, i.tree.Starts a k → rank k < rank a) (hquiet : i.tree.Quiet)
  (hd : enough (rank i.tree.root + 2) < depth)
include h hs hswap hrank hquiet hd

theorem tick_rounds (hne : i.env.stack.frames ≠ []) :
    (⟨i.env, w.observe owner .entered⟩ : Tick σ).Rounds ⟨owner, i.tree⟩ 0
      ((ofDepth depth).resume 0 ⟨owner, i.tree⟩ ⟨i.env, w.observe owner .entered⟩) := by
  have hresumes := h.runs.resumes_root (h.rests hs) hswap hne
  have hroot : ∀ x ∈ i.env.stack.frames, rank x < rank i.tree.root + 1 := by
    rcases (hs.ordered hswap).main with ⟨hnil, -⟩ | hsus
    · exact absurd hnil hne
    · intro x hx
      rcases (hsus.mem_frames hx).1.eq_or_below with rfl | hbelow
      · exact Nat.lt_succ_self _
      · exact Nat.lt_succ_of_lt (hbelow.rank_lt hrank)
  obtain ⟨above, hframes, hlength⟩ := hresumes.exists_above hrank
  have habove : ∀ x ∈ above, rank x < rank i.tree.root + 1 := fun x hx =>
    hroot x (hframes ▸ List.mem_append_left [] hx)
  have hrun : ∀ d, enough (rank i.tree.root + 1) + 1 ≤ d → ∀ id (t : Tick σ), rank id < rank i.tree.root + 1 →
      t.Calls R ⟨owner, i.tree⟩ id → ((ofDepth d).run id ⟨owner, i.tree⟩ t).Ends :=
    fun d hd _ _ => (lasts_ofDepth h.runs.orderly hrank hquiet hd).run
  have hle := hlength _ habove
  rw [enough] at hd
  exact rounds_of_resumes hrun hresumes hframes habove (by omega)

theorem exists_tick : ∃ result w', ((ofDepth depth).tick owner).run w = .ok (result, w') := by
  have htick : ((ofDepth depth).tick owner).run w =
      (if i.interrupted then return .ok .running
        else if i.env.stack.isEmpty then activate owner ((ofDepth depth).run i.tree.root)
        else activate owner ((ofDepth depth).resume 0) : WorldM σ (Except RunError Status)).run w := by
    rw [← instanceOf_eq h.here]
    rfl
  rw [htick]
  split
  · exact ⟨_, _, rfl⟩
  · split
    · rename_i hempty
      have hfresh := h.runs.fresh_root (h.rests hs) hswap (List.isEmpty_iff.mp hempty)
      rw [enough] at hd
      have hlasts : (ofDepth depth).Lasts R ⟨owner, i.tree⟩ fun x => rank x < rank i.tree.root + 1 :=
        lasts_ofDepth h.runs.orderly hrank hquiet (by omega)
      exact exists_activate h.here (hlasts.run (Nat.lt_succ_self _) (.inl hfresh))
    · rename_i hne
      have hrounds := tick_rounds h hs hswap hrank hquiet hd fun hnil => hne (List.isEmpty_iff.mpr hnil)
      exact exists_activate h.here hrounds.ends

end Ticks

/-- A repeating node runs its child once at most: what it does is told by that one run, in the state that it is in
itself. -/
theorem repeated_of_run {site : Site} {limit : Option Nat} {policy : RepeatPolicy}
    (h : ∀ k, site.children[0]? = some k → e.run k c t = e'.run k c t) :
    e.repeated site limit policy c t = e'.repeated site limit policy c t := by
  have hstart : ∀ done, e.startRun site limit policy done c t = e'.startRun site limit policy done c t := by
    intro done
    unfold startRun child
    split
    · rfl
    · cases hk : site.children[0]? with
      | none =>
        rw [element, hk]
        rfl
      | some k =>
        have helement : (element site.children 0 : TickM σ NodeId) = pure k := by rw [element, hk]
        rw [helement, pure_bind, pure_bind, bind_apply, bind_apply, h k hk]
  unfold repeated
  rw [bind_apply, bind_apply]
  cases hsaved : saved? site c t with
  | halted halt => rfl
  | failed err u => rfl
  | ok saved u =>
    obtain rfl : u = t := (Outcome.ok.inj hsaved).2.symm
    cases saved with
    | none => exact hstart 0
    | some payload =>
      cases payload with
      | repeated done waits =>
        cases waits with
        | true => rfl
        | false => exact hstart done
      | _ => rfl

end Engine

/-- Once those who listen for the beginning of a run have acted, the instance may be ticked. -/
theorem World.Good.exists_opened {w w' : World σ} {owner : Tag} {i : Instance} (hg : w.Good R)
    (hi : w.instances[owner]? = some i) (hexec : i.executing = false)
    (hrun : ((Engine.ofDepth depth).announce owner .beforeRun []).run (w.lock owner) = .ok ((), w')) :
    ∃ j, w'.Busy R owner j ∧ w'.Settled R owner j ∧ j.tree = i.tree := by
  have hlock := lock_busy hg hi
  obtain ⟨-, -, hs⟩ := (hg.holds hi).idle hexec
  have htold := (Engine.serves_ofDepth depth).sound.honors.announce hlock .beforeRun []
  rw [World.After, hrun] at htold
  obtain ⟨j, acts, hgoes, -, hsettled⟩ := htold
  exact ⟨j, hgoes.busy hlock.executing, hsettled hs, hgoes.tree⟩

/-- Every tick of a tree whose nodes dispatch nothing ends, whatever its idle instance has been through, so long as no
callback gives instances other trees. How deep calls have to nest for that is up to the tree alone. A tree that is
suspended goes on in rounds, each of which is the last or takes one frame away; and a node that repeats its child runs
it once at most before it gives control back. -/
theorem Tree.Quiet.ticks_end {tree : Tree} (hquiet : tree.Quiet) (hload : R.registry.Loads tree)
    (hswap : R.swap = false) :
    (∃ enough, ∀ (w w' : World σ) (owner : Tag) (i : Instance) (before depth : Nat), w.Good R →
      w.instances[owner]? = some i → i.tree = tree → i.executing = false →
      ((Engine.ofDepth before).announce owner .beforeRun []).run (w.lock owner) = .ok ((), w') → enough < depth →
      (∃ result u, ((Engine.ofDepth depth).tick owner).run w' = .ok (result, u)) ∧
        ∃ j, w'.instances[owner]? = some j ∧ j.tree = tree ∧ (j.env.stack.frames ≠ [] →
          (⟨j.env, w'.observe owner .entered⟩ : Tick σ).Rounds ⟨owner, tree⟩ 0
            ((Engine.ofDepth depth).resume 0 ⟨owner, tree⟩ ⟨j.env, w'.observe owner .entered⟩))) ∧
      ∀ (e e' : Engine σ) (site : Site) (limit : Option Nat) (policy : RepeatPolicy) (c : Activation) (t : Tick σ),
        (∀ k, site.children[0]? = some k → e.run k c t = e'.run k c t) →
        e.repeated site limit policy c t = e'.repeated site limit policy c t := by
  obtain ⟨rank, hrank⟩ := (hload.orderly R.plain).exists_rank
  refine ⟨⟨Engine.enough (rank tree.root + 2), ?_⟩, fun _ _ _ _ _ _ _ => Engine.repeated_of_run⟩
  rintro w w' owner i before depth hg hi rfl hexec hopen hd
  obtain ⟨j, hbusy, hsettled, htree⟩ := hg.exists_opened hi hexec hopen
  rw [← htree] at hquiet hrank hd ⊢
  exact ⟨Engine.exists_tick hbusy hsettled hswap hrank hquiet hd, j, hbusy.here, rfl,
    Engine.tick_rounds hbusy hsettled hswap hrank hquiet hd⟩

namespace Drill

/-- A drill is repeated until it succeeds, which it never does. -/
def spec : TreeSpec where
  name := "drill"
  root :=
    { id := ⟨0⟩, name := "RepeatUntilSuccess"
      children :=
        [{ id := ⟨1⟩, name := "Sequence"
           children :=
            [{ id := ⟨2⟩, name := "Step", args := [("label", .string "march"), ("ticks", .int 1)] },
              { id := ⟨3⟩, name := "Step", args := [("label", .string "halt"), ("result", .string "failure")] }] }] }

/-- A host that runs the tree once. -/
def program : Program Unit :=
  .load spec true fun
    | .ok tree => .create tree ∅ fun owner => .run owner fun _ => .done
    | .error _ => .done

theorem obeys : program.Obeys Workbench.rules false := by
  intro result hload
  cases result with
  | ok tree => exact ⟨hload tree rfl, fun _ _ => trivial⟩
  | error err => exact trivial

def dispatches (n : Node) : Bool :=
  match n.behavior with
  | .dispatch _ => true
  | _ => false

def quiet (tree : Tree) : Bool := tree.nodes.toList.all fun (_, n) => !dispatches n

theorem quiet_tree {tree : Tree} (h : quiet tree = true) : tree.Quiet := by
  intro id n hn event hb
  have hnot := List.all_eq_true.mp h (id, n) (Std.ExtTreeMap.mem_toList_iff_getElem?_eq_some.mpr hn)
  simp [dispatches, hb] at hnot

def idles (w : World Unit) : Bool :=
  w.instances[(⟨0⟩ : Tag)]?.any fun i => !i.executing && quiet i.tree

def marches (w : World Unit) : Bool :=
  (((Engine.ofDepth 7).announce ⟨0⟩ .beforeRun []).run (w.lock ⟨0⟩)).toOption.any fun p =>
    (p.2.instanceOf ⟨0⟩).env.stack.frames == [⟨2⟩, ⟨1⟩, ⟨0⟩]

end Drill

open Drill in
/-- The tick that follows ends. -/
theorem Tree.Quiet.ticks_end_drill : ∃ w w' j depth result u,
    World.perform 7 program { registry := Workbench.rules.registry, host := () } = .ok w ∧
      ((Engine.ofDepth 7).announce ⟨0⟩ .beforeRun []).run (w.lock ⟨0⟩) = .ok ((), w') ∧
      w'.instances[(⟨0⟩ : Tag)]? = some j ∧ j.env.stack.frames = [⟨2⟩, ⟨1⟩, ⟨0⟩] ∧
      ((Engine.ofDepth depth).tick ⟨0⟩).run w' = .ok (result, u) ∧
      (⟨j.env, w'.observe ⟨0⟩ .entered⟩ : Tick Unit).Rounds ⟨⟨0⟩, j.tree⟩ 0
        ((Engine.ofDepth depth).resume 0 ⟨⟨0⟩, j.tree⟩ ⟨j.env, w'.observe ⟨0⟩ .entered⟩) := by
  have hruns : (World.perform 7 program { registry := Workbench.rules.registry, host := () }).toOption.any
      (fun w => idles w && marches w) = true := by
    decide +kernel
  obtain ⟨w, hw, htest⟩ := exists_ok_of_any hruns
  obtain ⟨hidles, hmarches⟩ := Bool.and_eq_true_iff.mp htest
  obtain ⟨i, hi, hidle⟩ := (Option.any_eq_true _ _).mp hidles
  simp only [Bool.and_eq_true, Bool.not_eq_true'] at hidle
  obtain ⟨⟨⟨⟩, w'⟩, hopen, hframes⟩ := exists_ok_of_any hmarches
  have hgood := obeys.good trivial hw
  obtain ⟨⟨enough, hends⟩, -⟩ := (quiet_tree hidle.2).ticks_end (hgood.holds hi).loaded rfl
  obtain ⟨⟨result, u, htick⟩, j, hj, htree, hrounds⟩ :=
    hends w w' ⟨0⟩ i 7 (enough + 1) hgood hi rfl hidle.1 hopen (Nat.lt_succ_self _)
  have hstack : j.env.stack.frames = [⟨2⟩, ⟨1⟩, ⟨0⟩] := by
    rw [← World.instanceOf_eq hj]
    exact beq_iff_eq.mp hframes
  rw [← htree] at hrounds
  exact ⟨w, w', j, enough + 1, result, u, hw, hopen, hj, hstack, htick, hrounds (by simp [hstack])⟩

end BehaviorTree
