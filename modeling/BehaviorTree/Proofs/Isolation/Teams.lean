import BehaviorTree.Proofs.Isolation.Branches

/-!
Runners side by side, which go by rounds: in each round every runner is ticked until its tree has ended. A parallel
node does in its ticks what such a team does whose runners have its children for roots.
-/

namespace BehaviorTree
set_option autoImplicit false

variable {σ : Type}

/-- A runner in a team, and whether its tree has still to end in this round. -/
structure Member (σ : Type) where
  runner : Runner σ
  busy : Bool

abbrev Team (σ : Type) := List (Member σ)

namespace Team

def of (w : World σ) (trees : List Tree) (vars : Variables) : Team σ := trees.map fun u => ⟨.of w u vars, false⟩

def round (team : Team σ) : Team σ :=
  if team.any Member.busy then team else team.map fun m => { m with busy := true }

def step (depth : Nat) : Team σ → Option (List Sight × Team σ)
  | [] => some ([], [])
  | m :: team =>
    if m.busy then do
      let ticked ← (Runner.machine depth).tick m.runner
      let rest ← step depth team
      return (ticked.1 :: rest.1, ⟨ticked.2, ticked.1.status = .running⟩ :: rest.2)
    else do
      let rest ← step depth team
      return (rest.1, m :: rest.2)

/-- How a tick of a team ends. -/
def status (team : Team σ) : Status := if team.any Member.busy then .running else .success

/-- A team succeeds with the end of a round. All that is seen of it is said to be below a node. -/
def machine (root : NodeId) (depth : Nat) : Machine (Team σ) where
  tick team := do
    let stepped ← step depth (round team)
    return (⟨status stepped.2, stepped.1.flatMap Sight.labels, root :: stepped.1.flatMap Sight.calls⟩, stepped.2)
  update dt team := team.mapM fun m => do
    let runner ← (Runner.machine depth).update dt m.runner
    return { m with runner }

end Team

/-- A member of a team, beside a state of a larger tree. -/
structure Member.Joins (R : Rules σ) (t : Tree) (env : Env) (time : Float) (m : Member σ) : Prop where
  kept : m.runner.Kept R m.runner.tree m.runner.env
  part : m.runner.tree.PartOf t
  alike : m.runner.env.Matches m.runner.tree env
  time : m.runner.world.time = time

theorem Member.Joins.of_extends {R : Rules σ} {tree : Tree} {m : Member σ} {t t' : Tick σ} {owner : Tag}
    {nodes : NodeId → Prop} {names : String → Prop} {labels : List Value} {calls : List NodeId}
    (h : m.Joins R tree t.env t.world.time) (ht : t.Extends owner nodes names labels calls t')
    (hn : ∀ id, m.runner.tree.Holds id → ¬ nodes id) (hs : ∀ name, m.runner.tree.Reads name → ¬ names name) :
    m.Joins R tree t'.env t'.world.time := by
  refine ⟨h.kept, h.part, ht.matches_of_apart h.alike h.part.reads hn hs, ?_⟩
  obtain ⟨journal, hworld⟩ := ht.world
  rw [hworld]
  exact h.time

/-- A member that has been ticked still joins the larger tree. -/
theorem Member.Joins.step {R : Rules σ} {c : Activation} {m : Member σ} {t t' : Tick σ} {sight : Sight}
    {r : Runner σ} {left : Stack} (h : m.Joins R c.tree t.env t.world.time)
    (ht : m.runner.Stepped R m.runner.tree c t sight r left t') :
    (⟨r, sight.status = .running⟩ : Member σ).Joins R c.tree t'.env t'.world.time := by
  obtain ⟨journal, hworld⟩ := ht.touched.world
  obtain ⟨env, hkept, -, halike⟩ := ht.kept
  obtain rfl := hkept.env_eq
  have htree := ht.tree_eq
  refine ⟨htree ▸ hkept, htree ▸ h.part, htree ▸ halike, ?_⟩
  rw [hworld, ht.time]
  exact h.time

/-- The root of the larger tree, the stack and the slots are no concern of a member either. -/
theorem Member.Joins.congr {R : Rules σ} {tree : Tree} {m : Member σ} {env env' : Env} {time : Float}
    (h : m.Joins R tree env time) (ht : ∀ id, id ≠ tree.root → env'.temps[id]? = env.temps[id]?)
    (hp : env'.privates = env.privates) (hv : env'.vars = env.vars) : m.Joins R tree env' time := by
  refine ⟨h.kept, h.part, ⟨fun {id} hid => ?_, fun hid => ?_, fun hr => ?_, ?_⟩, h.time⟩
  · rw [ht id fun he => h.part.below (he ▸ hid)]
    exact h.alike.temps hid
  · rw [hp]
    exact h.alike.privates hid
  · rw [hv]
    exact h.alike.vars hr
  · rw [hv]
    exact h.alike.trace

namespace Team

def trees (team : Team σ) : List Tree := team.map fun m => m.runner.tree

theorem trees_of {w : World σ} {us : List Tree} {vars : Variables} : trees (of w us vars) = us := by
  rw [trees, of, List.map_map]
  exact List.map_id'' (fun u => Runner.tree_of) us

theorem any_busy_of {w : World σ} {us : List Tree} {vars : Variables} : (of w us vars).any Member.busy = false := by
  rw [of, List.any_map]
  exact List.any_eq_false.mpr fun u hu => Bool.false_ne_true

/-- The frames that the runners go on from. -/
def saved (team : Team σ) : List (Option Stack) := team.map fun m => m.runner.saved

/-- The children of a parallel node, with the frames that they go on from. -/
def entries (team : Team σ) : List (NodeId × Option Stack) := team.map fun m => (m.runner.tree.root, m.runner.saved)

def payload (team : Team σ) : Option Payload := if team.any Member.busy then some (.branches (saved team)) else none

/-- A team between ticks, and the state of a tree whose parallel root has the trees of the team for children. -/
structure Waits (R : Rules σ) (tree : Tree) (n : Node) (team : Team σ) (env : Env) (time : Float) : Prop where
  joins : ∀ m ∈ team, m.Joins R tree env time
  apart : (trees team).Pairwise Tree.Apart
  busy : ∀ m ∈ team, m.busy = m.runner.saved.isSome
  children : n.children = (trees team).map Tree.root
  stack : env.stack.frames = if team.any Member.busy then [n.id] else []
  payload : env.temps[n.id]? = payload team

structure Ticked (R : Rules σ) (c : Activation) (n : Node) (t : Tick σ) (sights : List Sight) (team : Team σ)
    (s : Status) (u : Tick σ) : Prop where
  status : s = status team
  last : u.env.lastStatus = s
  waits : Waits R c.tree n team u.env u.world.time
  labels : Workbench.labels u.env.vars["trace"]? =
    Workbench.labels t.env.vars["trace"]? ++ sights.flatMap Sight.labels
  calls : u.world.calls c.owner = t.world.calls c.owner ++ n.id :: sights.flatMap Sight.calls
  world : ∃ journal, u.world = { t.world with journal }

/-- A team is about to be ticked, and a parallel node to step its branches. -/
structure Poised (R : Rules σ) (c : Activation) (fresh : Bool) (team : Team σ) (t : Tick σ) : Prop where
  joins : ∀ m ∈ team, m.Joins R c.tree t.env t.world.time
  apart : (trees team).Pairwise Tree.Apart
  busy : ∀ m ∈ team, m.busy = (fresh || m.runner.saved.isSome)
  fresh : fresh = true → ∀ m ∈ team, m.runner.saved = none
  base : ∀ x ∈ t.env.stack.frames, x = c.tree.root
  calm : (t.world.instanceOf c.owner).interrupted = false

structure Stepped (R : Rules σ) (c : Activation) (team : Team σ) (t : Tick σ) (sights : List Sight) (team' : Team σ)
    (left : List (Option Stack)) (t' : Tick σ) : Prop where
  left : left = saved team'
  trees : trees team' = trees team
  joins : ∀ m ∈ team', m.Joins R c.tree t'.env t'.world.time
  busy : ∀ m ∈ team', m.busy = m.runner.saved.isSome
  touched : t.Extends c.owner (fun id => ∃ u ∈ Team.trees team, u.Holds id)
    (fun name => ∃ u ∈ Team.trees team, u.Sets name) (sights.flatMap Sight.labels) (sights.flatMap Sight.calls) t'

variable {R : Rules σ} {c : Activation} {t u v : Tick σ} {forward : Prop} {depth depth' : Nat} {fresh : Bool}
  {m m' : Member σ} {team team' : Team σ}

theorem Poised.rest {labels : List Value} {calls : List NodeId} (h : Poised R c fresh (m :: team) t)
    (hu : t.Extends c.owner m.runner.tree.Holds m.runner.tree.Sets labels calls u) : Poised R c fresh team u := by
  obtain ⟨hapart, hrest⟩ := List.pairwise_cons.mp h.apart
  obtain ⟨journal, hworld⟩ := hu.world
  refine ⟨fun m' hm' => ?_, hrest, fun m' hm' => h.busy m' (List.mem_cons_of_mem _ hm'),
    fun hf m' hm' => h.fresh hf m' (List.mem_cons_of_mem _ hm'), ?_, ?_⟩
  · have hm := (hapart m'.runner.tree (List.mem_map_of_mem hm')).symm
    exact (h.joins m' (List.mem_cons_of_mem _ hm')).of_extends hu (fun _ hid => hm.nodes hid) fun _ hr => hm.reads hr
  · rw [hu.stack]
    exact h.base
  · rw [hworld]
    exact h.calm

theorem Stepped.cons {sights sights' : List Sight} {left : List (Option Stack)} {labels : List Value}
    {calls : List NodeId} (h : Stepped R c team u sights team' left v)
    (hu : t.Extends c.owner m.runner.tree.Holds m.runner.tree.Sets labels calls u)
    (hapart : ∀ w ∈ Team.trees team, m.runner.tree.Apart w) (htree : m'.runner.tree = m.runner.tree)
    (hm' : m'.Joins R c.tree u.env u.world.time) (hbusy : m'.busy = m'.runner.saved.isSome)
    (hlabels : sights'.flatMap Sight.labels = labels ++ sights.flatMap Sight.labels)
    (hcalls : sights'.flatMap Sight.calls = calls ++ sights.flatMap Sight.calls) :
    Stepped R c (m :: team) t sights' (m' :: team') (m'.runner.saved :: left) v := by
  refine ⟨?_, ?_, List.forall_mem_cons.mpr ⟨?_, h.joins⟩, List.forall_mem_cons.mpr ⟨hbusy, h.busy⟩, ?_⟩
  · rw [h.left]
    rfl
  · exact congrArg₂ List.cons htree h.trees
  · refine hm'.of_extends h.touched ?_ ?_
    · rintro id hid ⟨w, hw, hx⟩
      exact (hapart w hw).nodes (htree ▸ hid) hx
    · rintro name hr ⟨w, hw, hx⟩
      exact (hapart w hw).reads (htree ▸ hr) hx
  · rw [hlabels, hcalls]
    refine (hu.mono ?_ ?_).trans (h.touched.mono ?_ ?_)
    · exact fun id hid => ⟨m.runner.tree, List.mem_cons_self, hid⟩
    · exact fun name hname => ⟨m.runner.tree, List.mem_cons_self, hname⟩
    · rintro id ⟨w, hw, hid⟩
      exact ⟨w, List.mem_cons_of_mem _ hw, hid⟩
    · rintro name ⟨w, hw, hname⟩
      exact ⟨w, List.mem_cons_of_mem _ hw, hname⟩

/-- While a member is left, the frame of the parallel node is all there is. -/
theorem Waits.suspended {tree : Tree} {n : Node} {env : Env} {time : Float} (h : Waits R tree n team env time)
    (hany : team.any Member.busy = true) : env.stack.top? = some n.id ∧ ¬ env.stack.size ≤ 0 := by
  have hframes := h.stack
  rw [hany, if_pos rfl] at hframes
  rw [Stack.top?, Stack.size, hframes]
  exact ⟨rfl, by simp⟩

def keeping (n : Node) (s : Status) (left : List (Option Stack)) (t : Tick σ) : Tick σ :=
  { t with env := if s = .running then t.env.setPayload n.id (.branches left) else t.env }

theorem status_eq_running : status team = .running ↔ team.any Member.busy = true := by
  rw [status]
  cases team.any Member.busy <;> simp

namespace Stepped

variable {n : Node} {resumed : Bool} {sights : List Sight} {left : List (Option Stack)}
  (h : Stepped R c team (t.opened c n resumed) sights team' left u) (hframes : t.env.stack.frames = [n.id])
include h hframes

theorem frames : u.env.stack.frames = [n.id] := (congrArg Stack.frames h.touched.stack).trans hframes

theorem settled (hcalm : (t.world.instanceOf c.owner).interrupted = false) :
    (keeping n (status team') left u).Settled c n (status team') := by
  have houtput : u.env.output = [] := (Prod.mk.inj h.touched.slots).2
  refine ⟨?_, ?_, fun hs => ?_, fun hs => ?_⟩
  · rw [keeping]
    split <;> exact houtput
  · obtain ⟨journal, hworld⟩ := h.touched.world
    change (u.world.instanceOf c.owner).interrupted = false
    rw [hworld]
    exact hcalm
  · rw [keeping, if_pos hs]
    exact (Env.isSuspended_setPayload ..).mpr (.inl rfl)
  · rw [keeping, if_neg hs]
    exact congrArg List.head? (h.frames hframes)

/-- The frame of the parallel node, and what it has saved, stay just if a member is left. -/
theorem waits (hv : t.Closes c n (keeping n (status team') left u) (status team') v) (hn : n.id = c.tree.root)
    (hapart : (Team.trees team).Pairwise Tree.Apart) (hchildren : n.children = (Team.trees team).map Tree.root) :
    v.env.vars = u.env.vars ∧ Waits R c.tree n team' v.env v.world.time := by
  have htime : v.world.time = u.world.time := by
    obtain ⟨journal, hworld⟩ := hv.world
    rw [hworld, keeping]
  rw [hv.env, htime, keeping]
  have hframes' := h.frames hframes
  cases hany : team'.any Member.busy with
  | true =>
    simp only [if_pos (status_eq_running.mpr hany)]
    refine ⟨rfl, fun m hm => (h.joins m hm).congr (fun id hid => ?_) rfl rfl, h.trees ▸ hapart, h.busy,
      h.trees ▸ hchildren, ?_, ?_⟩
    · exact (Temps.get_insert ..).trans (if_neg fun he : n.id = id => hid (he ▸ hn))
    · rw [hany]
      exact hframes'
    · rw [payload, hany, ← h.left]
      exact (Temps.get_insert ..).trans (if_pos rfl)
  | false =>
    have hs : status team' ≠ .running := fun hs => by
      rw [status_eq_running, hany] at hs
      cases hs
    simp only [if_neg hs]
    rw [Env.popFrame_eq hframes']
    refine ⟨rfl, fun m hm => (h.joins m hm).congr (fun id hid => ?_) rfl rfl, h.trees ▸ hapart, h.busy,
      h.trees ▸ hchildren, ?_, ?_⟩
    · exact (Temps.get_erase ..).trans (if_neg fun he : n.id = id => hid (he ▸ hn))
    · rw [hany]
      rfl
    · rw [payload, hany]
      exact (Temps.get_erase ..).trans (if_pos rfl)

theorem ticked (hv : t.Closes c n (keeping n (status team') left u) (status team') v) (hn : n.id = c.tree.root)
    (hapart : (Team.trees team).Pairwise Tree.Apart) (hchildren : n.children = (Team.trees team).map Tree.root) :
    Ticked R c n t sights team' (status team') v := by
  obtain ⟨hvars, hwaits⟩ := h.waits hframes hv hn hapart hchildren
  obtain ⟨journal, hworld⟩ := h.touched.world
  obtain ⟨journal', hworld'⟩ := hv.world
  refine ⟨rfl, ?_, hwaits, ?_, ?_, journal', ?_⟩
  · rw [hv.env]
  · rw [hvars]
    exact h.touched.labels
  · have hcalled : (t.opened c n resumed).world.calls c.owner = t.world.calls c.owner ++ [n.id] := by
      rw [World.calls, Tick.opened, World.acts_observe, if_pos rfl, List.filterMap_append]
      rfl
    have hreturned : v.world.calls c.owner = u.world.calls c.owner := by
      rw [World.calls, hv.acts, List.filterMap_append]
      exact List.append_nil _
    rw [hreturned, h.touched.calls, hcalled, List.append_assoc]
    rfl
  · rw [hworld', keeping, hworld]
    rfl

end Stepped

section Ticks

variable (hswap : R.swap = false) (hd : depth ≤ depth' ∧ forward ∨ depth' ≤ depth ∧ ¬ forward)
include hswap hd

/-- A parallel node steps its branches as the team ticks its runners. -/
theorem stepAll (h : Poised R c fresh team t) :
    Outcome.Echoes forward (fun stepped left u => Stepped R c team t stepped.1 stepped.2 left u) (step depth team)
      ((Engine.ofDepth depth').stepAll fresh (entries team) c t) := by
  induction team generalizing t with
  | nil => exact ⟨rfl, rfl, List.forall_mem_nil _, List.forall_mem_nil _, .refl _ _ _ _⟩
  | cons m team ih =>
    have hm := h.joins m List.mem_cons_self
    have hbusy := h.busy m List.mem_cons_self
    have hapart := (List.pairwise_cons.mp h.apart).1
    have hskip : (!fresh && m.runner.saved.isNone) = !m.busy := by
      rw [hbusy]
      cases fresh <;> cases m.runner.saved <;> rfl
    have hsaved : (if fresh then none else m.runner.saved) = m.runner.saved := by
      cases fresh with
      | true => rw [if_pos rfl, h.fresh rfl m List.mem_cons_self]
      | false => rfl
    rw [step, entries, List.map_cons, Engine.stepAll, hskip, hsaved]
    cases hb : m.busy with
    | false =>
      simp only [Bool.not_false, if_true, Bool.false_eq_true, if_false]
      have hrefl := Tick.Extends.refl c.owner m.runner.tree.Holds m.runner.tree.Sets t
      refine (ih (h.rest hrefl)).bind fun stepped left v hv => ?_
      have hnone : m.runner.saved = none := by
        rw [hb] at hbusy
        exact Option.not_isSome_iff_eq_none.mp fun hs => by simp [hs] at hbusy
      have hcons := hv.cons hrefl hapart rfl hm (by rw [hb, hnone]; rfl) rfl rfl
      rwa [hnone] at hcons
    | true =>
      simp only [Bool.not_true, if_true, Bool.false_eq_true, if_false]
      have hbeside : m.runner.Beside R m.runner.tree m.runner.env c t :=
        ⟨hm.kept, hswap, hm.part, hm.alike, fun hx => h.base _ hx ▸ hm.part.below, hm.time.symm, h.calm⟩
      refine (hbeside.stepBranch hd).bind fun ticked stepped u hu => ?_
      obtain ⟨status, frames⟩ := stepped
      obtain ⟨rfl, hu⟩ := hu
      refine (ih (h.rest hu.touched)).bind fun rest left v hv => ?_
      have hbusy' : decide (ticked.1.status = .running) = ticked.2.saved.isSome := by
        rw [hu.saved_eq]
        by_cases hr : ticked.1.status = .running <;> simp [hr]
      have hcons := hv.cons hu.touched hapart hu.tree_eq (hm.step hu) hbusy' List.flatMap_cons List.flatMap_cons
      rwa [hu.saved_eq] at hcons

/-- A parallel node does in a tick what the team does, and saves the frames that are left. -/
theorem parallel {n : Node} (h : Poised R c fresh team t) (hchildren : n.children = (trees team).map Tree.root)
    (hpayload : t.env.temps[n.id]? = if fresh then none else some (.branches (saved team))) :
    Outcome.Echoes forward (fun stepped s v => s = status stepped.2 ∧
        ∃ u left, Stepped R c team t stepped.1 stepped.2 left u ∧ v = keeping n s left u)
      (step depth team) ((Engine.ofDepth depth').parallel n.toSite c t) := by
  have hchildren' : n.children = team.map fun m => m.runner.tree.root := by
    rw [hchildren, trees, List.map_map]
    rfl
  have hprevious : Engine.savedBranches n.toSite c t = .ok (if fresh then none else some (saved team)) t := by
    have hsaved : TickM.saved? n.toSite c t = .ok (if fresh then none else some (.branches (saved team))) t := by
      rw [← hpayload]
      rfl
    have hlength : (saved team).length = n.toSite.children.length := by
      rw [hchildren', saved, List.length_map, List.length_map]
    rw [Engine.savedBranches, TickM.bind_apply, hsaved]
    cases fresh with
    | true => rfl
    | false =>
      simp only [Bool.false_eq_true, if_false]
      rw [if_pos hlength]
      rfl
  have hentries : n.children.zip ((if fresh then none else some (saved team)).getD (n.children.map fun _ => none)) =
      entries team := by
    rw [entries, ← List.zip_map', ← hchildren']
    cases fresh with
    | true =>
      have hnone : (team.map fun m => m.runner.saved) = n.children.map fun _ => none := by
        rw [hchildren', List.map_map]
        exact List.map_congr_left fun m hm => h.fresh rfl m hm
      rw [hnone]
      rfl
    | false => rfl
  have hisNone : (if fresh then none else some (saved team)).isNone = fresh := by cases fresh <;> rfl
  rw [Engine.parallel, TickM.bind_apply, hprevious]
  simp only
  rw [Engine.stepParallel, hentries, hisNone]
  refine (stepAll hswap hd h).andThen fun stepped left u hu => ?_
  have hany : left.any Option.isSome = stepped.2.any Member.busy := by
    rw [hu.left, saved, List.any_map, Bool.eq_iff_iff, List.any_eq_true, List.any_eq_true]
    refine exists_congr fun m => and_congr_right fun hm => ?_
    rw [hu.busy m hm]
    rfl
  rw [hany]
  cases hb : stepped.2.any Member.busy with
  | true => exact ⟨by rw [status, hb]; rfl, u, left, hu, rfl⟩
  | false => exact ⟨by rw [status, hb]; rfl, u, left, hu, rfl⟩

theorem runFramed {n : Node} {resumed : Bool} (h : Poised R c fresh team t) (hn : n.id = c.tree.root)
    (hb : n.behavior = .parallel) (hchildren : n.children = (trees team).map Tree.root)
    (hframes : t.env.stack.frames = [n.id])
    (hpayload : t.env.temps[n.id]? = if fresh then none else some (.branches (saved team))) :
    Outcome.Echoes forward (fun stepped s u => Ticked R c n t stepped.1 stepped.2 s u) (step depth team)
      ((Engine.ofDepth depth').runFramed n resumed c t) := by
  have hopened : Poised R c fresh team (t.opened c n resumed) :=
    ⟨fun m hm => (h.joins m hm).congr (fun _ _ => rfl) rfl rfl, h.apart, h.busy, h.fresh, h.base, h.calm⟩
  have hbehave := parallel hswap hd hopened hchildren hpayload
  rw [show (Engine.ofDepth depth').parallel n.toSite = (Engine.ofDepth depth').behave n.toSite n.behavior by
    rw [hb]; rfl] at hbehave
  refine (hbehave.runFramed ?_).mono ?_
  · rintro stepped s v ⟨rfl, u, left, hu, rfl⟩
    exact hu.settled hframes h.calm
  · rintro stepped s v ⟨_, ⟨rfl, u, left, hu, rfl⟩, hv⟩
    exact hu.ticked hframes hv hn h.apart hchildren

/-- The parallel node is run, or resumed, while the team goes on with its round. -/
theorem runNode {n : Node} (h : Waits R c.tree n team t.env t.world.time) (hn : n.id = c.tree.root)
    (hb : n.behavior = .parallel) (hcalm : (t.world.instanceOf c.owner).interrupted = false) :
    Outcome.Echoes forward (fun stepped s u => Ticked R c n t stepped.1 stepped.2 s u) (step depth (round team))
      ((Engine.ofDepth depth').runNode n c t) := by
  have hframes := h.stack
  have hpayload := h.payload
  rw [payload] at hpayload
  cases hany : team.any Member.busy with
  | true =>
    rw [hany, if_pos rfl] at hframes hpayload
    have hpoised : Poised R c false team t :=
      ⟨h.joins, h.apart, h.busy, nofun, fun x hx => by
        rw [hframes, List.mem_singleton] at hx
        exact hx.trans hn, hcalm⟩
    have hrun : (Engine.ofDepth depth').runNode n c t = (Engine.ofDepth depth').runFramed n true c t := by
      simp only [Engine.runNode, TickM.bind_apply, TickM.env, Env.isSuspended_eq, hpayload]
      rfl
    rw [hrun, round, if_pos hany]
    exact runFramed hswap hd hpoised hn hb h.children hframes hpayload
  | false =>
    rw [hany, if_neg Bool.false_ne_true] at hframes hpayload
    have htrees : trees (team.map fun m => { m with busy := true }) = trees team := by
      rw [trees, List.map_map]
      rfl
    have hnone : ∀ m ∈ team, m.runner.saved = none := fun m hm => by
      have hidle := List.any_eq_false.mp hany m hm
      rw [h.busy m hm] at hidle
      exact Option.not_isSome_iff_eq_none.mp hidle
    have hpoised : Poised R c true (team.map fun m => { m with busy := true }) (t.pushed n.id) := by
      refine ⟨List.forall_mem_map.mpr fun m hm => ?_, htrees ▸ h.apart, List.forall_mem_map.mpr fun m hm => rfl,
        fun _ => List.forall_mem_map.mpr hnone, fun x hx => ?_, hcalm⟩
      · have hm' : m.Joins R c.tree (t.pushed n.id).env t.world.time := (h.joins m hm).congr (fun _ _ => rfl) rfl rfl
        exact ⟨hm'.kept, hm'.part, hm'.alike, hm'.time⟩
      · change x ∈ n.id :: t.env.stack.frames at hx
        rw [hframes, List.mem_singleton] at hx
        exact hx.trans hn
    have hrun : (Engine.ofDepth depth').runNode n c t = (Engine.ofDepth depth').runFramed n false c (t.pushed n.id) := by
      simp only [Engine.runNode, TickM.bind_apply, TickM.env, Env.isSuspended_eq, hpayload]
      rfl
    rw [hrun, round, if_neg (by rw [hany]; exact Bool.false_ne_true)]
    exact (runFramed hswap hd hpoised hn hb (htrees ▸ h.children) (congrArg (n.id :: ·) hframes) hpayload).mono
      fun stepped s u hu => ⟨hu.status, hu.last, hu.waits, hu.labels, hu.calls, hu.world⟩

theorem runRoot {n : Node} (h : Waits R c.tree n team t.env t.world.time) (hget : c.tree.get? c.tree.root = some n)
    (hn : n.id = c.tree.root) (hb : n.behavior = .parallel) (hcalm : (t.world.instanceOf c.owner).interrupted = false) :
    Outcome.Echoes forward (fun stepped s u => Ticked R c n t stepped.1 stepped.2 s u) (step depth (round team))
      ((Engine.ofDepth (depth' + 1)).run c.tree.root c t) := by
  rw [Engine.run_ofDepth hget]
  exact runNode hswap hd h hn hb hcalm

/-- The tree is resumed, while its root is suspended. Nothing is left to be resumed when the root has ended. -/
theorem resumeRoot {n : Node} (h : Waits R c.tree n team t.env t.world.time) (hget : c.tree.get? c.tree.root = some n)
    (hn : n.id = c.tree.root) (hb : n.behavior = .parallel) (hcalm : (t.world.instanceOf c.owner).interrupted = false)
    (hany : team.any Member.busy = true) :
    Outcome.Echoes forward (fun stepped s u => Ticked R c n t stepped.1 stepped.2 s u) (step depth (round team))
      ((Engine.ofDepth (depth' + 2)).resume 0 c t) := by
  obtain ⟨htop, hsize⟩ := h.suspended hany
  change Outcome.Echoes forward _ _ ((Engine.ofDepth (depth' + 1)).resumeAbove 0 c t)
  rw [Engine.resumeAbove, TickM.bind_apply]
  simp only [TickM.env, htop, if_neg hsize, hn]
  refine (runRoot hswap hd h hget hn hb hcalm).andThen fun stepped s u hu => ?_
  have hended : s ≠ .running → ((Engine.ofDepth (depth' + 1)).resume 0 c u).Gives
      fun s v => Ticked R c n t stepped.1 stepped.2 s v := fun hs => by
    have hidle : stepped.2.any Member.busy = false :=
      Bool.not_eq_true _ ▸ fun hbusy => hs (hu.status.trans (status_eq_running.mpr hbusy))
    have hnil : u.env.stack.frames = [] := by rw [hu.waits.stack, hidle, if_neg Bool.false_ne_true]
    change ((Engine.ofDepth depth').resumeAbove 0 c u).Gives _
    rw [Engine.resumeAbove_of_le (by rw [Stack.size, hnil]; rfl), hu.last]
    exact hu
  cases s with
  | running => exact hu
  | success => exact hended (by decide)
  | failure => exact hended (by decide)

omit hd in
/-- In a tick of its own, a tree with a parallel root does what the team does. -/
theorem tick {n : Node} (hd : depth + 2 ≤ depth' ∧ forward ∨ depth' ≤ depth ∧ ¬ forward)
    (h : Waits R c.tree n team t.env t.world.time) (hget : c.tree.get? c.tree.root = some n)
    (hn : n.id = c.tree.root) (hb : n.behavior = .parallel)
    (hcalm : (t.world.instanceOf c.owner).interrupted = false) :
    Outcome.Echoes forward (fun stepped s u => Ticked R c n t stepped.1 stepped.2 s u) (step depth (round team))
      (Runner.step depth' c.tree t.env c t) := by
  -- the larger tree takes two calls more for each branch, where it is resumed
  have hdeep : depth' < 2 → ¬ forward := fun hlt hf => by
    rcases hd with ⟨hle, -⟩ | ⟨-, hnot⟩
    · omega
    · exact hnot hf
  have hless : ∀ {k}, k ≤ depth' → depth' ≤ k + 2 → depth ≤ k ∧ forward ∨ k ≤ depth ∧ ¬ forward := fun hle hge =>
    hd.imp (fun hd => ⟨by omega, hd.2⟩) fun hd => ⟨by omega, hd.2⟩
  cases hany : team.any Member.busy with
  | false =>
    have hempty : t.env.stack.isEmpty = true := by
      rw [Stack.isEmpty, h.stack, hany]
      rfl
    rw [Runner.step, hempty, if_pos rfl]
    rcases depth' with _ | k
    · exact .of_halted (hdeep (by omega))
    · exact runRoot hswap (hless (by omega) (by omega)) h hget hn hb hcalm
  | true =>
    have hempty : t.env.stack.isEmpty = false := by
      rw [Stack.isEmpty, h.stack, hany]
      rfl
    rw [Runner.step, hempty, if_neg Bool.false_ne_true]
    rcases depth' with _ | _ | k
    · exact .of_halted (hdeep (by omega))
    · obtain ⟨htop, hsize⟩ := h.suspended hany
      change Outcome.Echoes forward _ _ ((Engine.ofDepth 0).resumeAbove 0 c t)
      rw [Engine.resumeAbove, TickM.bind_apply]
      simp only [TickM.env, htop, if_neg hsize]
      exact .of_halted (hdeep (by omega))
    · exact resumeRoot hswap (hless (by omega) (by omega)) h hget hn hb hcalm hany

end Ticks

end Team

end BehaviorTree
