import BehaviorTree.Proofs.Engine.Turns
import BehaviorTree.Proofs.World.Rehearsal

/-!
What is seen of a race. In each of its ticks, the children that have not finished have a turn one after the other, up
to the first that succeeds. Those that fail are out of the race, and so it goes on with those that are running.
-/

namespace BehaviorTree
set_option autoImplicit false

open TickM

variable {σ : Type} {R : Rules σ} {c : Activation} {t u : Tick σ} {e : Engine σ} {s : Stance} {n : Node} {k : NodeId}
  {ks : List NodeId} {left : NodeId → Option Stack} {marked : Bool} {todo : NodeId → Prop} {status : Status}
  {acts : List Activity}

abbrev Racer := NodeId × Status

namespace Tree

/-- The children that are in a race have their turns in order, until one succeeds. -/
inductive Heat (t : Tree) (resumed : Bool) : List NodeId → List Racer → List Activity → Prop where
  | none : Heat t resumed [] [] []
  | won {k : NodeId} {ks : List NodeId} {acts : List Activity} : t.Turn k resumed .success acts →
      Heat t resumed (k :: ks) [(k, .success)] acts
  | next {k : NodeId} {ks : List NodeId} {status : Status} {racers : List Racer} {acts acts' : List Activity} :
      t.Turn k resumed status acts → status ≠ .success → Heat t resumed ks racers acts' →
      Heat t resumed (k :: ks) ((k, status) :: racers) (acts ++ acts')

def verdict (racers : List Racer) : Status :=
  if racers.any (·.2 = .success) then .success else if racers.any (·.2 = .running) then .running else .failure

def unfinished (racers : List Racer) : List NodeId := (racers.filter (·.2 = .running)).map Prod.fst

/-- What is seen of a race, tick by tick with what the node returned, and the children that are in it after that. All
of them start; in the first tick the node is called afresh, as they are, and later it is resumed. -/
inductive Race (t : Tree) (n : Node) : List (List Activity × Status) → List NodeId → Prop where
  | start : Race t n [] n.children
  | tick {ticks : List (List Activity × Status)} {ks : List NodeId} {racers : List Racer} {acts : List Activity} :
      Race t n ticks ks → Heat t (!ticks.isEmpty) ks racers acts →
      Race t n (ticks ++ [(.called n.id (!ticks.isEmpty) :: acts ++ [.returned n.id (some (verdict racers))],
        verdict racers)]) (unfinished racers)

theorem Heat.isPrefix {t : Tree} {resumed : Bool} {racers : List Racer} (h : t.Heat resumed ks racers acts) :
    racers.map Prod.fst <+: ks := by
  induction h with
  | none => exact List.prefix_rfl
  | won => exact ⟨_, rfl⟩
  | next _ _ _ ih => exact (List.prefix_cons_inj _).mpr ih

theorem Heat.within {t : Tree} {resumed : Bool} {racers : List Racer} {a : Activity} {x : NodeId}
    (h : t.Heat resumed ks racers acts) (ha : a ∈ acts) (hx : a.node? = some x) :
    ∃ k ∈ racers.map Prod.fst, t.Region k x := by
  induction h with
  | none => cases ha
  | won hturn => exact ⟨_, List.mem_cons_self, hturn.within a ha x hx⟩
  | next hturn _ _ ih =>
    rcases List.mem_append.mp ha with ha | ha
    · exact ⟨_, List.mem_cons_self, hturn.within a ha x hx⟩
    · obtain ⟨k, hk, hkx⟩ := ih ha
      exact ⟨k, List.mem_cons_of_mem _ hk, hkx⟩

theorem Race.sublist {t : Tree} {ticks : List (List Activity × Status)} (h : t.Race n ticks ks) :
    ks.Sublist n.children := by
  induction h with
  | start => exact List.Sublist.refl _
  | tick _ hheat ih => exact ((List.filter_sublist.map _).trans hheat.isPrefix.sublist).trans ih

/-- Nothing is seen of a child that has no turn, as it has failed before or comes after the winner. -/
theorem Race.unseen {t : Tree} {ticks : List (List Activity × Status)} {resumed : Bool} {racers : List Racer}
    {a : Activity} {x : NodeId} (h : t.Race n ticks ks) (ht : t.Orderly) (hn : t.get? n.id = some n)
    (hb : n.behavior = .race) (hheat : t.Heat resumed ks racers acts) (hk : k ∈ n.children)
    (hnot : k ∉ racers.map Prod.fst) (ha : a ∈ acts) (hx : a.node? = some x) : ¬ t.Region k x := by
  obtain ⟨k', hk', hkx⟩ := hheat.within ha hx
  have hstarts : ∀ {k}, k ∈ n.children → t.Starts n.id k := fun hk => ⟨n, hn, by rwa [started, hb]⟩
  have hmem : k' ∈ n.children := h.sublist.subset (hheat.isPrefix.subset hk')
  exact fun hr => ht.region_disjoint (hstarts hmem) (hstarts hk) (fun he => hnot (he ▸ hk')) hkx hr

theorem isEmpty_unfinished (racers : List Racer) :
    (unfinished racers).isEmpty = !racers.any (·.2 = .running) := by
  induction racers with
  | nil => rfl
  | cons runner racers ih =>
    by_cases hr : runner.2 = .running
    · simp [unfinished, hr]
    · simpa [unfinished, hr] using ih

theorem verdict_eq {racers : List Racer} (h : racers.any (·.2 = .success) = false) :
    verdict racers = if (unfinished racers).isEmpty then .failure else .running := by
  rw [verdict, h, if_neg Bool.false_ne_true, isEmpty_unfinished]
  cases racers.any (·.2 = .running) <;> rfl

end Tree

theorem isEmpty_provided {α β : Type} {xs : List α} {ys : List (Option β)} (h : ys.length = xs.length) :
    ((provided xs ys).map Prod.fst).isEmpty = !ys.any Option.isSome := by
  rw [List.isEmpty_map, ← List.isEmpty_map (f := Prod.snd), map_snd_provided h]
  clear h
  induction ys with
  | nil => rfl
  | cons y ys ih =>
    cases y with
    | none => exact ih
    | some y => rfl

theorem TickM.capture_world (status : Status) (level : Nat) :
    ((do return (status, ← capture status level) : TickM σ (Status × Stack)) c t).Meets
      (fun r u => r.1 = status ∧ u.world = t.world) (fun _ _ => True) fun _ => True := by
  cases status with
  | success => exact ⟨rfl, rfl⟩
  | failure => exact ⟨rfl, rfl⟩
  | running =>
    simp only [capture, bind_assoc, meets_bind, meets_env, meets_modifyEnv, pure_bind, meets_pure]
    exact ⟨trivial, trivial⟩

theorem TickM.abandon_world (given : List Stack) :
    (given.forM (abandon (σ := σ)) c t).Meets (fun _ u => u.world = t.world) (fun _ _ => True) fun _ => True := by
  induction given generalizing t with
  | nil => exact rfl
  | cons st given ih =>
    rw [List.forM, meets_bind, meets_abandon]
    exact ih

/-- The children that are in a race: all of them at first, and later those with frames in the payload. -/
def Stance.contenders (s : Stance) : List NodeId :=
  match s.own with
  | none => s.node.children
  | some p => (Tree.parked s.node p).map Prod.fst

def Tick.Tells (c : Activation) (t u : Tick σ) (P : List Activity → Prop) : Prop :=
  (t.Flagged c → u.Flagged c) ∧ (¬ u.Flagged c → ∃ acts, t.Adds c acts u ∧ P acts)

namespace Tick.Tells

variable {v w : Tick σ} {P Q : List Activity → Prop}

theorem world (h : t.Tells c u P) (hw : v.world = u.world) : t.Tells c v P := by
  unfold Tick.Tells Tick.Flagged Tick.Adds at *
  rwa [hw]

theorem nothing (hw : u.world = t.world) (hp : P []) : t.Tells c u P := by
  unfold Tick.Tells Tick.Flagged
  rw [hw]
  exact ⟨id, fun _ => ⟨[], by rw [Tick.Adds, hw, List.append_nil], hp⟩⟩

theorem mono (h : t.Tells c u P) (hpq : ∀ acts, P acts → Q acts) : t.Tells c u Q := by
  refine ⟨h.1, fun hf => ?_⟩
  obtain ⟨acts, hacts, hp⟩ := h.2 hf
  exact ⟨acts, hacts, hpq acts hp⟩

theorem trans (h : t.Tells c u P) (h' : u.Tells c v Q) :
    t.Tells c v fun acts => ∃ before after, acts = before ++ after ∧ P before ∧ Q after := by
  refine ⟨fun hf => h'.1 (h.1 hf), fun hf => ?_⟩
  obtain ⟨after, hafter, hq⟩ := h'.2 hf
  obtain ⟨before, hbefore, hp⟩ := h.2 fun hu => hf (h'.1 hu)
  exact ⟨before ++ after, hbefore.trans hafter, before, after, rfl, hp, hq⟩

end Tick.Tells

namespace Engine.Shows

variable (hs : e.Shows R) (he : e.Sound R)
include hs he

/-- A child that is run, with the frames that it has left, has a turn. -/
theorem stepBranch {saved : Option Stack} (h : t.Stands R c s [] left marked todo) (hk : k ∈ c.tree.started s.node)
    (hl : left k = saved) (htodo : t.Flagged c → todo k)
    (hclean : ∀ b ∈ c.tree.started s.node, c.tree.CleansUp k b → left b = none) :
    (e.stepBranch k saved c t).Meets (fun r u => t.Tells c u (c.tree.Turn k saved.isSome r.1)) (fun _ _ => True)
      fun _ => True := by
  have hcut : ∀ (resumed : Bool) (status : Status) (u : Tick σ), t.Tells c u (c.tree.Turn k resumed status) →
      ((do return (status, ← capture status t.env.stack.size) : TickM σ (Status × Stack)) c u).Meets
        (fun r v => t.Tells c v (c.tree.Turn k resumed r.1)) (fun _ _ => True) fun _ => True := by
    intro resumed status u hu
    refine (capture_world status _).mono ?_ fun _ _ _ => trivial
    rintro ⟨status', rest⟩ v ⟨rfl, hw⟩
    exact hu.world hw
  cases saved with
  | none =>
    rw [Engine.stepBranch, Engine.runCaptured, meets_bind, meets_env, meets_bind]
    have hfresh := h.fresh hk hl htodo hclean
    refine ((he.fresh hfresh).and (hs.fresh hfresh)).mono ?_ fun _ _ _ => trivial
    rintro status u ⟨hran, hturn⟩
    exact hcut false status u ⟨hran.flagged h.runs, hturn⟩
  | some st =>
    have hsize : t.env.stack.size = (s.node.id :: s.base).length := by rw [Stack.size, h.stack]; rfl
    have hres := h.resumes hk hl htodo
    rw [Engine.stepBranch, Engine.resumeCaptured, meets_bind, meets_env, meets_bind, meets_modifyEnv, meets_bind]
    have hresume : (e.resume t.env.stack.size c { t with env := { t.env with stack := t.env.stack ++ st } }).Meets
        (fun status u => t.Tells c u (c.tree.Turn k true status)) (fun _ _ => True) fun _ => True := by
      rw [hsize]
      refine ((he.resumes hres).and (hs.resumes hres)).mono ?_ fun _ _ _ => trivial
      rintro status u ⟨hran, hturn⟩
      refine ⟨hran.flagged hres.runs, fun hf => ?_⟩
      have hsus := h.kids k hk fun hf' => htodo hf'
      rw [hl] at hsus
      have hne : (t.env.stack ++ st).frames ≠ s.node.id :: s.base := by
        obtain ⟨above, hlast⟩ := Tree.Suspended.last hsus
        intro heq
        have hlen := congrArg List.length heq
        rw [Stack.frames_append, h.stack, hlast, List.nil_append, List.length_append, List.length_append,
          List.length_cons] at hlen
        omega
      have hturn := hturn hf
      rwa [if_neg hne] at hturn
    exact hresume.mono (hcut true) fun _ _ _ => trivial

omit hs he in
/-- The heat of a race begins with a child that does not win it. -/
theorem heat_cons {resumed : Bool} {branches : List (NodeId × Option Stack)} {passed : List (Option Stack)}
    {o : Option Stack} {r : Bool × List (Option Stack)} {v : Tick σ} (hstatus : status ≠ .success)
    (ho : o.isSome = (status = .running : Bool)) (hturn : t.Tells c u (c.tree.Turn k resumed status))
    (h : ∃ racers, u.Tells c v (c.tree.Heat resumed ks racers) ∧ r.1 = racers.any (·.2 = .success) ∧
      (r.1 = false → ∃ rest, r.2 = (o :: passed).reverse ++ rest ∧ rest.length = branches.length ∧
        (provided (branches.map Prod.fst) rest).map Prod.fst = Tree.unfinished racers)) :
    ∃ racers, t.Tells c v (c.tree.Heat resumed (k :: ks) racers) ∧ r.1 = racers.any (·.2 = .success) ∧
      (r.1 = false → ∃ rest, r.2 = passed.reverse ++ rest ∧ rest.length = branches.length + 1 ∧
        (provided (k :: branches.map Prod.fst) rest).map Prod.fst = Tree.unfinished racers) := by
  obtain ⟨racers, hheat, hwon, hleft⟩ := h
  refine ⟨(k, status) :: racers, (hturn.trans hheat).mono ?_, by simpa [hstatus] using hwon, fun hr => ?_⟩
  · rintro _ ⟨before, after, rfl, hbefore, hafter⟩
    exact .next hbefore hstatus hafter
  · obtain ⟨rest, hr2, hlen, hrest⟩ := hleft hr
    refine ⟨o :: rest, by simp [hr2], by simp [hlen], ?_⟩
    cases o with
    | none =>
      have hne : status ≠ .running := by simpa using ho.symm
      simpa [Tree.unfinished, provided, hne] using hrest
    | some st =>
      obtain rfl : status = .running := by simpa using ho.symm
      simpa [Tree.unfinished, provided] using hrest

/-- The children that are in a race have a heat. -/
theorem raceAll (hb : s.node.Abreast) (fresh : Bool) (passed : List (Option Stack))
    {branches : List (NodeId × Option Stack)} (h : t.Stands R c s [] left marked todo)
    (ht : s.Tells c.tree left marked) (hw : s.Awaits c.tree fresh left todo branches) :
    (e.raceAll fresh passed branches c t).Meets
      (fun r u => ∃ racers,
        t.Tells c u (c.tree.Heat (!fresh)
          ((provided (branches.map Prod.fst) (branches.map Prod.snd)).map Prod.fst) racers) ∧
        r.1 = racers.any (·.2 = .success) ∧
        (r.1 = false → ∃ rest, r.2 = passed.reverse ++ rest ∧ rest.length = branches.length ∧
          (provided (branches.map Prod.fst) rest).map Prod.fst = Tree.unfinished racers))
      (fun _ _ => True) fun _ => True := by
  induction branches generalizing t left marked todo passed with
  | nil => exact ⟨[], .nothing rfl .none, rfl, fun _ => ⟨[], by simp, rfl, rfl⟩⟩
  | cons b rest ih =>
    obtain ⟨k, saved⟩ := b
    have hl := hw.left List.mem_cons_self
    have hkid := hw.kid List.mem_cons_self
    rw [Engine.raceAll]
    cases saved with
    | none =>
      have hnone : left k = none := by rw [hl, ite_self]
      have hsame : Function.update left k none = left := Function.update_eq_self_iff.mpr hnone.symm
      have hrest : s.Awaits c.tree fresh (Function.update left k none) _ rest := hw.rest
      rw [hsame] at hrest
      refine (ih (none :: passed) (h.mono fun _ hx => hx.1) ht hrest).mono ?_ fun _ _ _ => trivial
      rintro r u ⟨racers, hheat, hwon, hleft⟩
      refine ⟨racers, hheat, hwon, fun hr => ?_⟩
      obtain ⟨out, hr2, hlen, hout⟩ := hleft hr
      refine ⟨none :: out, by simp [hr2], by simp [hlen], ?_⟩
      simpa [provided] using hout
    | some st =>
      have hturn := hs.stepBranch he h hkid.1 hl (fun _ => hkid.2) fun _ _ hc =>
        absurd hc (Engine.Sound.not_cleansUp_of_behavior h hkid.1 (by rcases hb with hb | hb <;> simp [hb]))
      have hresumed : (if fresh then none else some st).isSome = !fresh := by cases fresh <;> rfl
      rw [hresumed] at hturn
      simp only [Option.isNone_some, Bool.false_eq_true, if_false]
      rw [meets_bind]
      refine ((he.step_first hb h ht hw).and hturn).mono ?_ fun _ _ _ => trivial
      rintro ⟨status, frames⟩ u ⟨⟨marked', hu, ht', _⟩, hturn⟩
      cases status with
      | running =>
        refine (ih (some frames :: passed) hu ht' hw.rest).mono ?_ fun _ _ _ => trivial
        exact fun r v => heat_cons (by simp) rfl hturn
      | failure =>
        refine (ih (none :: passed) hu ht' hw.rest).mono ?_ fun _ _ _ => trivial
        exact fun r v => heat_cons (by simp) rfl hturn
      | success =>
        refine ⟨[(k, .success)], hturn.mono fun acts hacts => ?_, by simp, by simp⟩
        exact .won hacts

theorem stepRace (hb : s.node.behavior = .race) (fresh : Bool) {saved : List (Option Stack)}
    (hlen : saved.length = s.node.children.length) (h : t.Stands R c s [] left marked todo)
    (ht : s.Tells c.tree left marked) (hw : s.Awaits c.tree fresh left todo (s.node.children.zip saved)) :
    (e.stepRace s.node.toSite fresh saved c t).Meets
      (fun status u => ∃ racers,
        t.Tells c u (c.tree.Heat (!fresh) ((provided s.node.children saved).map Prod.fst) racers) ∧
        status = Tree.verdict racers ∧
        (status = .running → ∃ out, u.env.temps[s.node.id]? = some (.branches out) ∧
          (provided s.node.children out).map Prod.fst = Tree.unfinished racers))
      (fun _ _ => True) fun _ => True := by
  rw [Engine.stepRace, meets_bind]
  refine (hs.raceAll he (.inr hb) fresh [] h ht hw).mono ?_ fun _ _ _ => trivial
  rintro ⟨won, out⟩ u ⟨racers, hheat, hwon, hleft⟩
  rw [List.map_fst_zip (by omega), List.map_snd_zip (by omega)] at hheat
  cases won with
  | true =>
    simp only [if_true]
    rw [meets_bind]
    refine (abandon_world _).mono ?_ fun _ _ _ => trivial
    intro _ v hv
    refine ⟨racers, hheat.world hv, ?_, by simp⟩
    rw [Tree.verdict, ← hwon, if_pos rfl]
  | false =>
    obtain ⟨rest, hrest, hsize, hunfinished⟩ := hleft rfl
    obtain rfl : out = rest := hrest
    rw [List.map_fst_zip (by omega)] at hunfinished
    rw [List.length_zip, hlen, Nat.min_self] at hsize
    have hverdict := Tree.verdict_eq hwon.symm
    rw [← hunfinished, isEmpty_provided hsize] at hverdict
    simp only [Bool.false_eq_true, if_false]
    cases hany : out.any Option.isSome with
    | true =>
      rw [hany] at hverdict
      exact ⟨racers, hheat.world rfl, hverdict.symm, fun _ => ⟨out, by simp [Env.setPayload], hunfinished⟩⟩
    | false =>
      rw [hany] at hverdict
      exact ⟨racers, hheat, hverdict.symm, by simp⟩

/-- A race starts with all its children, and goes on with those that its payload has frames of. -/
theorem race (hb : s.node.behavior = .race) (h : t.Begins R c s) :
    (e.race s.node.toSite c t).Meets
      (fun status u => ∃ racers, t.Tells c u (c.tree.Heat s.own.isSome s.contenders racers) ∧
        status = Tree.verdict racers ∧
        (status = .running → ∃ out, u.env.temps[s.node.id]? = some (.branches out) ∧
          (provided s.node.children out).map Prod.fst = Tree.unfinished racers))
      (fun _ _ => True) fun _ => True := by
  have habreast : s.node.Abreast := .inr hb
  rw [Engine.race]
  refine Engine.Sound.meets_savedBranches habreast h ?_ ?_
  · intro hown
    have hnone := Stance.parked_of_none hown
    have hall : ∀ ids : List NodeId, (provided ids (ids.map fun _ => some (∅ : Stack))).map Prod.fst = ids := by
      intro ids
      induction ids with
      | nil => rfl
      | cons id ids ih => simpa [provided] using ih
    have hstart : (provided s.node.children (s.node.children.map fun _ => some (∅ : Stack))).map Prod.fst =
        s.contenders := by
      rw [hall, Stance.contenders, hown]
    rw [← hstart, hown]
    exact hs.stepRace he hb true (by simp) h.stands (fun _ => by simp [hnone])
      (Engine.Sound.awaits habreast h (by simp) (by simp) fun k _ _ => hnone k)
  · intro saved hown hsaved
    have hne : s.own ≠ none := by simp [hown]
    have hkept : (provided s.node.children saved).map Prod.fst = s.contenders := by
      rw [Stance.contenders, hown, ← habreast.parked]
    rw [← hkept, hown]
    exact hs.stepRace he hb false hsaved.1 h.stands (Stance.tells_of_own hne)
      (Engine.Sound.awaits habreast h hsaved.1 (fun _ => hne) hsaved.2)

/-- A run of a race is a heat of the children that are in it. -/
theorem runNode_race (hb : s.node.behavior = .race) (h : (s.node.entered c t).Begins R c s) :
    (e.runNode s.node c t).Meets
      (fun status u => ¬ u.Flagged c → ∃ racers acts, c.tree.Heat s.own.isSome s.contenders racers acts ∧
        t.Adds c (.called s.node.id s.own.isSome :: acts ++ [.returned s.node.id (some status)]) u ∧
        status = Tree.verdict racers ∧
        (status = .running → ∃ out, u.env.temps[s.node.id]? = some (.branches out) ∧
          (provided s.node.children out).map Prod.fst = Tree.unfinished racers))
      (fun _ _ => True) fun _ => True := by
  have hbehave := hs.race he hb h
  refine (runNode_adds s.node (by rw [hb]; exact hbehave)).mono ?_ fun _ _ _ => trivial
  rintro status u ⟨result, v, ⟨racers, htells, hverdict, hout⟩, hclose, -, hflag⟩ hf
  obtain ⟨hv, rfl, hkept⟩ := hflag hf
  obtain ⟨acts, hacts, hheat⟩ := htells.2 hv
  have hresumed : t.env.isSuspended s.node.id = s.own.isSome := by
    rw [Env.isSuspended_eq, ← h.stands.own, Node.entered_temps]
  refine ⟨racers, acts, hheat, ?_, hverdict, fun hr => ?_⟩
  · rw [← hresumed]
    exact ((entered_adds s.node c t).trans hacts).trans hclose
  · obtain ⟨out, hp, hunfinished⟩ := hout hr
    exact ⟨out, by rw [hkept hr _ hp, hp], hunfinished⟩

end Engine.Shows

/-- A race is about to be run, and what was seen of it until then. It was afresh at first, and has always been running
since; what happened between its ticks has left its region alone. -/
inductive Tick.Raced (R : Rules σ) (c : Activation) (n : Node) : List (List Activity × Status) → Tick σ → Prop where
  | fresh {t : Tick σ} : t.Fresh R c n.id → Raced R c n [] t
  | goesOn {ticks : List (List Activity × Status)} {t u t' : Tick σ} {depth : Nat} {acts : List Activity} {p : Payload}
      {base : List NodeId} : Raced R c n ticks t → (Engine.ofDepth depth).run n.id c t = .ok .running u →
      ¬ u.Flagged c → t.Adds c acts u → t'.Poised R c n p base →
      (∀ x, c.tree.Region n.id x → t'.env.temps[x]? = u.env.temps[x]?) →
      Raced R c n (ticks ++ [(acts, .running)]) t'

namespace Tick.Raced

variable {ticks : List (List Activity × Status)} {depth : Nat}

theorem heat (hb : s.node.behavior = .race) (h : (s.node.entered c t).Begins R c s) (hf : ¬ u.Flagged c)
    (hrun : (Engine.ofDepth depth).run s.node.id c t = .ok status u) :
    ∃ racers acts, c.tree.Heat s.own.isSome s.contenders racers acts ∧
      t.Adds c (.called s.node.id s.own.isSome :: acts ++ [.returned s.node.id (some status)]) u ∧
      status = Tree.verdict racers ∧
      (status = .running → ∃ out, u.env.temps[s.node.id]? = some (.branches out) ∧
        (provided s.node.children out).map Prod.fst = Tree.unfinished racers) := by
  cases depth with
  | zero => cases hrun
  | succ depth =>
    have hsound := (Engine.serves_ofDepth (R := R) depth).sound
    have hshown := (Engine.shows_ofDepth R depth).runNode_race hsound hb h
    rw [← Engine.run_ofDepth h.stands.get, hrun] at hshown
    exact hshown hf

/-- When a race is about to be run, the children that are in it are those that have not finished. -/
theorem exists_stance (hn : c.tree.get? n.id = some n) (hb : n.behavior = .race) (h : t.Raced R c n ticks) :
    ∃ s : Stance, s.node = n ∧ (n.entered c t).Begins R c s ∧ s.own.isSome = !ticks.isEmpty ∧
      c.tree.Race n ticks s.contenders := by
  induction h with
  | fresh h => exact ⟨_, rfl, h.entered_begins hn, rfl, .start⟩
  | goesOn _ hrun hf hacts hpoised htemps ih =>
    obtain ⟨s, rfl, hs, hresumed, hrace⟩ := ih
    obtain ⟨racers, acts, hheat, hadds, hverdict, hout⟩ := heat hb hs hf hrun
    obtain ⟨out, hpayload, hunfinished⟩ := hout rfl
    obtain rfl := hacts.unique hadds
    have hp := (htemps _ (.refl _)).trans hpayload
    rw [hpoised.ready.payload] at hp
    obtain rfl := Option.some.inj hp
    refine ⟨⟨s.node, _, some (.branches out), _⟩, rfl, hpoised.entered_begins, by simp, ?_⟩
    have hnext := hrace.tick (hresumed ▸ hheat)
    rw [← hverdict, ← hunfinished, ← hresumed] at hnext
    have hparked : Tree.parked s.node (.branches out) = provided s.node.children out := Node.Abreast.parked (.inr hb) out
    rwa [← hparked] at hnext

/-- A run of a race is one of a node that is afresh or poised. -/
theorem exists_ran (h : t.Raced R c n ticks) (hrun : (Engine.ofDepth depth).run n.id c t = .ok status u) :
    ∃ base, t.Ran R c n.id base status u := by
  have hsound := (Engine.serves_ofDepth (R := R) depth).sound
  cases h with
  | fresh h =>
    have hran := hsound.fresh h
    rw [hrun] at hran
    exact ⟨_, hran⟩
  | goesOn _ _ _ _ h _ =>
    have hran := hsound.poised h
    rw [hrun] at hran
    exact ⟨_, hran⟩

/-- The outcome of a race. In each tick the children that have not finished have their turns in order, up to the first
that succeeds. With it the race succeeds; it fails once no child is running any more, and nothing is left of the
children after that. -/
theorem race_outcome (hn : c.tree.get? n.id = some n) (hb : n.behavior = .race) (h : t.Raced R c n ticks)
    (hrun : (Engine.ofDepth depth).run n.id c t = .ok status u) (hf : ¬ u.Flagged c) :
    ∃ acts ks, t.Adds c acts u ∧ c.tree.Race n (ticks ++ [(acts, status)]) ks ∧
      (status ≠ .running → ∀ x, c.tree.Below n.id x → u.env.temps[x]? = none) := by
  obtain ⟨s, rfl, hs, hresumed, hrace⟩ := h.exists_stance hn hb
  obtain ⟨racers, acts, hheat, hadds, hverdict, _⟩ := heat hb hs hf hrun
  have hnext := hrace.tick (hresumed ▸ hheat)
  rw [← hverdict, ← hresumed] at hnext
  refine ⟨_, _, hadds, hnext, fun hst x hx => ?_⟩
  obtain ⟨base, hran⟩ := h.exists_ran hrun
  exact (hran.ends.ended hst).2.1 x hx.region

end Tick.Raced

/-- A node that waits for no other has its frame on top when it is running, and can go on at once. -/
theorem Tick.Ran.poised {base : List NodeId} (hn : c.tree.get? n.id = some n) (hnone : ∀ p, c.tree.awaited n p = none)
    (h : t.Ran R c n.id base .running u) (hr : t.Runs R c) (hbeside : ¬ t.Flagged c → c.tree.Beside t.env n.id base)
    (hf : ¬ u.Flagged c) : ∃ p, u.Poised R c n p base := by
  obtain ⟨above, hframes, hsus⟩ := h.ends.suspended hf rfl
  obtain ⟨p, hp⟩ := Option.ne_none_iff_exists'.mp hsus.payload
  rcases hsus.bottom hn hp with ⟨rfl, _, hready⟩ | ⟨_, _, _, hawait, _⟩
  · obtain ⟨happ, _⟩ := h.stays
    exact ⟨p, h.runs, h.fits, happ, hframes, hready, fun hne => absurd (hnone p) hne, h.beside hr hbeside⟩
  · rw [hnone] at hawait
    cases hawait

namespace Sprint

/-- A short step races against a long one. -/
def spec : TreeSpec where
  name := "sprint"
  root :=
    { id := ⟨0⟩, name := "Race"
      children :=
        [{ id := ⟨1⟩, name := "Step", args := [("label", .string "long"), ("ticks", .int 5)] },
          { id := ⟨2⟩, name := "Step", args := [("label", .string "short"), ("ticks", .int 1)] }] }

def isRace (n : Node) : Bool :=
  match n.behavior with
  | .race => true
  | _ => false

open Rehearsal in
/-- The race is running after one run, and won after another. -/
theorem exists_world : ∃ w, World.perform 6 (program spec) { registry := Workbench.rules.registry, host := () } = .ok w ∧
    (ready isRace w && plays w (start w) .running fun u => plays w u .success fun _ => true) = true :=
  exists_ok_of_any (by decide +kernel)

theorem behavior_of_isRace {n : Node} (h : isRace n = true) : n.behavior = .race := by
  unfold isRace at h
  split at h
  · assumption
  · cases h

end Sprint

open Sprint Rehearsal in
/-- The short step wins the sprint in the second tick. -/
theorem Tick.Raced.race_outcome_sprint :
    ∃ (c : Activation) (n : Node) (t u v : Tick Unit) (acts acts' : List Activity) (ks : List NodeId),
      t.Raced Workbench.rules c n [] ∧ u.Raced Workbench.rules c n [(acts, .running)] ∧
      (Engine.ofDepth 6).run n.id c u = .ok .success v ∧ u.Adds c acts' v ∧
      c.tree.Race n [(acts, .running), (acts', .success)] ks ∧ ∀ x, c.tree.Below n.id x → v.env.temps[x]? = none := by
  obtain ⟨w, n, hid, hn, hrace, hfresh, _, hplays⟩ := exists_start exists_world
  have hb := behavior_of_isRace hrace
  obtain ⟨u, hu, hfu, hplays⟩ := exists_ends hplays
  obtain ⟨v, hv, hfv, _⟩ := exists_ends hplays
  rw [← hid] at hu hv
  have hran := (Engine.serves_ofDepth (R := Workbench.rules) 6).sound.fresh hfresh
  rw [hu] at hran
  have hnone : ∀ p, (activation w).tree.awaited n p = none := fun p => by cases p <;> simp [Tree.awaited, hb]
  obtain ⟨p, hpoised⟩ := hran.poised hn hnone hfresh.runs hfresh.beside hfu
  have hstart : (start w).Raced Workbench.rules (activation w) n [] := .fresh hfresh
  obtain ⟨acts, _, hacts, _⟩ := hstart.race_outcome hn hb hu hfu
  have hnext := hstart.goesOn hu hfu hacts hpoised fun _ _ => rfl
  obtain ⟨acts', ks, hacts', hrace, hidle⟩ := hnext.race_outcome hn hb hv hfv
  exact ⟨_, n, _, u, v, acts, acts', ks, hstart, hnext, hv, hacts', hrace, hidle (by simp)⟩

end BehaviorTree
