import BehaviorTree.Proofs.Variants.Ladder

/-!
Ticks of a switch and of the chain in its place. The links of a chain run inside one another where the switch goes from
case to case, so what the two do is compared by induction on the cases that are left. When a condition or an action has
been resumed, the chain takes the links off one by one that passed it on.
-/

namespace BehaviorTree
set_option autoImplicit false

open TickM

variable {σ : Type}

namespace Engine

variable (e : Engine σ)

def passOn (site : Site) (phase : Nat) : Status → TickM σ Status
  | .running => suspend site (.step phase)
  | status => return status

theorem branchAt_eq {site : Site} {i : Nat} {k : NodeId} (hk : site.children[i]? = some k) :
    e.branchAt site i = e.run k >>= passOn site i := by
  rw [branchAt, child, element, hk]
  rfl

theorem caseAction_eq (site : Site) (case : Nat) (test action : NodeId) :
    e.caseAction site case [test, action] = e.run action >>= passOn site (actionPhase case) := rfl

theorem tryCases_eq {c : Activation} {m : Node} {test action : NodeId} (hm : c.tree.get? m.id = some m)
    (hchildren : m.children = [test, action]) (site : Site) (case : Nat) (ids : List NodeId) (t : Tick σ) :
    e.tryCases site case (m.id :: ids) c t = (e.run test >>= fun status => match status with
      | .success => e.caseAction site case [test, action]
      | .failure => e.tryCases site (case + 1) ids
      | .running => suspend site (.step (conditionPhase case))) c t := by
  rw [tryCases, bind_node hm, hchildren]
  rfl

variable {e} {c : Activation} {t : Tick σ} {site : Site} {k : NodeId}

theorem ifElse_fresh (hsaved : t.env.temps[site.id]? = none) (hk : site.children[0]? = some k) :
    e.ifElse site c t = (e.run k >>= e.branch site) c t := by
  rw [ifElse, bind_saved, hsaved]
  exact bind_child hk _

theorem ifElse_resumed (acting : Bool) (hsaved : t.env.temps[site.id]? = some (.step (stageOf acting))) :
    e.ifElse site c t = (if acting then childStatus site else childStatus site >>= e.branch site) c t := by
  rw [ifElse, bind_saved, hsaved]
  cases acting <;> rfl

/-- A link whose next one has been running passes its status on. -/
theorem ifElse_passes (hsaved : t.env.temps[site.id]? = some (.step 2)) :
    e.ifElse site c t = childStatus site c t := by
  rw [ifElse, bind_saved, hsaved]
  rfl

theorem leaf_fails {react : Leaf} (hreact : ∀ m, react m = { ending := .finish .failure }) (site : Site) (c : Activation)
    (t : Tick σ) : leaf site react c t = .ok .failure t := by
  obtain rfl : react = fun _ => { ending := .finish .failure } := funext hreact
  rfl

theorem switch_fresh (hsaved : t.env.temps[site.id]? = none) : e.switch site c t = e.tryCases site 0 site.children c t := by
  rw [switch, bind_saved, hsaved]

/-- A switch goes on behind the condition or the action of the case that its payload names. -/
theorem switch_resumed {m : Node} {case : Nat} (acting : Bool)
    (hsaved : t.env.temps[site.id]? = some (.step (phaseOf case acting))) (hm : c.tree.get? m.id = some m)
    (hchild : site.children[case]? = some m.id) :
    e.switch site c t = (if acting then childStatus site else childStatus site >>= fun status =>
      if status = .success then e.caseAction site case m.children
      else e.tryCases site (case + 1) (site.children.drop (case + 1))) c t := by
  rw [switch, bind_saved, hsaved]
  simp only [Ladder.phase_half, Ladder.phase_acting]
  cases acting with
  | true =>
    simp only [if_true]
    exact congrFun (congrFun (bind_pure (childStatus site : TickM σ Status)) c) t
  | false =>
    simp only [Bool.false_eq_true, if_false]
    rw [TickM.bind_apply, TickM.bind_apply]
    cases childStatus site c t with
    | ok status u =>
      dsimp only
      split
      · rw [bind_child hchild, bind_node hm]
      · rfl
    | failed r u => rfl
    | halted h => rfl

theorem childStatus_ended {status : Status} (hlast : t.env.lastStatus = status) (hs : status ≠ .running) :
    childStatus site c t = .ok status t := by
  subst hlast
  rw [childStatus, TickM.bind_apply]
  dsimp only [env]
  cases hstatus : t.env.lastStatus with
  | running => exact absurd hstatus hs
  | success => rfl
  | failure => rfl

theorem childStatus_running (hlast : t.env.lastStatus = .running) :
    childStatus site c t = .failed (.unexpectedStatus c.tree.name site.name site.id .running) t := by
  rw [childStatus, TickM.bind_apply]
  dsimp only [env]
  rw [hlast]
  rfl

theorem conclude_leaves {n : Node} {status s : Status} {output : List (Option Value)} {u : Tick σ}
    (h : conclude n s output c t = .ok status u) : u.world = t.world ∧ u.env.lastStatus = status := by
  by_cases hs : s = .running
  · subst hs
    rw [conclude_running_eq] at h
    cases h
    refine ⟨rfl, ?_⟩
    dsimp only
    split <;> rfl
  · obtain ⟨vars, hvars⟩ := exists_vars_writeOutputs { t.env with lastStatus := s } n.output output
    rw [conclude_ended_eq hs, leaveFrame_apply, hvars] at h
    split at h
    · cases h
      exact ⟨rfl, rfl⟩
    · cases h

/-- A run of a node that is asked to interrupt gives that it is running, any other one leaves its status behind. -/
theorem run_ends {d : Nat} {id : NodeId} {status : Status} {u : Tick σ} (h : (ofDepth d).run id c t = .ok status u) :
    ((u.world.instanceOf c.owner).interrupted = true → status = .running) ∧
      ((u.world.instanceOf c.owner).interrupted = false → u.env.lastStatus = status) := by
  cases d with
  | zero => cases h
  | succ d =>
    cases hget : c.tree.get? id with
    | none =>
      have hnone : (ofDepth (d + 1)).run id c t = .failed (.unknownNode c.tree.name id) t := by
        change (TickM.node id >>= fun n => (ofDepth d).runNode n) c t = _
        rw [TickM.bind_apply, TickM.node, TickM.bind_apply, TickM.tree]
        simp only [hget]
        rfl
      rw [hnone] at h
      cases h
    | some n =>
      rw [run_ofDepth hget, runNode_eq, runFramed_eq, attempt_ends] at h
      generalize (ofDepth d).behave n.toSite n.behavior c _ = o at h
      cases o with
      | halted _ => cases h
      | failed _ _ => cases h
      | ok s v =>
        obtain ⟨w, hw, hclose⟩ := closeNode_ok n (t.env.isSuspended n.id)
          (if t.env.isSuspended n.id then t else t.pushed n.id).env s c v
        change closeNode _ _ _ _ c v = _ at h
        rw [hclose] at h
        have hkept : (w.instanceOf c.owner).interrupted = (v.world.instanceOf c.owner).interrupted := by
          rcases hw with rfl | ⟨r, rfl⟩ <;> rfl
        by_cases hflag : (v.world.instanceOf c.owner).interrupted = true
        · rw [if_pos hflag] at h
          cases h
          refine ⟨fun _ => rfl, fun hnot => ?_⟩
          exact absurd (hnot.symm.trans hflag) Bool.false_ne_true
        · rw [if_neg hflag] at h
          obtain ⟨hworld, hlast⟩ := conclude_leaves h
          refine ⟨fun hstop => ?_, fun _ => hlast⟩
          rw [hworld, hkept] at hstop
          exact absurd hstop hflag

end Engine

namespace Ladder

variable (L : Ladder)

def Held (case : Nat) (rungs : List Rung) (G : Ground) (base : List NodeId) (G' : Ground) (left left' : List NodeId) : Prop :=
  ∃ (above : List NodeId) (passed : List Rung) (r : Rung) (rest : List Rung) (acting : Bool),
    rungs = passed ++ r :: rest ∧ L.Paused case passed r rest acting G' ∧
    (∀ x, x ∉ links rungs → G'.there[x]? = G.there[x]?) ∧
    (∀ x ∈ above, L.shared x ∧ L.tree.Region L.tree.root x) ∧
    left = above ++ [L.switch.id] ∧ left' = above ++ (links (passed ++ [r]) ++ base)

/-- Besides what the switch may nest, the chain has so many calls left. -/
structure Spare (k d d' : Nat) : Prop where
  early : L.early ∨ d' ≤ d + 1
  late : L.late ∨ (L.rungs.length + 1) * d + k ≤ d'

variable {L} {G G' : Ground} {before passed rest : List Rung} {r : Rung} {id x : NodeId} {case k d d' : Nat} {acting : Bool}
  {base above left left' : List NodeId} {t t' u u' : Tick σ} {e e' : Engine σ} {status : Status}

theorem Spare.pred (h : L.Spare (k + 1) d (d' + 1)) (hd : L.early ∨ d' ≤ d) : L.Spare k d d' :=
  ⟨hd.imp_right fun h => by omega, h.late.imp_right fun h => by omega⟩

theorem Spare.depths (h : L.Spare k d d') (hd : L.early ∨ d' ≤ d) : L.both.Depths d d' :=
  ⟨hd, h.late.imp_right fun h => Nat.le_trans (Nat.le_add_right _ _) h⟩

theorem Spare.pos (h : L.Spare (k + 1) d 0) : L.late := h.late.resolve_right (by omega)

namespace Built

variable (hL : L.Built)
include hL

/-- A condition or an action runs with the switch below it, or with a link. -/
theorem calls (he : L.both.Shares e e') (hr : r ∈ L.rungs) (hid : id = r.test ∨ id = r.action)
    (ht : L.both.Ticks G [L.switch.id] (r.link.id :: base) t t') :
    L.both.Beside (fun a b u u' => a = b ∧
        (a = .running → ∃ above, (∀ x ∈ above, L.shared x ∧ L.tree.Region L.tree.root x) ∧
          L.both.Ticks G (above ++ [L.switch.id]) (above ++ r.link.id :: base) u u') ∧
        (a ≠ .running → L.both.Ticks G [L.switch.id] (r.link.id :: base) u u')) L.both.Alike
      (e.run id L.both.here t) (e'.run id L.both.there t') := by
  have hshared : L.shared id := hid.elim (fun h => h ▸ (hL.branch hr).1) fun h => h ▸ (hL.branch hr).2
  have hlevel : L.both.Level id [L.switch.id] (r.link.id :: base) := by
    refine ⟨fun {x} hx => ⟨fun h => ?_, fun h => ?_⟩, fun {x} h hb => ?_⟩
    · cases h
      exact absurd hx hL.switch_apart
    · cases h
      exact absurd hx (hL.link_apart hr).1
    · cases h
      exact hL.switch_apart (hL.fits.below hb hshared)
  refine (he.run hshared hlevel t t' ht).mono ?_ ?_
  · rintro a _ u u' - - ⟨rfl, left, left', hends, hu⟩
    refine ⟨rfl, fun hrun => ?_, fun hs => ?_⟩
    · obtain ⟨above, habove, rfl, rfl⟩ := hends.1 hrun
      refine ⟨above, fun x hx => ⟨hL.fits.region (habove x hx) hshared, ?_⟩, hu⟩
      rw [hL.root]
      exact .of_starts (hL.starts hr hid) (habove x hx)
    · rcases hends.2 hs with ⟨rfl, rfl⟩ | ⟨hself, -⟩
      · exact hu
      · cases hself
        exact absurd hshared hL.switch_apart
  · rintro u u' ⟨above, -, hu⟩
    exact hu.alike

/-- Both suspend where a condition or an action is running. -/
theorem parks (hr : L.rungs = before ++ r :: rest) (hfresh : L.Fresh rest G) (acting : Bool)
    (habove : ∀ x ∈ above, L.shared x ∧ L.tree.Region L.tree.root x)
    (hu : L.both.Ticks G (above ++ [L.switch.id]) (above ++ r.link.id :: base) u u') :
    L.both.Comes (fun status u u' => L.both.Stopped (L.Held before.length (r :: rest) G base) G [L.switch.id]
        (r.link.id :: base) status (u.told status) (u'.told status)) .running .running
      { u with env := u.env.setPayload L.switch.id (.step (Engine.phaseOf before.length acting)) }
      { u' with env := u'.env.setPayload r.link.id (.step (Engine.stageOf acting)) } := by
  have hmem := rung_mem hr
  have hstack : u.env.stack = ⟨above ++ [L.switch.id]⟩ := hu.env.stack
  have hstack' : u'.env.stack = ⟨above ++ r.link.id :: base⟩ := hu.env.stack'
  have hhere := Variants.Solo.suspended (V := L.both) u L.switch.id (.step (Engine.phaseOf before.length acting))
  have hthere := Variants.Solo.suspended (V := L.both) u' r.link.id (.step (Engine.stageOf acting))
  rw [hstack] at hhere
  rw [hstack'] at hthere
  have hv := (hu.here hL.switch_apart (.insert _ _) hhere).there (hL.link_apart hmem).1 (.insert _ _) hthere
  refine ⟨hv.world, fun _ => hv.alike, fun _ => ⟨rfl, fun _ => ⟨_, _, _, ?_, hv.told .running⟩, fun hne => absurd rfl hne⟩⟩
  refine ⟨above, [], r, rest, acting, rfl, ⟨?_, fun hb => absurd hb List.not_mem_nil, ?_, ?_⟩, fun x hx => ?_, habove, rfl, rfl⟩
  · exact (Temps.get_insert _ _ _ _).trans (if_pos rfl)
  · exact (Temps.get_insert _ _ _ _).trans (if_pos rfl)
  · refine hfresh.congr (fun b hb => ?_) ?_
    · exact (Temps.get_insert _ _ _ _).trans (if_neg (hL.link_ne hr hb))
    · exact (Temps.get_insert _ _ _ _).trans (if_neg (hL.link_apart hmem).2)
  · refine (Temps.get_insert _ _ _ _).trans (if_neg fun heq => hx ?_)
    rw [links_cons]
    exact List.mem_append_right _ (List.mem_singleton.mpr heq.symm)

/-- The next link has come to something. It is suspended below this one if it is running, and so are others above it. -/
theorem relays (hr : L.rungs = before ++ r :: rest) {a b : Status}
    (h : L.both.Comes (fun status u u' =>
        L.both.Stopped (L.Held (before.length + 1) rest G (r.link.id :: base)) G [L.switch.id] (r.link.id :: base) status
          (u.told status) u') a b u u') :
    L.both.Beside (L.both.Comes fun status u u' =>
        L.both.Stopped (L.Held before.length (r :: rest) G base) G [L.switch.id] (r.link.id :: base) status
          (u.told status) (u'.told status)) L.both.Alike (.ok a u)
      (Engine.passOn r.link.toSite 2 b L.both.there u') := by
  have hmem := rung_mem hr
  obtain ⟨hw, hstopped, hsettled⟩ := h
  have hended : b ≠ .running → L.both.Comes (fun status u u' =>
      L.both.Stopped (L.Held before.length (r :: rest) G base) G [L.switch.id] (r.link.id :: base) status
        (u.told status) (u'.told status)) a b u u' := fun hb =>
    ⟨hw, hstopped, fun hflag => by
      obtain ⟨rfl, -, hu⟩ := hsettled hflag
      exact ⟨rfl, fun ha => absurd ha hb, fun ha => (hu ha).told a⟩⟩
  cases b with
  | success => exact hended (by simp)
  | failure => exact hended (by simp)
  | running =>
    have hthere := Variants.Solo.suspended (V := L.both) u' r.link.id (.step 2)
    refine ⟨hw.unseenThere hthere.world, fun hflag => (hstopped hflag).there hthere, fun hflag => ?_⟩
    -- The links that are suspended above are as they were; only the payload of this one is new.
    obtain ⟨rfl, hrunning, -⟩ := hsettled hflag
    obtain ⟨G', left, left', ⟨above, passed, r', rest', acting, rfl, hpaused, hframe, habove, rfl, rfl⟩, hu⟩ := hrunning rfl
    have hstack : u'.env.stack = _ := hu.env.stack'
    rw [hstack] at hthere
    have hv := hu.there (hL.link_apart hmem).1 (.insert _ _) hthere
    have hother : ∀ {x : NodeId}, r.link.id ≠ x → (G'.there.insert r.link.id (.step 2))[x]? = G'.there[x]? := fun hx =>
      (Temps.get_insert _ _ _ _).trans (if_neg hx)
    refine ⟨rfl, fun _ => ⟨_, _, _, ⟨above, r :: passed, r', rest', acting, rfl, ⟨?_, fun hb => ?_, ?_, ?_⟩, fun x hx => ?_,
      habove, rfl, ?_⟩, hv.told .running⟩, fun hne => absurd rfl hne⟩
    · rw [List.length_cons, Nat.add_comm passed.length, ← Nat.add_assoc]
      exact hpaused.switch
    · rcases List.mem_cons.mp hb with rfl | hb
      · exact (Temps.get_insert _ _ _ _).trans (if_pos rfl)
      · rw [hother (hL.link_ne hr (List.mem_append_left _ hb))]
        exact hpaused.passed hb
    · rw [hother (hL.link_ne hr (List.mem_append_right _ List.mem_cons_self))]
      exact hpaused.link
    · refine hpaused.fresh.congr (fun b hb => hother (hL.link_ne hr ?_)) (hother (hL.link_apart hmem).2)
      exact List.mem_append_right _ (List.mem_cons_of_mem _ hb)
    · rw [links_cons, List.mem_append, not_or, List.mem_singleton] at hx
      rw [hother (Ne.symm hx.2), hframe x hx.1]
    · rw [List.cons_append, links_cons, List.append_assoc, List.singleton_append]

/-- The condition of a case has ended. The switch runs the action or goes on to the next case, and so does the link. -/
theorem branches (he : L.both.Shares e e') (hr : L.rungs = before ++ r :: rest) (hfresh : L.Fresh rest G)
    (hs : status ≠ .running) (ht : L.both.Ticks G [L.switch.id] (r.link.id :: base) t t')
    (hnext : L.both.Beside (L.both.Comes fun status u u' =>
        L.both.Stopped (L.Held (before ++ [r]).length rest G (r.link.id :: base)) G [L.switch.id] (r.link.id :: base) status
          (u.told status) u') L.both.Alike
      (e.tryCases L.switch.toSite (before ++ [r]).length (rest.map (·.case.id)) L.both.here t)
      (e'.run (L.entry rest) L.both.there t')) :
    L.both.Beside (L.both.Comes fun status u u' =>
        L.both.Stopped (L.Held before.length (r :: rest) G base) G [L.switch.id] (r.link.id :: base) status
          (u.told status) (u'.told status)) L.both.Alike
      ((if status = .success then e.caseAction L.switch.toSite before.length r.case.children
        else e.tryCases L.switch.toSite (before.length + 1) (rest.map (·.case.id))) L.both.here t)
      (e'.branch r.link.toSite status L.both.there t') := by
  have hmem := rung_mem hr
  obtain ⟨-, hpair⟩ := hL.case hmem
  obtain ⟨-, -, hchildren⟩ := hL.link hr
  cases status with
  | running => exact absurd rfl hs
  | success =>
    have haction : r.link.children[1]? = some r.action := by rw [hchildren]; rfl
    rw [if_pos rfl, hpair, Engine.caseAction_eq]
    change L.both.Beside _ _ _ (e'.branchAt r.link.toSite 1 L.both.there t')
    rw [Engine.branchAt_eq e' haction]
    refine (hL.calls he hmem (.inr rfl) ht).bind (fun _ _ hu => hu) ?_
    rintro a _ u u' ⟨rfl, hrunning, hended⟩
    have hback : ∀ {a : Status}, a ≠ .running → L.both.Ticks G [L.switch.id] (r.link.id :: base) u u' →
        L.both.Comes (fun status u u' => L.both.Stopped (L.Held before.length (r :: rest) G base) G [L.switch.id]
          (r.link.id :: base) status (u.told status) (u'.told status)) a a u u' := fun ha hu =>
      ⟨hu.world, fun _ => hu.alike, fun _ => ⟨rfl, fun h => absurd h ha, fun _ => hu.told _⟩⟩
    cases a with
    | running =>
      obtain ⟨above, habove, hu⟩ := hrunning rfl
      exact hL.parks hr hfresh true habove hu
    | success => exact hback (by simp) (hended (by simp))
    | failure => exact hback (by simp) (hended (by simp))
  | failure =>
    have hrest : r.link.children[2]? = some (L.entry rest) := by rw [hchildren]; rfl
    rw [if_neg (by simp)]
    change L.both.Beside _ _ _ (e'.branchAt r.link.toSite 2 L.both.there t')
    rw [Engine.branchAt_eq e' hrest, ← Outcome.ends_self (e.tryCases _ _ _ _ _), bind_ends]
    rw [List.length_append] at hnext
    exact hnext.ends (fun a b u u' hu => hL.relays hr hu) fun _ _ _ _ hu => hu

omit hL in
theorem held_link {G' : Ground} (h : L.Held case (r :: rest) G base G' left left') : G'.there[r.link.id]? ≠ none := by
  obtain ⟨above, passed, r', rest', acting, hrungs, hpaused, -⟩ := h
  cases passed with
  | nil =>
    obtain ⟨rfl, -⟩ := List.cons.inj hrungs
    rw [hpaused.link]
    exact Option.some_ne_none _
  | cons b passed =>
    obtain ⟨rfl, -⟩ := List.cons.inj hrungs
    rw [hpaused.passed List.mem_cons_self]
    exact Option.some_ne_none _

theorem tries_none (hd : L.Spare (k + 1) d d') (hfresh : L.Fresh [] G) (ht : L.both.Ticks G [L.switch.id] base t t') :
    L.both.Beside (L.both.Comes fun status u u' =>
        L.both.Stopped (L.Held case [] G base) G [L.switch.id] base status (u.told status) u') L.both.Alike
      (.ok .failure t) ((Engine.ofDepth d').run L.last.id L.both.there t') := by
  obtain ⟨react, hleaf, hreact⟩ := hL.fails
  cases d' with
  | zero => exact .late hd.pos
  | succ d' =>
    refine .startThere hL.last_apart ?_ hL.last hfresh.last ?_ ht fun v' hv => ?_
    · intro v values hvalues
      rw [hleaf] at hvalues
      exact hvalues.trans (congrArg Reaction.outputs (hreact _))
    · rintro G' left left' ⟨above, passed, r, rest, acting, hrungs, -⟩
      simp at hrungs
    · rw [hleaf]
      change L.both.Beside _ _ _ (Engine.leaf L.last.toSite react L.both.there v')
      rw [Engine.leaf_fails hreact]
      exact ⟨hv.world, fun _ => hv.alike, fun _ => ⟨rfl, fun h => by (cases h), fun _ => hv.told _⟩⟩

theorem link_quiet (hr : L.rungs = before ++ r :: rest) (v : Tick σ) (values : List (Option Value))
    (h : r.link.behavior.Pushes r.link.toSite v values) : values = [] := by
  rw [(hL.link hr).2.1] at h
  exact h

/-- The switch tries the cases that are left, while the chain goes on from the link of the first of them. -/
theorem tries (hshares : ∀ c, L.both.Depths d c → L.both.Shares (σ := σ) (Engine.ofDepth d) (Engine.ofDepth c))
    (hr : L.rungs = before ++ rest) (hd : L.Spare (rest.length + 1) d d') (hfresh : L.Fresh rest G)
    (ht : L.both.Ticks G [L.switch.id] base t t') :
    L.both.Beside (L.both.Comes fun status u u' =>
        L.both.Stopped (L.Held before.length rest G base) G [L.switch.id] base status (u.told status) u') L.both.Alike
      ((Engine.ofDepth d).tryCases L.switch.toSite before.length (rest.map (·.case.id)) L.both.here t)
      ((Engine.ofDepth d').run (L.entry rest) L.both.there t') := by
  -- Each link runs inside the one before, so with every case the chain has a link more below it and a call less to nest.
  induction rest generalizing before base d' t t' with
  | nil => exact hL.tries_none hd hfresh ht
  | cons r rest ih =>
    have hmem := rung_mem hr
    have hrest : L.Fresh rest G := ⟨fun hb => hfresh.link (List.mem_cons_of_mem r hb), hfresh.last⟩
    obtain ⟨hlink, hbehavior, hchildren⟩ := hL.link hr
    obtain ⟨hcase, hpair⟩ := hL.case hmem
    cases d' with
    | zero => exact .late hd.pos
    | succ d' =>
      have hless : L.early ∨ d' ≤ d := hd.early.imp_right fun h => Nat.le_of_succ_le_succ h
      have hspare := hd.pred hless
      have he := hshares d' (hspare.depths hless)
      refine .startThere (hL.link_apart hmem).1 (hL.link_quiet hr) hlink (hfresh.link List.mem_cons_self)
        (fun h => held_link h) ht fun v' hv => ?_
      have hsnoc : L.rungs = (before ++ [r]) ++ rest := by rw [hr, List.append_assoc]; rfl
      have htest : r.link.children[0]? = some r.test := by rw [hchildren]; rfl
      have hidle : v'.env.temps[r.link.id]? = none := by
        rw [← hfresh.link List.mem_cons_self]
        exact hv.env.payloads.there (hL.link_apart hmem).1
      rw [hbehavior]
      change L.both.Beside _ _ _ ((Engine.ofDepth d').ifElse r.link.toSite L.both.there v')
      rw [List.map_cons, Engine.tryCases_eq _ hcase hpair, Engine.ifElse_fresh hidle htest]
      refine (hL.calls he hmem (.inl rfl) hv).bind (fun _ _ hu => hu) ?_
      rintro a _ u u' ⟨rfl, hrunning, hended⟩
      cases a with
      | running =>
        obtain ⟨above, habove, hu⟩ := hrunning rfl
        exact hL.parks hr hrest false habove hu
      | success =>
        have hs : Status.success ≠ .running := by simp
        have hgoes := hL.branches he hr hrest hs (hended hs) (ih hsnoc hspare hrest (hended hs))
        rw [hpair] at hgoes
        exact hgoes
      | failure =>
        have hs : Status.failure ≠ .running := by simp
        exact hL.branches he hr hrest hs (hended hs) (ih hsnoc hspare hrest (hended hs))

end Built

end Ladder

end BehaviorTree
