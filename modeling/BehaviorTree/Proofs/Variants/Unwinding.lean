import Mathlib.Data.List.Induction
import BehaviorTree.Proofs.Variants.Cascade

/-!
Whole ticks of a switch and of the chain in its place, fresh or resumed. What a tick has left is resumed from the top:
nodes that the two have in common first, and then the switch in one of them and the link of the same case in the other.
Once these have ended, the links that had passed the case on end as well, one after the other.
-/

namespace BehaviorTree
set_option autoImplicit false

open TickM

variable {σ : Type}

namespace Variants

variable (V : Variants)

def Lands (a b : Status) (t t' : Tick σ) : Prop :=
  a = b ∧ V.Alike t t' ∧ ((t.world.instanceOf V.owner).interrupted = false → V.Rests t.env t'.env)

variable {V} {G : Ground} {above base base' : List NodeId} {t t' u u' : Tick σ}

theorem Ticks.lands (ht : V.Ticks G (above ++ base) (above ++ base') t t')
    (habove : ∀ x ∈ above, V.shared x ∧ V.tree.Region V.tree.root x) (hstands : V.stands G base base') (status : Status) :
    V.Lands status status t t' := ⟨rfl, ht.alike, fun _ => ⟨G, above, base, base', habove, hstands, ht.env⟩⟩

theorem Comes.lands {Q : Status → Tick σ → Tick σ → Prop} {a b : Status} {d d' : Nat} {id id' : NodeId}
    (h : V.Comes Q a b u u') (ha : (Engine.ofDepth d).run id V.here t = .ok a u)
    (hb : (Engine.ofDepth d').run id' V.there t' = .ok b u')
    (hQ : (u.world.instanceOf V.owner).interrupted = false → Q a u u' → V.Alike u u' ∧ V.Rests u.env u'.env) :
    V.Lands a b u u' := by
  cases hflag : (u.world.instanceOf V.owner).interrupted with
  | true =>
    have hflag' := (h.worlds.interrupted V.owner).trans hflag
    refine ⟨((Engine.run_ends ha).1 hflag).trans ((Engine.run_ends hb).1 hflag').symm, h.stopped hflag, fun hnot => ?_⟩
    rw [hflag] at hnot
    cases hnot
  | false =>
    obtain ⟨hab, hq⟩ := h.settled hflag
    exact ⟨hab, (hQ hflag hq).1, fun _ => (hQ hflag hq).2⟩

theorem Beside.returns {m m' : TickM σ Status} (h : V.Beside V.Lands V.Alike (m V.here t) (m' V.there t'))
    (hm : m.Restores) (hm' : m'.Restores) (hs : t.env.SameSlots t'.env) :
    V.Beside V.Returns V.Drops (m V.here t) (m' V.there t') := by
  have hput := hm V.here t
  have hput' := hm' V.there t'
  generalize m V.here t = o, m' V.there t' = o' at h hput hput'
  have hsame : ∀ u u' : Tick σ, t.env.SameSlots u.env → t'.env.SameSlots u'.env → V.Alike u u' →
      ∃ stack temps, u'.env = { u.env with stack, temps } := by
    rintro u u' hu hu' ⟨-, stack, temps, input, output, henv⟩
    refine ⟨stack, temps, ?_⟩
    have hin : u'.env.input = u.env.input := hu'.input.trans (hs.input.trans hu.input.symm)
    have hout : u'.env.output = u.env.output := hu'.output.trans (hs.output.trans hu.output.symm)
    rw [henv] at hin hout ⊢
    obtain rfl : input = u.env.input := hin
    obtain rfl : output = u.env.output := hout
    rfl
  cases o <;> cases o'
  case ok.ok a u b u' =>
    obtain ⟨rfl, halike, hrests⟩ := h
    exact ⟨rfl, halike.1, hsame u u' hput hput' halike, hrests⟩
  case failed.failed r u r' u' => exact ⟨h.1, hsame u u' hput hput' h⟩
  all_goals exact h

end Variants

namespace Ladder

variable {L : Ladder} {G G' : Ground} {before passed rest rungs : List Rung} {r : Rung} {acting : Bool} {d d' : Nat}
  {above left left' : List NodeId} {t t' : Tick σ} {status : Status}

namespace Built

variable (hL : L.Built)
include hL

theorem stands_held (hr : L.rungs = before ++ rungs) (hbefore : ∀ b ∈ before, G.there[b.link.id]? = some (.step 2))
    (h : L.Held before.length rungs G (links before) G' left left') :
    ∃ above base base', (∀ x ∈ above, L.shared x ∧ L.tree.Region L.tree.root x) ∧ L.Stands G' base base' ∧
      left = above ++ base ∧ left' = above ++ base' := by
  obtain ⟨above, passed, r, rest, acting, rfl, hpaused, hframe, habove, rfl, rfl⟩ := h
  refine ⟨above, _, _, habove, .paused (by rw [hr, List.append_assoc]) (hpaused.append fun b hb => ?_), rfl, ?_⟩
  · rw [hframe _ fun hx => ?_, hbefore b hb]
    obtain ⟨c, hc, hid⟩ := mem_links.mp hx
    exact hL.links_apart hr hb hc hid.symm
  · rw [List.append_assoc before, links_append before]

theorem switch_quiet (v : Tick σ) (values : List (Option Value))
    (h : L.switch.behavior.Pushes L.switch.toSite v values) : values = [] := by
  rw [hL.behavior] at h
  exact h

omit hL in
theorem held_switch {case : Nat} {base : List NodeId} (h : L.Held case rungs G base G' left left') :
    G'.here[L.switch.id]? ≠ none := by
  obtain ⟨above, passed, r, rest, acting, -, hpaused, -⟩ := h
  rw [hpaused.switch]
  exact Option.some_ne_none _

theorem starts_alike (hshares : ∀ c, L.both.Depths d c → L.both.Shares (σ := σ) (Engine.ofDepth d) (Engine.ofDepth c))
    (hd : L.both.Depths (d + 1) (d' + 1)) (hidle : G.here[L.switch.id]? = none) (hfresh : L.Fresh L.rungs G)
    (ht : L.both.Ticks G [] [] t t') :
    L.both.Beside L.both.Lands L.both.Alike ((Engine.ofDepth (d + 1)).run L.tree.root L.both.here t)
      ((Engine.ofDepth (d' + 1)).run L.tree'.root L.both.there t') := by
  rw [hL.root, hL.root']
  have hspare : L.Spare (L.rungs.length + 1) d (d' + 1) := ⟨hd.early, hd.late⟩
  refine (Variants.Beside.startHere (P := L.Held 0 L.rungs G []) hL.switch_apart hL.switch_quiet hL.switch hidle
    held_switch ht fun v hv => ?_).mono ?_ fun _ _ hu => hu
  · have hnone : v.env.temps[L.switch.id]? = none := by
      rw [← hidle]
      exact hv.env.payloads.here hL.switch_apart
    rw [hL.behavior]
    change L.both.Beside _ _ ((Engine.ofDepth d).switch L.switch.toSite L.both.here v) _
    rw [Engine.switch_fresh hnone]
    have htries := hL.tries hshares (List.nil_append L.rungs).symm hspare hfresh hv
    rw [← hL.children] at htries
    exact htries
  · intro a b u u' ha hb hu
    refine hu.lands ha hb fun hflag ⟨hrunning, hended⟩ => ?_
    by_cases hs : a = .running
    · obtain ⟨G', left, left', hheld, hv⟩ := hrunning hs
      obtain ⟨above, base, base', habove, hstands, rfl, rfl⟩ :=
        hL.stands_held (List.nil_append L.rungs).symm (List.forall_mem_nil _) hheld
      exact ⟨hv.alike, G', above, base, base', habove, hstands, hv.env⟩
    · have hv := hended hs
      exact ⟨hv.alike, G, [], [], [], List.forall_mem_nil _, .idle hidle hfresh, hv.env⟩

theorem goes_on (hshares : ∀ c, L.both.Depths d c → L.both.Shares (σ := σ) (Engine.ofDepth d) (Engine.ofDepth c))
    (hr : L.rungs = passed ++ r :: rest) (hpaused : L.Paused 0 passed r rest acting G) (hd : L.Spare (rest.length + 1) d d')
    (hless : L.early ∨ d' ≤ d) (ht : L.both.Ticks G [L.switch.id] (r.link.id :: links passed) t t') :
    L.both.Beside (L.both.Comes fun status u u' =>
        L.both.Stopped (L.Held passed.length (r :: rest) G (links passed)) G [L.switch.id] (r.link.id :: links passed) status
          (u.told status) (u'.told status)) L.both.Alike
      ((Engine.ofDepth d).switch L.switch.toSite L.both.here t) ((Engine.ofDepth d').ifElse r.link.toSite L.both.there t') := by
  have hmem := rung_mem hr
  have hsaved : t.env.temps[L.switch.id]? = some (.step (Engine.phaseOf passed.length acting)) := by
    rw [← Nat.zero_add passed.length, ← hpaused.switch]
    exact ht.env.payloads.here hL.switch_apart
  have hsaved' : t'.env.temps[r.link.id]? = some (.step (Engine.stageOf acting)) := by
    rw [← hpaused.link]
    exact ht.env.payloads.there (hL.link_apart hmem).1
  have hchild : L.switch.children[passed.length]? = some r.case.id := by
    rw [hL.children, hr]
    simp
  have hdrop : L.switch.children.drop (passed.length + 1) = rest.map (·.case.id) := by
    rw [hL.children, hr, List.map_append, List.map_cons, ← List.singleton_append, ← List.append_assoc]
    exact List.drop_left' (by simp)
  rw [Engine.switch_resumed acting hsaved (hL.case hmem).1 hchild, Engine.ifElse_resumed acting hsaved']
  by_cases hlast : t.env.lastStatus = .running
  · have hlast' := ht.env.lastStatus.trans hlast
    cases acting <;> simp only [Bool.false_eq_true, if_false, if_true, TickM.bind_apply, Engine.childStatus_running hlast,
      Engine.childStatus_running hlast'] <;> exact ht.alike
  · have hended : childStatus L.switch.toSite L.both.here t = .ok t.env.lastStatus t := Engine.childStatus_ended rfl hlast
    have hended' : childStatus r.link.toSite L.both.there t' = .ok t.env.lastStatus t' :=
      Engine.childStatus_ended ht.env.lastStatus hlast
    cases acting with
    | true =>
      rw [if_pos rfl, if_pos rfl, hended, hended']
      exact ⟨ht.world, fun _ => ht.alike, fun _ => ⟨rfl, fun h => absurd h hlast, fun _ => ht.told _⟩⟩
    | false =>
      have hsnoc : L.rungs = (passed ++ [r]) ++ rest := by rw [hr, List.append_assoc]; rfl
      rw [if_neg Bool.false_ne_true, if_neg Bool.false_ne_true, bind_ends, bind_ends, hended, hended', hdrop]
      exact hL.branches (hshares d' (hd.depths hless)) hr hpaused.fresh hlast ht
        (hL.tries hshares hsnoc hd hpaused.fresh ht)

/-- The condition or the action of a case has ended above the switch in the one and the link of the case in the other. -/
theorem resumes_top (hshares : ∀ c c', c ≤ d → L.both.Depths c c' → L.both.Shares (σ := σ) (Engine.ofDepth c) (Engine.ofDepth c'))
    (hr : L.rungs = passed ++ r :: rest) (hpaused : L.Paused 0 passed r rest acting G) (hd : L.both.Depths (d + 1) (d' + 1))
    (ht : L.both.Ticks G [L.switch.id] (r.link.id :: links passed) t t') :
    L.both.Beside (L.both.Comes fun status u u' =>
        L.both.Stopped (L.Held passed.length (r :: rest) G (links passed)) ⟨G.here.erase L.switch.id, G.there.erase r.link.id⟩ []
          (links passed) status u u') L.both.Alike
      ((Engine.ofDepth d).run L.switch.id L.both.here t) ((Engine.ofDepth d').run r.link.id L.both.there t') := by
  have hmem := rung_mem hr
  have hcount : L.rungs.length = passed.length + (rest.length + 1) := by rw [hr, List.length_append, List.length_cons]
  have hlate : L.late ∨ (L.rungs.length + 1) * d + (L.rungs.length + 1) ≤ d' + 1 := hd.late
  cases d with
  | zero =>
    cases d' with
    | zero => trivial
    | succ d' => exact .early (hd.early.resolve_right (by omega))
  | succ d =>
    cases d' with
    | zero => exact .late (hlate.resolve_right (by omega))
    | succ d' =>
      have hless : L.early ∨ d' ≤ d := hd.early.imp_right fun h => by omega
      -- One call of the switch makes up for a call of every link, so what is left is enough for the links to come.
      have hspare : L.Spare (rest.length + 1) d d' := by
        refine ⟨hless.imp_right Nat.le_succ_of_le, hlate.imp_right fun h => ?_⟩
        rw [Nat.mul_succ] at h
        omega
      obtain ⟨hlink, hbehavior, hchildren⟩ := hL.link hr
      have hgoes : ∀ v, L.both.Ticks G [L.switch.id] (r.link.id :: links passed) v t' →
          L.both.Beside (L.both.Comes fun status u u' =>
              L.both.Stopped (L.Held passed.length (r :: rest) G (links passed)) ⟨G.here, G.there.erase r.link.id⟩
                [L.switch.id] (links passed) status (u.told status) u') L.both.Alike
            ((Engine.ofDepth d).behave L.switch.toSite L.switch.behavior L.both.here v)
            ((Engine.ofDepth (d' + 1)).run r.link.id L.both.there t') := by
        intro v hv
        refine .runThere (hL.link_apart hmem).1 (hL.link_quiet hr) hlink (by rw [hpaused.link]; rfl) (fun h => held_link h) hv
          fun v' hv => ?_
        rw [hL.behavior, hbehavior]
        exact hL.goes_on (fun c hc => hshares d c (Nat.le_succ d) hc) hr hpaused hspare hless hv
      have hends := Variants.Beside.runHere (P := L.Held passed.length (r :: rest) G (links passed)) hL.switch_apart
        hL.switch_quiet hL.switch (by rw [hpaused.switch]; rfl) held_switch ht hgoes
      exact hends

/-- Below a link that has ended the others end as well, one after the other. -/
theorem unwinds (hs : status ≠ .running) (hr : L.rungs = passed ++ rest)
    (hpassed : ∀ b ∈ passed, G.there[b.link.id]? = some (.step 2)) (hfresh : L.Fresh rest G)
    (hidle : G.here[L.switch.id]? = none) (hd : L.late ∨ passed.length < d') (hlast : t.env.lastStatus = status)
    (hflag : (t.world.instanceOf L.owner).interrupted = false) (ht : L.both.Ticks G [] (links passed) t t') :
    L.both.Beside L.both.Lands L.both.Alike (.ok status t) ((Engine.ofDepth d').resume 0 L.both.there t') := by
  have htold : t.told status = t := by
    rw [← hlast]
    rfl
  -- The link on top is the last one that passed the case on, so the induction takes links off the end.
  induction passed using List.reverseRecOn generalizing rest G d' t' with
  | nil =>
    cases d' with
    | zero => exact .late (hd.resolve_right (Nat.not_lt_zero _))
    | succ d' =>
      have hempty : t'.env.stack = ⟨[]⟩ := ht.env.stack'
      change L.both.Beside _ _ _ ((Engine.ofDepth d').resumeAbove 0 L.both.there t')
      rw [Engine.resumeAbove_of_le (by rw [hempty]; exact Nat.le_refl _), ht.env.lastStatus, hlast]
      exact ht.lands (List.forall_mem_nil _) (Stands.idle hidle (hr ▸ hfresh)) status
  | append_singleton passed b ih =>
    have hsplit : L.rungs = passed ++ b :: rest := by rw [hr, List.append_assoc]; rfl
    have hmem := rung_mem hsplit
    rw [List.length_append, List.length_singleton] at hd
    rw [links_snoc] at ht
    cases d' with
    | zero => exact .late (hd.resolve_right (Nat.not_lt_zero _))
    | succ d' =>
      have hstack : t'.env.stack = ⟨b.link.id :: links passed⟩ := ht.env.stack'
      change L.both.Beside _ _ _ ((Engine.ofDepth d').resumeAbove 0 L.both.there t')
      rw [Engine.resumeAbove_of_lt (congrArg Stack.frames hstack) (Nat.zero_le _), TickM.bind_apply]
      cases d' with
      | zero => exact .late (hd.resolve_right (by omega))
      | succ d' =>
        have hsaved := hpassed b (List.mem_append_right _ List.mem_cons_self)
        obtain ⟨hlink, hbehavior, -⟩ := hL.link hsplit
        have hrun : L.both.Beside (L.both.Comes fun status u u' =>
              L.both.Stopped (fun _ _ _ => False) ⟨G.here, G.there.erase b.link.id⟩ [] (links passed) status (u.told status) u')
            L.both.Alike (.ok status t) ((Engine.ofDepth (d' + 1)).run b.link.id L.both.there t') := by
          refine .runThere (hL.link_apart hmem).1 (hL.link_quiet hsplit) hlink (by rw [hsaved]; rfl) False.elim ht
            fun v' hv => ?_
          have hpayload : v'.env.temps[b.link.id]? = some (.step 2) := by
            rw [← hsaved]
            exact hv.env.payloads.there (hL.link_apart hmem).1
          rw [hbehavior]
          change L.both.Beside _ _ _ ((Engine.ofDepth d').ifElse b.link.toSite L.both.there v')
          rw [Engine.ifElse_passes hpayload, Engine.childStatus_ended (hv.env.lastStatus.trans hlast) hs]
          exact ⟨hv.world, fun _ => hv.alike, fun _ => ⟨rfl, fun h => absurd h hs, fun _ => hv.told status⟩⟩
        generalize (Engine.ofDepth (d' + 1)).run b.link.id L.both.there t' = o' at hrun
        cases o' with
        | halted _ => exact .late hrun
        | failed _ _ => exact hrun.elim
        | ok s u' =>
          obtain ⟨rfl, -, hended⟩ := hrun.settled hflag
          have hu := hended hs
          rw [htold] at hu
          have hkept : ∀ c ∈ passed, (G.there.erase b.link.id)[c.link.id]? = some (.step 2) := fun c hc => by
            rw [Temps.get_erase, if_neg (hL.links_apart hsplit hc List.mem_cons_self).symm, hpassed c (List.mem_append_left _ hc)]
          have hnext := ih hsplit hkept (hfresh.erase b G.here) (G := ⟨G.here, G.there.erase b.link.id⟩) hidle (hd.imp_right Nat.lt_of_succ_lt_succ) hu
          cases status with
          | running => exact absurd rfl hs
          | success => exact hnext
          | failure => exact hnext

/-- What the two have in common is all resumed. The switch and the link of its case are next. -/
theorem resumes_base (hshares : ∀ c c', c ≤ d → L.both.Depths c c' → L.both.Shares (σ := σ) (Engine.ofDepth c) (Engine.ofDepth c'))
    (hd : L.both.Depths (d + 1) (d' + 1)) {base base' : List NodeId} (hstands : L.Stands G base base')
    (ht : L.both.Ticks G base base' t t') :
    L.both.Beside L.both.Lands L.both.Alike ((Engine.ofDepth d).resumeAbove 0 L.both.here t)
      ((Engine.ofDepth d').resumeAbove 0 L.both.there t') := by
  cases hstands with
  | idle hidle hfresh =>
    have hempty : t.env.stack = ⟨[]⟩ := ht.env.stack
    have hempty' : t'.env.stack = ⟨[]⟩ := ht.env.stack'
    rw [Engine.resumeAbove_of_le (by rw [hempty]; exact Nat.le_refl _),
      Engine.resumeAbove_of_le (by rw [hempty']; exact Nat.le_refl _), ht.env.lastStatus]
    exact ht.lands (List.forall_mem_nil _) (Stands.idle hidle hfresh) _
  | @paused passed rest r acting hr hpaused =>
    rw [links_snoc] at ht
    have hstack : t.env.stack = ⟨L.switch.id :: []⟩ := ht.env.stack
    have hstack' : t'.env.stack = ⟨r.link.id :: links passed⟩ := ht.env.stack'
    have hbefore : ∀ b ∈ passed, G.there[b.link.id]? = some (.step 2) := fun _ hb => hpaused.passed hb
    rw [Engine.resumeAbove_of_lt (congrArg Stack.frames hstack) (Nat.zero_le _),
      Engine.resumeAbove_of_lt (congrArg Stack.frames hstack') (Nat.zero_le _), bind_ends, bind_ends]
    refine ((hL.resumes_top hshares hr hpaused hd ht).mono (fun a b u u' ha hb hu => And.intro hu (And.intro ha hb))
      fun _ _ hu => hu).ends ?_ fun _ _ _ _ hu => hu
    rintro a b u u' ⟨hu, ha, hb⟩
    have hlands : a = .running → L.both.Lands a b u u' := fun hrun => hu.lands ha hb fun _ ⟨hrunning, _⟩ => by
      obtain ⟨G', left, left', hheld, hv⟩ := hrunning hrun
      obtain ⟨above, base, base', habove, hstands, rfl, rfl⟩ := hL.stands_held hr hbefore hheld
      exact ⟨hv.alike, G', above, base, base', habove, hstands, hv.env⟩
    -- The switch was the only frame of its tree, but the links that passed the case on are still to be resumed.
    have hended : a ≠ .running → a = b ∧ L.both.Beside L.both.Lands L.both.Alike ((Engine.ofDepth d).resume 0 L.both.here u)
        ((Engine.ofDepth d').resume 0 L.both.there u') := by
      intro hs
      have hflag : (u.world.instanceOf L.owner).interrupted = false :=
        Bool.eq_false_iff.mpr fun hflag => hs ((Engine.run_ends ha).1 hflag)
      obtain ⟨hab, -, hended⟩ := hu.settled hflag
      have hlast : u.env.lastStatus = a := (Engine.run_ends ha).2 hflag
      have hv := hended hs
      have hempty : u.env.stack = ⟨[]⟩ := hv.env.stack
      cases d with
      | zero => cases ha
      | succ d =>
        have hrest : (Engine.ofDepth (d + 1)).resume 0 L.both.here u = .ok a u := by
          rw [← hlast]
          exact Engine.resumeAbove_of_le (by rw [hempty]; exact Nat.le_refl _)
        have hspare : L.late ∨ passed.length < d' := by
          have hlate : L.late ∨ (L.rungs.length + 1) * (d + 1) + (L.rungs.length + 1) ≤ d' + 1 := hd.late
          refine hlate.imp_right fun h => ?_
          rw [Nat.mul_succ, hr, List.length_append] at h
          omega
        rw [hrest]
        refine ⟨hab, hL.unwinds hs hr (fun b hb => ?_) (hpaused.fresh.erase r _) ?_ hspare hlast hflag hv⟩
        · exact (Temps.get_erase _ _ _).trans ((if_neg (hL.links_apart hr hb List.mem_cons_self).symm).trans (hbefore b hb))
        · exact (Temps.get_erase _ _ _).trans (if_pos rfl)
    cases a with
    | running =>
      obtain ⟨rfl, hrests⟩ := hlands rfl
      exact ⟨rfl, hrests⟩
    | success =>
      obtain ⟨rfl, hnext⟩ := hended (by simp)
      exact hnext
    | failure =>
      obtain ⟨rfl, hnext⟩ := hended (by simp)
      exact hnext

/-- What a tick has left is resumed from the top. -/
theorem resumes (hshares : ∀ c c', c < d → L.both.Depths c c' → L.both.Shares (σ := σ) (Engine.ofDepth c) (Engine.ofDepth c'))
    (hd : L.both.Depths d d') {base base' : List NodeId} (habove : ∀ x ∈ above, L.shared x ∧ L.tree.Region L.tree.root x)
    (hstands : L.Stands G base base') (ht : L.both.Ticks G (above ++ base) (above ++ base') t t') :
    L.both.Beside L.both.Lands L.both.Alike ((Engine.ofDepth d).resume 0 L.both.here t)
      ((Engine.ofDepth d').resume 0 L.both.there t') := by
  -- Each frame that is taken off costs both of them a call.
  induction d generalizing d' above t t' with
  | zero =>
    cases d' with
    | zero => trivial
    | succ d' => exact .early (hd.early.resolve_right (Nat.not_succ_le_zero _))
  | succ d ih =>
    cases d' with
    | zero =>
      have hlate : L.late ∨ (L.rungs.length + 1) * d + (L.rungs.length + 1) ≤ 0 := hd.late
      exact .late (hlate.resolve_right (by omega))
    | succ d' =>
      have hpred := hd.pred hL.fits.factor
      have hless : ∀ c c', c ≤ d → L.both.Depths c c' →
          L.both.Shares (σ := σ) (Engine.ofDepth c) (Engine.ofDepth c') := fun c c' hc => hshares c c' (Nat.lt_succ_of_le hc)
      change L.both.Beside _ _ ((Engine.ofDepth d).resumeAbove 0 L.both.here t)
        ((Engine.ofDepth d').resumeAbove 0 L.both.there t')
      cases above with
      | nil => exact hL.resumes_base hless hd hstands ht
      | cons top rest =>
        obtain ⟨⟨htop, hregion⟩, hrest⟩ := List.forall_mem_cons.mp habove
        have hstack : t.env.stack = ⟨top :: (rest ++ base)⟩ := ht.env.stack
        have hstack' : t'.env.stack = ⟨top :: (rest ++ base')⟩ := ht.env.stack'
        rw [Engine.resumeAbove_of_lt (congrArg Stack.frames hstack) (Nat.zero_le _),
          Engine.resumeAbove_of_lt (congrArg Stack.frames hstack') (Nat.zero_le _)]
        have hl : L.both.Level top (top :: (rest ++ base)) (top :: (rest ++ base')) := .push hL.fits top _ _
        refine ((hless d d' (Nat.le_refl d) hpred).run htop hl t t' ht).bind (fun _ _ ⟨_, _, hu⟩ => hu.alike) ?_
        rintro status _ u u' ⟨rfl, left, left', hends, hu⟩
        have hnext : status ≠ .running → L.both.Beside L.both.Lands L.both.Alike
            ((Engine.ofDepth d).resume 0 L.both.here u) ((Engine.ofDepth d').resume 0 L.both.there u') := by
          intro hs
          have hgo : ∀ left : List NodeId, (∀ x ∈ left, L.shared x ∧ L.tree.Region L.tree.root x) →
              L.both.Ticks G (left ++ base) (left ++ base') u u' → L.both.Beside L.both.Lands L.both.Alike
                ((Engine.ofDepth d).resume 0 L.both.here u) ((Engine.ofDepth d').resume 0 L.both.there u') :=
            fun left hleft hu => ih (fun c c' hc => hless c c' (Nat.le_of_lt hc)) hpred hleft hu
          rcases hends.2 hs with ⟨rfl, rfl⟩ | ⟨hleft, hleft'⟩
          · exact hgo (top :: rest) habove hu
          · obtain ⟨-, rfl⟩ := List.cons.inj hleft
            obtain ⟨-, rfl⟩ := List.cons.inj hleft'
            exact hgo rest hrest hu
        cases status with
        | running =>
          obtain ⟨more, hmore, rfl, rfl⟩ := hends.1 rfl
          have hkept : ∀ x ∈ more ++ top :: rest, L.shared x ∧ L.tree.Region L.tree.root x := fun x hx => by
            rcases List.mem_append.mp hx with hx | hx
            · exact ⟨hL.fits.region (hmore x hx) htop, hregion.trans (hmore x hx)⟩
            · exact habove x hx
          have hv : L.both.Ticks G ((more ++ top :: rest) ++ base) ((more ++ top :: rest) ++ base') u u' := by
            rw [List.append_assoc, List.append_assoc]
            exact hu
          exact hv.lands hkept hstands _
        | success => exact hnext (by simp)
        | failure => exact hnext (by simp)

/-- Ticks of the switch and of the chain end alike. -/
theorem ticking (hshares : ∀ c c', c ≤ d → L.both.Depths c c' → L.both.Shares (σ := σ) (Engine.ofDepth c) (Engine.ofDepth c'))
    (hd : L.both.Depths (d + 1) (d' + 1)) :
    L.both.Ticking (σ := σ) (Engine.ofDepth (d + 1)) (Engine.ofDepth (d' + 1)) := by
  rintro t t' ⟨⟨G, above, base, base', habove, hstands, henv⟩, hslots, hw⟩
  have hrestoring : ∀ d : Nat, (Engine.ofDepth d : Engine σ).Restoring := Engine.restoring_ofDepth
  refine ⟨fun hempty => ?_, fun _ => ?_⟩
  · rw [henv.stack] at hempty
    obtain ⟨rfl, rfl⟩ : above = [] ∧ base = [] := List.append_eq_nil_iff.mp (List.isEmpty_iff.mp hempty)
    cases hstands with
    | idle hidle hfresh =>
      exact (hL.starts_alike (fun c hc => hshares d c (Nat.le_refl d) hc) hd hidle hfresh ⟨henv, hw⟩).returns
        ((hrestoring _).run _) ((hrestoring _).run _) hslots
  · exact (hL.resumes (fun c c' hc => hshares c c' (Nat.le_of_lt_succ hc)) hd habove hstands ⟨henv, hw⟩).returns
      ((hrestoring _).resume _) ((hrestoring _).resume _) hslots

theorem engines (hd : L.both.Depths d d') : L.both.Engines (σ := σ) (Engine.ofDepth d) (Engine.ofDepth d') :=
  Variants.engines_ofDepth hL.fits (fun _ _ hd hshares => hL.ticking hshares hd) hd

end Built

end Ladder

end BehaviorTree
