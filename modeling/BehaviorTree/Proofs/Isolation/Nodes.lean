import BehaviorTree.Proofs.Isolation.Twin
import BehaviorTree.Proofs.Steps.Nodes

/-!
Nodes of one part of a tree, run by itself and inside a larger tree. Whatever a node does, the two runs stay alike, as
long as the calls that it makes of other nodes keep them so; so they stay alike at any depth of calls.
-/

namespace BehaviorTree
set_option autoImplicit false

open Twin

variable {σ : Type} {T : Twin σ} {P : Slots → Slots → Prop} {e e' : Engine σ} {n : Node} {t t' : Tick σ}

/-- Calls of nodes of a part keep the two runs alike. -/
structure Engine.Paired (T : Twin σ) (e e' : Engine σ) : Prop where
  fits : T.Fits
  run {P : Slots → Slots → Prop} {id : NodeId} {t t' : Tick σ} : T.nodes id → T.Ready P t t' →
    T.Agree (T.Done P) (e.run id) (e'.run id) t t'
  /-- If no frame is above the level, the last status is the result. -/
  resume {P : Slots → Slots → Prop} {l l' : Nat} {t t' : Tick σ} : T.Levels l l' → T.Ready P t t' →
    (t.env.lastStatus = t'.env.lastStatus ∨ l < t.env.stack.size) →
    T.Agree (T.Done P) (e.resume l) (e'.resume l') t t'

/-- The child of a node has run, and the frames that it leaves are cut off. -/
structure Twin.Left (T : Twin σ) (P : Slots → Slots → Prop) (r : Status × Stack) (t t' : Tick σ) : Prop
    extends T.Done P r.1 t t' where
  frames {x : NodeId} : x ∈ r.2.frames → T.nodes x

namespace Twin

section Acting

variable (hn : T.Has n)
include hn

theorem agree_evaluate (h : T.Ready P t t') {expr : Expression}
    (hb : n.behavior = .check expr ∨ n.behavior = .calculate expr) :
    T.Agree (fun _ => T.Ready P) (Engine.evaluate n.toSite expr) (Engine.evaluate n.toSite expr) t t' := by
  have hsame : expr.evaluate t'.env.get? = expr.evaluate t.env.get? :=
    Expression.evaluate_congr fun name hr => h.get? hn (.inr ⟨expr, hb, hr⟩)
  refine Agree.env ?_
  rw [hsame]
  cases expr.evaluate t.env.get? with
  | ok v => exact Agree.pure h
  | error error => exact Agree.report (Agree.pure (h.report _ _))

theorem agree_check (h : T.Ready P t t') {expr : Expression} (hb : n.behavior = .check expr) :
    T.Agree (fun _ => T.Near P) (Engine.check n.toSite expr) (Engine.check n.toSite expr) t t' := by
  refine (agree_evaluate hn h (.inl hb)).bind fun v u u' hu => ?_
  cases v with
  | some v => exact Agree.pure hu.toNear
  | none => exact Agree.pure hu.toNear

omit hn in
theorem Near.pushOutput (h : T.Near Eq t t') (value : Option Value) :
    T.Near Eq { t with env := t.env.pushOutput value } { t' with env := t'.env.pushOutput value } := by
  refine { h with slots := ?_ }
  have hslots := Prod.mk.inj h.slots
  exact Prod.ext hslots.1 (congrArg (· ++ [value]) hslots.2)

theorem agree_calculate (h : T.Ready Eq t t') {expr : Expression} (hb : n.behavior = .calculate expr) :
    T.Agree (fun _ => T.Near Eq) (Engine.calculate n.toSite expr) (Engine.calculate n.toSite expr) t t' := by
  refine (agree_evaluate hn h (.inr hb)).bind fun v u u' hu => ?_
  cases v with
  | some v => exact Agree.modifyEnv (Agree.pure (hu.toNear.pushOutput _))
  | none => exact Agree.pure hu.toNear

omit hn in
theorem Near.input?_eq (h : T.Near Eq t t') (slot : Nat) : t'.env.input? slot = t.env.input? slot := by
  rw [Env.input?, Env.input?, (Prod.mk.inj h.slots).1]

omit hn in
theorem agree_copy (h : T.Near Eq t t') (site : Site) :
    T.Agree (fun _ => T.Near Eq) (Engine.copy site) (Engine.copy site) t t' := by
  refine Agree.env (Agree.modifyEnv (Agree.pure ?_))
  rw [h.input?_eq]
  exact h.pushOutput _

omit hn in
theorem agree_inputIsNull (h : T.Near Eq t t') :
    T.Agree (fun _ => T.Near Eq) Engine.inputIsNull Engine.inputIsNull t t' := by
  refine Agree.env ?_
  rw [h.input?_eq]
  split <;> exact Agree.pure h

omit hn in
theorem agree_log (h : T.Near Eq t t') (site : Site) (level : Level) (text : String) :
    T.Agree (fun _ => T.Near Eq) (Engine.log site level text) (Engine.log site level text) t t' := by
  refine Agree.env ?_
  rw [h.input?_eq]
  exact Agree.report (Agree.pure (h.report _ _))

omit hn in
theorem agree_now (hT : T.Fits) (h : T.Near Eq t t') : T.Agree (fun _ => T.Near Eq) Engine.now Engine.now t t' := by
  refine Agree.time ?_
  rw [h.time hT]
  exact Agree.modifyEnv (Agree.pure (h.pushOutput _))

theorem agree_waitUntil (hT : T.Fits) (h : T.Near P t t') (expiry : Float) :
    T.Agree (fun _ => T.Near P) (Engine.waitUntil n.toSite expiry) (Engine.waitUntil n.toSite expiry) t t' := by
  refine Agree.time ?_
  rw [h.time hT]
  split
  · exact Agree.pure h
  · exact Agree.suspendFlat h hn rfl

theorem agree_wait (hT : T.Fits) (h : T.Near Eq t t') (own : Float) :
    T.Agree (fun _ => T.Near Eq) (Engine.wait n.toSite own) (Engine.wait n.toSite own) t t' := by
  refine Agree.saved? ?_
  rw [h.payload hn]
  split
  · exact agree_waitUntil hn hT h _
  · exact Agree.rejectPayload
  · refine Agree.env ?_
    rw [h.input?_eq]
    split
    · refine Agree.time ?_
      rw [h.time hT]
      exact agree_waitUntil hn hT h _
    · split
      · refine Agree.time ?_
        rw [h.time hT]
        exact agree_waitUntil hn hT h _
      · exact Agree.report (Agree.pure (h.report _ _))

theorem agree_settle (h : T.Near P t t') (ending : Ending) :
    T.Agree (fun _ => T.Near P) (Engine.settle n.toSite ending) (Engine.settle n.toSite ending) t t' := by
  rw [Engine.settle.eq_def]
  split
  · exact Agree.pure h
  · exact Agree.suspendFlat h hn rfl
  · exact Agree.suspendFlat h hn rfl
  · exact Agree.rejectPayload

theorem agree_leaf (h : T.Near P t t') (label : Value) (ticks : Nat) (result : Status) :
    T.Agree (fun _ => T.Near P) (Engine.leaf n.toSite (Workbench.stepLeaf label ticks result))
      (Engine.leaf n.toSite (Workbench.stepLeaf label ticks result)) t t' := by
  refine Agree.env (Agree.time (Agree.modifyEnv (Agree.modifyEnv ?_)))
  have hnear : T.Near P
      { t with env := t.env.set "trace" (some (Workbench.extendTrace t.env.vars["trace"]? label)) }
      { t' with env := t'.env.set "trace" (some (Workbench.extendTrace t'.env.vars["trace"]? label)) } :=
    { h with vars := h.vars.extend label }
  have hending : (Workbench.stepLeaf label ticks result
      ⟨t'.env.vars, t'.env.temps[n.id]?, t'.env.input, t'.world.time⟩).ending =
      (Workbench.stepLeaf label ticks result ⟨t.env.vars, t.env.temps[n.id]?, t.env.input, t.world.time⟩).ending := by
    simp only [Workbench.stepLeaf, h.payload hn]
  change T.Agree _ (Engine.settle n.toSite _) (Engine.settle n.toSite _) _ _
  rw [hending]
  exact agree_settle hn hnear _

end Acting

end Twin

namespace Engine

namespace Paired

variable (he : e.Paired T e')
include he

section Frames

theorem resumeAbove {l l' : Nat} (hl : T.Levels l l') (h : T.Ready P t t')
    (hs : t.env.lastStatus = t'.env.lastStatus ∨ l < t.env.stack.size) :
    T.Agree (T.Done P) (e.resumeAbove l) (e'.resumeAbove l') t t' := by
  obtain ⟨above, ha, hframes, hframes'⟩ := h.stack
  obtain ⟨k, rfl, rfl⟩ := hl
  have hsize : t.env.stack.size = above.length + T.base.length := by rw [Stack.size, hframes, List.length_append]
  have hsize' : t'.env.stack.size = above.length + T.base'.length := by rw [Stack.size, hframes', List.length_append]
  by_cases hle : above.length ≤ k
  · -- no frame is above the level
    have heq := hs.resolve_right (by omega)
    unfold Twin.Agree
    rw [resumeAbove_of_le (by omega), resumeAbove_of_le (by omega)]
    exact ⟨heq, h.toNear, rfl, heq.symm⟩
  · obtain ⟨top, rest, rfl⟩ := List.exists_cons_of_length_pos (by omega : 0 < above.length)
    have htop : t.env.stack.top? = some top := by rw [Stack.top?, hframes]; rfl
    have htop' : t'.env.stack.top? = some top := by rw [Stack.top?, hframes']; rfl
    refine Agree.env ?_
    rw [htop, htop']
    simp only
    rw [if_neg (by omega), if_neg (by omega)]
    refine (he.run (ha top List.mem_cons_self) h).bind fun status u u' hu => ?_
    cases status with
    | running => exact Agree.pure hu
    | success => exact he.resume ⟨k, rfl, rfl⟩ hu.ready (.inl (hu.alone.trans hu.joined.symm))
    | failure => exact he.resume ⟨k, rfl, rfl⟩ hu.ready (.inl (hu.alone.trans hu.joined.symm))

omit he in
theorem capture {status : Status} {l l' : Nat} {u u' : Tick σ} (hl : T.Levels l l') (h : T.Done P status u u') :
    T.Agree (fun left => T.Left P (status, left)) (TickM.capture status l) (TickM.capture status l') u u' := by
  cases status with
  | running =>
    obtain ⟨heq, hnodes, hstack⟩ := h.stack.splitAt hl
    exact ⟨heq, ⟨h.toNear.setStack hstack, h.alone, h.joined⟩, fun hx => hnodes _ hx⟩
  | success => exact Agree.pure ⟨h, fun hx => by cases hx⟩
  | failure => exact Agree.pure ⟨h, fun hx => by cases hx⟩

theorem runCaptured {id : NodeId} (hid : T.nodes id) (h : T.Ready P t t') :
    T.Agree (T.Left P) (e.runCaptured id) (e'.runCaptured id) t t' := by
  refine Agree.env ((he.run hid h).bind fun status u u' hu => ?_)
  exact (capture h.stack.size hu).bind fun left v v' hv => Agree.pure hv

theorem resumeCaptured {saved : Stack} (h : T.Ready P t t') (hn : ∀ x ∈ saved.frames, T.nodes x)
    (hs : t.env.lastStatus = t'.env.lastStatus ∨ saved.frames ≠ []) :
    T.Agree (T.Left P) (e.resumeCaptured saved) (e'.resumeCaptured saved) t t' := by
  have hput := h.of_near (h.toNear.setStack (h.stack.append hn)) rfl rfl rfl
  refine Agree.env (Agree.modifyEnv ((he.resume h.stack.size hput ?_).bind fun status u u' hu => ?_))
  · refine hs.imp_right fun hne => ?_
    have hpos := List.length_pos_iff.mpr hne
    rw [Stack.size_append]
    exact Nat.lt_add_of_pos_right hpos
  · exact (capture h.stack.size hu).bind fun left v v' hv => Agree.pure hv

theorem stepBranch {id : NodeId} {saved : Option Stack} (hid : T.nodes id) (h : T.Ready P t t')
    (hn : ∀ s, saved = some s → ∀ x ∈ s.frames, T.nodes x)
    (hs : ∀ s, saved = some s → t.env.lastStatus = t'.env.lastStatus ∨ s.frames ≠ []) :
    T.Agree (T.Left P) (e.stepBranch id saved) (e'.stepBranch id saved) t t' := by
  cases saved with
  | none => exact he.runCaptured hid h
  | some saved => exact he.resumeCaptured h (hn saved rfl) (hs saved rfl)

end Frames

section Sequential

theorem chain (hn : T.Has n) (next : Status) {ids : List NodeId} (hids : ∀ id ∈ ids, T.nodes id) (i : Nat)
    (h : T.Ready P t t') :
    T.Agree (fun _ => T.Near P) (e.chain n.toSite next i ids) (e'.chain n.toSite next i ids) t t' := by
  induction ids generalizing i t t' with
  | nil => exact Agree.pure h.toNear
  | cons id ids ih =>
    obtain ⟨hid, hrest⟩ := List.forall_mem_cons.mp hids
    refine (he.run hid h).bind fun status u u' hu => ?_
    have hgo : T.Agree (fun _ => T.Near P)
        (if status = next then e.chain n.toSite next (i + 1) ids else return status)
        (if status = next then e'.chain n.toSite next (i + 1) ids else return status) u u' := by
      split
      · exact ih hrest (i + 1) hu.ready
      · exact Agree.pure hu.toNear
    cases status with
    | running => exact Agree.suspendFlat hu.toNear hn rfl
    | success => exact hgo
    | failure => exact hgo

theorem resumeChain (hn : T.Has n) (hb : n.behavior ≠ .watchdog) (next : Status) (h : T.Ready P t t') :
    T.Agree (fun _ => T.Near P) (e.resumeChain n.toSite next) (e'.resumeChain n.toSite next) t t' := by
  refine Agree.saved? ?_
  rw [h.payload hn]
  split
  · exact he.chain hn next (fun _ => hn.child) 0 h
  · rename_i i hp
    refine (h.childStatus hn hb hp).bind fun status u u' hu => ?_
    split
    · exact he.chain hn next (fun _ hid => hn.child (List.mem_of_mem_drop hid)) _ hu
    · exact Agree.pure hu.toNear
  · exact Agree.rejectPayload

theorem caseAction (hn : T.Has n) (case : Nat) {pair : List NodeId} (hp : ∀ id ∈ pair, T.nodes id)
    (h : T.Ready P t t') :
    T.Agree (fun _ => T.Near P) (e.caseAction n.toSite case pair) (e'.caseAction n.toSite case pair) t t' := by
  refine Agree.element fun id hid => (he.run (hp id hid) h).bind fun status u u' hu => ?_
  cases status with
  | running => exact Agree.suspendFlat hu.toNear hn rfl
  | success => exact Agree.pure hu.toNear
  | failure => exact Agree.pure hu.toNear

theorem tryCases (hn : T.Has n) {ids : List NodeId} (hids : ∀ id ∈ ids, T.nodes id) (case : Nat)
    (h : T.Ready P t t') :
    T.Agree (fun _ => T.Near P) (e.tryCases n.toSite case ids) (e'.tryCases n.toSite case ids) t t' := by
  induction ids generalizing case t t' with
  | nil => exact Agree.pure h.toNear
  | cons id ids ih =>
    obtain ⟨hid, hrest⟩ := List.forall_mem_cons.mp hids
    obtain ⟨m, rfl, hm⟩ := he.fits.has hid
    refine Agree.node hm (Agree.element fun first hfirst => ?_)
    refine (he.run (hm.child hfirst) h).bind fun status u u' hu => ?_
    cases status with
    | running => exact Agree.suspendFlat hu.toNear hn rfl
    | success => exact he.caseAction hn case (fun _ => hm.child) hu.ready
    | failure => exact ih hrest (case + 1) hu.ready

theorem switch (hn : T.Has n) (hb : n.behavior ≠ .watchdog) (h : T.Ready P t t') :
    T.Agree (fun _ => T.Near P) (e.switch n.toSite) (e'.switch n.toSite) t t' := by
  refine Agree.saved? ?_
  rw [h.payload hn]
  split
  · exact he.tryCases hn (fun _ => hn.child) 0 h
  · rename_i phase hp
    refine (h.childStatus hn hb hp).bind fun status u u' hu => ?_
    dsimp only
    split
    · exact Agree.pure hu.toNear
    · split
      · refine Agree.child hn fun id hid => ?_
        obtain ⟨m, rfl, hm⟩ := he.fits.has hid
        exact Agree.node hm (he.caseAction hn _ (fun _ => hm.child) hu)
      · exact he.tryCases hn (fun _ hid => hn.child (List.mem_of_mem_drop hid)) _ hu
  · exact Agree.rejectPayload

theorem branchAt (hn : T.Has n) (position : Nat) (h : T.Ready P t t') :
    T.Agree (fun _ => T.Near P) (e.branchAt n.toSite position) (e'.branchAt n.toSite position) t t' := by
  refine Agree.child hn fun id hid => (he.run hid h).bind fun status u u' hu => ?_
  cases status with
  | running => exact Agree.suspendFlat hu.toNear hn rfl
  | success => exact Agree.pure hu.toNear
  | failure => exact Agree.pure hu.toNear

theorem branch (hn : T.Has n) (condition : Status) (h : T.Ready P t t') :
    T.Agree (fun _ => T.Near P) (e.branch n.toSite condition) (e'.branch n.toSite condition) t t' := by
  cases condition with
  | running => exact Agree.suspendFlat h.toNear hn rfl
  | success => exact he.branchAt hn 1 h
  | failure => exact he.branchAt hn 2 h

theorem ifElse (hn : T.Has n) (hb : n.behavior ≠ .watchdog) (h : T.Ready P t t') :
    T.Agree (fun _ => T.Near P) (e.ifElse n.toSite) (e'.ifElse n.toSite) t t' := by
  refine Agree.saved? ?_
  rw [h.payload hn]
  split
  · refine Agree.child hn fun id hid => (he.run hid h).bind fun status u u' hu => ?_
    exact he.branch hn status hu.ready
  · rename_i hp
    exact (h.childStatus hn hb hp).bind fun status u u' hu => he.branch hn status hu
  · rename_i hp
    exact (h.childStatus hn hb hp).mono fun status u u' hu => hu.toNear
  · exact Agree.rejectPayload

/-- A pass that suspends the node is the last thing that the node does. -/
theorem pass (hn : T.Has n) (iteration : Nat) {ids : List NodeId} (hids : ∀ id ∈ ids, T.nodes id) (i : Nat)
    (h : T.Ready P t t') :
    T.Agree (fun ending u u' => T.Near P u u' ∧ (ending ≠ .suspended → T.Ready P u u'))
      (e.pass n.toSite iteration i ids) (e'.pass n.toSite iteration i ids) t t' := by
  induction ids generalizing i t t' with
  | nil => exact Agree.pure ⟨h.toNear, fun _ => h⟩
  | cons id ids ih =>
    obtain ⟨hid, hrest⟩ := List.forall_mem_cons.mp hids
    refine (he.run hid h).bind fun status u u' hu => ?_
    cases status with
    | running =>
      refine (Agree.suspendFlat hu.toNear hn rfl).bind fun _ v v' hv => ?_
      exact Agree.pure ⟨hv, fun hne => absurd rfl hne⟩
    | success => exact ih hrest (i + 1) hu.ready
    | failure => exact Agree.pure ⟨hu.toNear, fun _ => hu.ready⟩

section Passes

variable {enter : Nat → TickM σ Unit}
  (henter : ∀ i (u u' : Tick σ), T.Ready P u u' → T.Agree (fun _ => T.Ready P) (enter i) (enter i) u u')
include henter

theorem passes (hn : T.Has n) (count iteration : Nat) (h : T.Ready P t t') :
    T.Agree (fun _ => T.Near P) (e.passes n.toSite enter count iteration) (e'.passes n.toSite enter count iteration)
      t t' := by
  induction count generalizing iteration t t' with
  | zero => exact Agree.pure h.toNear
  | succ count ih =>
    refine (henter iteration t t' h).bind fun _ u u' hu => ?_
    refine (he.pass hn iteration (fun _ => hn.child) 0 hu).bind fun ending v v' hv => ?_
    cases ending with
    | passed => exact ih (iteration + 1) (hv.2 (by simp))
    | failed => exact Agree.pure hv.1
    | suspended => exact Agree.pure hv.1

theorem iterate (hn : T.Has n) (hb : n.behavior ≠ .watchdog) (iterations : Nat) (h : T.Ready P t t') :
    T.Agree (fun _ => T.Near P) (e.iterate n.toSite iterations enter) (e'.iterate n.toSite iterations enter) t t' := by
  refine Agree.saved? ?_
  rw [h.payload hn]
  split
  · exact he.passes henter hn _ _ h
  · rename_i iteration i hp
    refine (h.childStatus hn hb hp).bind fun status u u' hu => ?_
    cases status with
    | success =>
      simp only
      split
      · refine (he.pass hn iteration (fun _ hid => hn.child (List.mem_of_mem_drop hid)) (i + 1) hu).bind
          fun ending v v' hv => ?_
        cases ending with
        | passed => exact he.passes henter hn _ _ (hv.2 (by simp))
        | failed => exact Agree.pure hv.1
        | suspended => exact Agree.pure hv.1
      · exact Agree.pure hu.toNear
    | failure => exact Agree.pure hu.toNear
    | running => exact Agree.pure hu.toNear
  · exact Agree.rejectPayload

end Passes

omit he in
theorem writeSlot (hn : T.Has n) (slot : Nat) (value : Option Value) (h : T.Ready P t t') :
    T.Agree (fun _ => T.Ready P) (Engine.writeSlot (n.outputVar? slot) value)
      (Engine.writeSlot (n.outputVar? slot) value) t t' := by
  cases hv : n.outputVar? slot with
  | none => exact Agree.pure h
  | some name =>
    have hname : n.Sets name := by
      obtain ⟨hmem, hne⟩ := Option.filter_eq_some_iff.mp hv
      exact ⟨by simpa using hne, List.mem_of_getElem? hmem⟩
    exact ⟨rfl, h.set hn hname value⟩

theorem loop (hn : T.Has n) (hb : n.behavior ≠ .watchdog) (count : Nat) (h : T.Ready P t t') :
    T.Agree (fun _ => T.Near P) (e.loop n.toSite count) (e'.loop n.toSite count) t t' :=
  he.iterate (fun _ _ _ hu => writeSlot hn 0 _ hu) hn hb count h

theorem forEach (hn : T.Has n) (hb : n.behavior ≠ .watchdog) (h : T.Ready Eq t t') :
    T.Agree (fun _ => T.Near Eq) (e.forEach n.toSite) (e'.forEach n.toSite) t t' := by
  refine Agree.env ?_
  rw [h.input?_eq]
  split
  · refine he.iterate (fun i u u' hu => Agree.element fun v _ => ?_) hn hb _ h
    exact (writeSlot hn 0 _ hu).bind fun _ w w' hw => writeSlot hn 1 _ hw
  · exact Agree.report (Agree.pure (h.toNear.report _ _))

end Sequential

section Concurrent

/-- Children that are about to be stepped, with the stacks that were saved for them. -/
structure Entries (T : Twin σ) (fresh : Bool) (entries : List (NodeId × Option Stack)) (t t' : Tick σ) : Prop where
  nodes {id : NodeId} {saved : Option Stack} : (id, saved) ∈ entries → T.nodes id
  frames {id : NodeId} {s : Stack} : (id, some s) ∈ entries → ∀ x ∈ s.frames, T.nodes x
  status {id : NodeId} {s : Stack} : fresh = false → (id, some s) ∈ entries →
    t.env.lastStatus = t'.env.lastStatus ∨ s.frames ≠ []

def Leaves (T : Twin σ) (left : List (Option Stack)) : Prop := ∀ s, some s ∈ left → ∀ x ∈ s.frames, T.nodes x

variable {fresh : Bool} {id : NodeId} {saved : Option Stack} {entries : List (NodeId × Option Stack)}

omit he in
theorem Entries.rest (h : Entries T fresh ((id, saved) :: entries) t t') : Entries T fresh entries t t' :=
  ⟨fun hm => h.nodes (List.mem_cons_of_mem _ hm), fun hm => h.frames (List.mem_cons_of_mem _ hm),
    fun hf hm => h.status hf (List.mem_cons_of_mem _ hm)⟩

omit he in
theorem Entries.done {status : Status} {u u' : Tick σ} (h : Entries T fresh entries t t') (hu : T.Done P status u u') :
    Entries T fresh entries u u' :=
  ⟨h.nodes, h.frames, fun _ _ => .inl (hu.alone.trans hu.joined.symm)⟩

theorem stepEntry (h : T.Ready P t t') (hs : Entries T fresh ((id, saved) :: entries) t t') :
    T.Agree (T.Left P) (e.stepBranch id (if fresh then none else saved))
      (e'.stepBranch id (if fresh then none else saved)) t t' := by
  cases fresh with
  | true => exact he.stepBranch (hs.nodes List.mem_cons_self) h (by simp) (by simp)
  | false =>
    rw [if_neg Bool.false_ne_true]
    refine he.stepBranch (hs.nodes List.mem_cons_self) h (fun s hsaved => ?_) fun s hsaved => ?_
    · subst hsaved
      exact hs.frames List.mem_cons_self
    · subst hsaved
      exact hs.status rfl List.mem_cons_self

omit he in
theorem savedBranches (hn : T.Has n) (h : T.Ready P t t') :
    T.Agree (fun previous u u' => T.Ready P u u' ∧ ∀ saved, previous = some saved →
      Entries T false (n.children.zip saved) u u') (Engine.savedBranches n.toSite) (Engine.savedBranches n.toSite)
      t t' := by
  refine Agree.saved? ?_
  rw [h.payload hn]
  split
  · exact Agree.pure ⟨h, by simp⟩
  · rename_i saved hp
    split
    · refine Agree.pure ⟨h, fun _ heq => ?_⟩
      obtain rfl := Option.some.inj heq
      have hmem : ∀ {id : NodeId} {s : Stack}, (id, some s) ∈ n.children.zip saved →
          s ∈ (Payload.branches saved).nested := fun hm =>
        List.mem_filterMap.mpr ⟨_, (List.of_mem_zip hm).2, rfl⟩
      exact ⟨fun hm => hn.child (List.of_mem_zip hm).1, fun hm => h.saved hn hp (hmem hm),
        fun _ hm => h.saved_or hn hp (hmem hm)⟩
    · exact Agree.rejectPayload
  · exact Agree.rejectPayload

omit he in
theorem suspendBranches (hn : T.Has n) {left : List (Option Stack)} (hl : Leaves T left) (h : T.Near P t t') :
    T.Agree (fun _ => T.Near P) (TickM.suspend n.toSite (.branches left)) (TickM.suspend n.toSite (.branches left))
      t t' := by
  refine Agree.suspend h hn fun x hx => ?_
  obtain ⟨s, hs, hx⟩ := List.mem_flatMap.mp hx
  obtain ⟨o, ho, rfl⟩ := List.mem_filterMap.mp hs
  exact hl s ho x hx

theorem stepAll (h : T.Ready P t t') (hs : Entries T fresh entries t t') :
    T.Agree (fun left u u' => T.Near P u u' ∧ Leaves T left) (e.stepAll fresh entries) (e'.stepAll fresh entries)
      t t' := by
  induction entries generalizing t t' with
  | nil => exact Agree.pure ⟨h.toNear, by simp [Leaves]⟩
  | cons entry entries ih =>
    obtain ⟨id, saved⟩ := entry
    rw [Engine.stepAll, Engine.stepAll]
    split
    · refine (ih h hs.rest).bind fun left u u' hu => Agree.pure ⟨hu.1, fun s hm => ?_⟩
      exact hu.2 s (by simpa using hm)
    · refine (he.stepEntry h hs).bind fun r u u' hu => ?_
      refine (ih hu.toDone.ready (hs.rest.done hu.toDone)).bind fun left v v' hv => Agree.pure ⟨hv.1, fun s hm => ?_⟩
      rcases List.mem_cons.mp hm with hm | hm
      · split at hm
        · obtain rfl := Option.some.inj hm
          exact fun x hx => hu.frames hx
        · cases hm
      · exact hv.2 s hm

theorem parallel (hn : T.Has n) (h : T.Ready P t t') :
    T.Agree (fun _ => T.Near P) (e.parallel n.toSite) (e'.parallel n.toSite) t t' := by
  refine (savedBranches hn h).bind fun previous u u' hu => ?_
  have hentries : Entries T previous.isNone (n.children.zip (previous.getD (n.children.map fun _ => none))) u u' := by
    cases previous with
    | some saved => exact hu.2 saved rfl
    | none =>
      have hnone : ∀ {id : NodeId} {s : Stack}, (id, some s) ∉ n.children.zip (n.children.map fun _ => none) :=
        fun hm => by simpa using (List.of_mem_zip hm).2
      exact ⟨fun hm => hn.child (List.of_mem_zip hm).1, fun hm => absurd hm hnone, fun _ hm => absurd hm hnone⟩
  refine (he.stepAll hu.1 hentries).bind fun left v v' hv => ?_
  split
  · exact suspendBranches hn hv.2 hv.1
  · exact Agree.pure hv.1

theorem raceAll (h : T.Ready P t t') (hs : Entries T fresh entries t t') {passed : List (Option Stack)}
    (hp : Leaves T passed) :
    T.Agree (fun r u u' => T.Near P u u' ∧ Leaves T r.2) (e.raceAll fresh passed entries)
      (e'.raceAll fresh passed entries) t t' := by
  have hnone : ∀ {passed : List (Option Stack)}, Leaves T passed → Leaves T (none :: passed) := fun hp s hm =>
    hp s (by simpa using hm)
  induction entries generalizing passed t t' with
  | nil => exact Agree.pure ⟨h.toNear, fun s hm => hp s (List.mem_reverse.mp hm)⟩
  | cons entry entries ih =>
    obtain ⟨id, saved⟩ := entry
    rw [Engine.raceAll, Engine.raceAll]
    split
    · exact ih h hs.rest (hnone hp)
    · refine (he.stepEntry h hs).bind fun r u u' hu => ?_
      obtain ⟨status, left⟩ := r
      have hrest := hs.rest.done hu.toDone
      cases status with
      | running =>
        refine ih hu.toDone.ready hrest fun s hm => ?_
        rcases List.mem_cons.mp hm with hm | hm
        · obtain rfl := Option.some.inj hm
          exact fun x hx => hu.frames hx
        · exact hp s hm
      | failure => exact ih hu.toDone.ready hrest (hnone hp)
      | success =>
        refine Agree.pure ⟨hu.toNear, fun s hm => ?_⟩
        rcases List.mem_append.mp hm with hm | hm
        · exact hp s (List.mem_reverse.mp hm)
        · obtain ⟨⟨id', saved'⟩, hentry, rfl⟩ := List.mem_map.mp ((List.mem_cons.mp hm).resolve_left (by simp))
          exact hs.rest.frames hentry

omit he in
theorem abandonAll {left : List (Option Stack)} (hl : Leaves T left) (h : T.Near P t t') :
    T.Agree (fun _ => T.Near P) (Engine.abandonAll left) (Engine.abandonAll left) t t' := by
  have hgo : ∀ (saved : List Stack) (t t' : Tick σ), (∀ s ∈ saved, ∀ x ∈ s.frames, T.nodes x) → T.Near P t t' →
      T.Agree (fun _ => T.Near P) (saved.forM TickM.abandon) (saved.forM TickM.abandon) t t' := by
    intro saved
    induction saved with
    | nil => exact fun t t' _ h => Agree.pure h
    | cons s saved ih =>
      intro t t' hs h
      exact Agree.modifyEnv (ih _ _ (fun s hm => hs s (List.mem_cons_of_mem _ hm))
        (h.abandon (hs s List.mem_cons_self)))
  refine hgo _ t t' (fun s hm => ?_) h
  obtain ⟨o, ho, rfl⟩ := List.mem_filterMap.mp hm
  exact hl s ho

theorem race (hn : T.Has n) (h : T.Ready P t t') :
    T.Agree (fun _ => T.Near P) (e.race n.toSite) (e'.race n.toSite) t t' := by
  refine (savedBranches hn h).bind fun previous u u' hu => ?_
  have hentries : Entries T previous.isNone (n.children.zip (previous.getD (n.children.map fun _ => some ∅))) u u' := by
    cases previous with
    | some saved => exact hu.2 saved rfl
    | none =>
      have hempty : ∀ {id : NodeId} {s : Stack}, (id, some s) ∈ n.children.zip (n.children.map fun _ => some ∅) →
          s = ∅ := fun hm => by
        obtain ⟨_, _, heq⟩ := List.mem_map.mp (List.of_mem_zip hm).2
        exact (Option.some.inj heq).symm
      refine ⟨fun hm => hn.child (List.of_mem_zip hm).1, fun hm x hx => ?_, nofun⟩
      rw [hempty hm] at hx
      cases hx
  refine (he.raceAll hu.1 hentries (by simp [Leaves])).bind fun r v v' hv => ?_
  obtain ⟨won, left⟩ := r
  dsimp only
  split
  · exact (abandonAll hv.2 hv.1).bind fun _ w w' hw => Agree.pure hw
  · split
    · exact suspendBranches hn hv.2 hv.1
    · exact Agree.pure hv.1

theorem cleanUp (hn : T.Has n) (h : T.Ready P t t') :
    T.Agree (fun _ => T.Near P) (e.cleanUp n.toSite) (e'.cleanUp n.toSite) t t' := by
  refine Agree.child hn fun id hid => (he.runCaptured hid h).bind fun r u u' hu => ?_
  obtain ⟨status, left⟩ := r
  dsimp only
  split
  · exact ⟨rfl, (hu.toNear.report _ _).abandon fun x hx => hu.frames hx⟩
  · exact Agree.pure hu.toNear

theorem guarded (hn : T.Has n) {saved : Option Stack} (h : T.Ready P t t')
    (hs : ∀ s, saved = some s → ∀ x ∈ s.frames, T.nodes x) (heq : t.env.lastStatus = t'.env.lastStatus) :
    T.Agree (fun _ => T.Near P) (e.guarded n.toSite saved) (e'.guarded n.toSite saved) t t' := by
  refine Agree.child hn fun id hid => (he.stepBranch hid h hs fun _ _ => .inl heq).bind fun r u u' hu => ?_
  obtain ⟨status, left⟩ := r
  cases status with
  | running =>
    refine Agree.suspend hu.toNear hn fun x hx => hu.frames ?_
    simpa [Payload.nestedFrames, Payload.nested] using hx
  | success => exact Agree.pure hu.toNear
  | failure => exact Agree.pure hu.toNear

theorem guard (hn : T.Has n) {saved : Option Stack} (h : T.Ready P t t')
    (hs : ∀ s, saved = some s → ∀ x ∈ s.frames, T.nodes x) :
    T.Agree (fun _ => T.Near P) (e.guard n.toSite saved) (e'.guard n.toSite saved) t t' := by
  refine Agree.child hn fun id hid => (he.run hid h).bind fun status u u' hu => ?_
  cases status with
  | running => exact Agree.rejectStatus
  | success => exact he.guarded hn hu.ready hs (hu.alone.trans hu.joined.symm)
  | failure =>
    cases saved with
    | none => exact Agree.pure hu.toNear
    | some saved =>
      refine Agree.report (Agree.modifyEnv ?_)
      have hnear := (hu.toNear.report (.guardFailed T.alone.tree.name n.id)
        (.guardFailed T.joined.tree.name n.id)).abandon (hs saved rfl)
      exact (he.cleanUp hn ⟨hnear, .inl (hu.alone.trans hu.joined.symm)⟩).bind fun _ v v' hv => Agree.pure hv

theorem watchdog (hn : T.Has n) (h : T.Ready P t t') :
    T.Agree (fun _ => T.Near P) (e.watchdog n.toSite) (e'.watchdog n.toSite) t t' := by
  refine Agree.saved? ?_
  rw [h.payload hn]
  split
  · exact he.guard hn h (by simp)
  · rename_i saved hp
    refine he.guard hn h fun s heq => ?_
    obtain rfl := Option.some.inj heq
    exact h.saved hn hp List.mem_cons_self
  · exact Agree.rejectPayload

omit he in
theorem expire (hT : T.Fits) (hn : T.Has n) (expiry : Float) {r : Status × Stack} (h : T.Left P r t t') :
    T.Agree (fun _ => T.Near P) (Engine.expire n.toSite expiry r) (Engine.expire n.toSite expiry r) t t' := by
  obtain ⟨status, left⟩ := r
  cases status with
  | running =>
    refine Agree.time ?_
    rw [h.time hT]
    split
    · exact ⟨rfl, (h.toNear.report _ _).abandon fun x hx => h.frames hx⟩
    · refine Agree.suspend h.toNear hn fun x hx => h.frames ?_
      simpa [Payload.nestedFrames, Payload.nested] using hx
  | success => exact Agree.pure h.toNear
  | failure => exact Agree.pure h.toNear

theorem timeout (hn : T.Has n) (limit : Float) (h : T.Ready P t t') :
    T.Agree (fun _ => T.Near P) (e.timeout n.toSite limit) (e'.timeout n.toSite limit) t t' := by
  refine Agree.saved? ?_
  rw [h.payload hn]
  split
  · refine Agree.child hn fun id hid => (he.runCaptured hid h).bind fun r u u' hu => Agree.time ?_
    rw [hu.time he.fits]
    exact expire he.fits hn _ hu
  · rename_i expiry saved hp
    have hmem : saved ∈ (Payload.deadline expiry saved).nested := List.mem_cons_self
    refine (he.resumeCaptured h (h.saved hn hp hmem) (h.saved_or hn hp hmem)).bind fun r u u' hu => ?_
    exact expire he.fits hn _ hu
  · exact Agree.rejectPayload

end Concurrent

section Wrapping

theorem onlyChild (hn : T.Has n) (hb : n.behavior ≠ .watchdog) (h : T.Ready P t t') :
    T.Agree (fun _ => T.Ready P) (e.onlyChild n.toSite) (e'.onlyChild n.toSite) t t' := by
  refine Agree.saved? ?_
  rw [h.payload hn]
  split
  · exact Agree.child hn fun id hid => (he.run hid h).mono fun _ _ _ hu => hu.ready
  · rename_i hp
    exact h.childStatus hn hb hp
  · exact Agree.rejectPayload

theorem wrap (hn : T.Has n) (hb : n.behavior ≠ .watchdog) (result : Status → Status) (h : T.Ready P t t') :
    T.Agree (fun _ => T.Near P) (e.wrap n.toSite result) (e'.wrap n.toSite result) t t' := by
  refine (he.onlyChild hn hb h).bind fun status u u' hu => ?_
  cases status with
  | running => exact Agree.suspendFlat hu.toNear hn rfl
  | success => exact Agree.pure hu.toNear
  | failure => exact Agree.pure hu.toNear

theorem once (hn : T.Has n) (hb : n.behavior ≠ .watchdog) (h : T.Ready P t t') :
    T.Agree (fun _ => T.Near P) (e.once n.toSite) (e'.once n.toSite) t t' := by
  have hprivate : t'.env.getPrivate? n.id onceName = t.env.getPrivate? n.id onceName := h.privates.same hn.mem
  refine Agree.env ?_
  rw [h.isSuspended hn, hprivate]
  split
  · exact he.wrap hn hb _ h
  · split
    · exact Agree.pure h.toNear
    · exact Agree.modifyEnv (he.wrap hn hb _ (h.of_near (h.toNear.setPrivate hn.mem _ _) rfl rfl rfl))

omit he in
theorem countRun (hn : T.Has n) (limit : Option Nat) (policy : RepeatPolicy) (done : Nat) (status : Status)
    (h : T.Near P t t') :
    T.Agree (fun _ => T.Near P) (Engine.countRun n.toSite limit policy done status)
      (Engine.countRun n.toSite limit policy done status) t t' := by
  unfold Engine.countRun
  split
  · exact Agree.pure h
  · split
    · exact Agree.pure h
    · exact Agree.suspendFlat h hn rfl

theorem startRun (hn : T.Has n) (limit : Option Nat) (policy : RepeatPolicy) (done : Nat) (h : T.Ready P t t') :
    T.Agree (fun _ => T.Near P) (e.startRun n.toSite limit policy done) (e'.startRun n.toSite limit policy done)
      t t' := by
  unfold Engine.startRun
  split
  · exact Agree.pure h.toNear
  · refine Agree.child hn fun id hid => (he.run hid h).bind fun status u u' hu => ?_
    cases status with
    | running => exact Agree.suspendFlat hu.toNear hn rfl
    | success => exact countRun hn limit policy done _ hu.toNear
    | failure => exact countRun hn limit policy done _ hu.toNear

theorem repeated (hn : T.Has n) (hb : n.behavior ≠ .watchdog) (limit : Option Nat) (policy : RepeatPolicy)
    (h : T.Ready P t t') :
    T.Agree (fun _ => T.Near P) (e.repeated n.toSite limit policy) (e'.repeated n.toSite limit policy) t t' := by
  refine Agree.saved? ?_
  rw [h.payload hn]
  split
  · exact he.startRun hn limit policy 0 h
  · rename_i done hp
    exact (h.childStatus hn hb hp).bind fun status u u' hu => countRun hn limit policy done status hu.toNear
  · exact he.startRun hn limit policy _ h
  · exact Agree.rejectPayload

end Wrapping

theorem behave (hn : T.Has n) (h : T.Ready Eq t t') :
    T.Agree (fun _ => T.Near Eq) (e.behave n.toSite n.behavior) (e'.behave n.toSite n.behavior) t t' := by
  have hlocal := hn.behavior
  cases hb : n.behavior with
  | sequence => exact he.resumeChain hn (by simp [hb]) _ h
  | selector => exact he.resumeChain hn (by simp [hb]) _ h
  | parallel => exact he.parallel hn h
  | race => exact he.race hn h
  | switch => exact he.switch hn (by simp [hb]) h
  | case => exact trivial
  | ifElse => exact he.ifElse hn (by simp [hb]) h
  | forEach => exact he.forEach hn (by simp [hb]) h
  | loop count => exact he.loop hn (by simp [hb]) count h
  | watchdog => exact he.watchdog hn h
  | repeated limit policy => exact he.repeated hn (by simp [hb]) limit policy h
  | invert => exact he.wrap hn (by simp [hb]) _ h
  | always status => exact he.wrap hn (by simp [hb]) _ h
  | once => exact he.once hn (by simp [hb]) h
  | timeout limit => exact he.timeout hn limit h
  | wait span => exact agree_wait hn he.fits h.toNear span
  | check expr => exact agree_check hn h hb
  | calculate expr => exact agree_calculate hn h hb
  | copy => exact agree_copy h.toNear _
  | isNull => exact (agree_inputIsNull h.toNear).bind fun _ u u' hu => Agree.pure hu
  | notNull => exact (agree_inputIsNull h.toNear).bind fun _ u u' hu => Agree.pure hu
  | log level text => exact agree_log h.toNear _ level text
  | now => exact agree_now he.fits h.toNear
  | leaf react =>
    rw [hb] at hlocal
    obtain ⟨label, ticks, result, rfl⟩ := hlocal
    exact agree_leaf hn h.toNear label ticks result
  | listen event => exact (hb ▸ hlocal : (Behavior.listen event).Local).elim
  | delay span cache => exact (hb ▸ hlocal : (Behavior.delay span cache).Local).elim
  | dispatch event => exact (hb ▸ hlocal : (Behavior.dispatch event).Local).elim
  | routine steps => exact (hb ▸ hlocal : (Behavior.routine steps).Local).elim

section Frames

variable {status : Status} {id : NodeId} {u u' : Tick σ}

omit he in
/-- The outputs of a node go to the same variables. -/
theorem writeOutputs (hn : T.Has n) (values : List (Option Value)) (h : T.Done P status u u') :
    T.Done P status { u with env := Engine.writeOutputs u.env n.output values }
      { u' with env := Engine.writeOutputs u'.env n.output values } := by
  have hgo : ∀ (pairs : List (String × Option Value)) (u u' : Tick σ), (∀ pair ∈ pairs, pair.1 ∈ n.output) →
      T.Done P status u u' → T.Done P status
        { u with env := pairs.foldl (fun env pair => if pair.1 = "" then env else env.set pair.1 pair.2) u.env }
        { u' with env := pairs.foldl (fun env pair => if pair.1 = "" then env else env.set pair.1 pair.2) u'.env } := by
    intro pairs
    induction pairs with
    | nil => exact fun u u' _ h => h
    | cons pair pairs ih =>
      intro u u' hpairs h
      obtain ⟨hpair, hrest⟩ := List.forall_mem_cons.mp hpairs
      rw [List.foldl_cons, List.foldl_cons]
      by_cases hname : pair.1 = ""
      · rw [if_pos hname, if_pos hname]
        exact ih u u' hrest h
      · rw [if_neg hname, if_neg hname]
        exact ih _ _ hrest ⟨h.toNear.set hn ⟨hname, hpair⟩ pair.2, h.alone, h.joined⟩
  exact hgo _ u u' (fun pair hm => (List.of_mem_zip hm).1) h

omit he in
theorem leaveFrame (hT : T.Fits) (hid : T.nodes id) (h : T.Done P status u u') :
    T.Agree (T.Done P) (Engine.leaveFrame id status) (Engine.leaveFrame id status) u u' := by
  refine Agree.env ?_
  dsimp only
  by_cases htop : u.env.stack.top? = some id
  · rw [if_pos htop, if_pos ((h.stack.top?_eq hT hid).mp htop)]
    obtain ⟨rest, rest', hframes, hframes', hstack⟩ := h.stack.pop hT hid htop
    refine Agree.modifyEnv (Agree.pure ?_)
    rw [Env.popFrame_eq hframes, Env.popFrame_eq hframes']
    exact ⟨{ h.toNear with stack := hstack, temps := h.temps.erase hid }, h.alone, h.joined⟩
  · rw [if_neg htop, if_neg fun htop' => htop ((h.stack.top?_eq hT hid).mpr htop')]
    trivial

omit he in
theorem conclude (hT : T.Fits) (hn : T.Has n) (output : List (Option Value)) (h : T.Near P u u') :
    T.Agree (T.Done P) (Engine.conclude n status output) (Engine.conclude n status output) u u' := by
  have hdone : ∀ status, T.Done P status { u with env := { u.env with lastStatus := status } }
      { u' with env := { u'.env with lastStatus := status } } := fun status => ⟨h.setStatus status, rfl, rfl⟩
  have hleave : ∀ status, T.Agree (T.Done P)
      (do TickM.modifyEnv fun env => Engine.writeOutputs env n.output output; Engine.leaveFrame n.id status)
      (do TickM.modifyEnv fun env => Engine.writeOutputs env n.output output; Engine.leaveFrame n.id status)
      { u with env := { u.env with lastStatus := status } } { u' with env := { u'.env with lastStatus := status } } :=
    fun status => Agree.modifyEnv (leaveFrame hT hn.mem (writeOutputs hn output (hdone status)))
  refine Agree.modifyEnv ?_
  cases status with
  | running =>
    refine Agree.env ?_
    have hsame : ({ u'.env with lastStatus := .running } : Env).isSuspended n.id =
        ({ u.env with lastStatus := .running } : Env).isSuspended n.id := h.isSuspended hn
    rw [hsame]
    split
    · exact Agree.pure (hdone .running)
    · refine ⟨rfl, (hdone .running).toNear.setPayload hn.mem fun x hx => ?_, rfl, rfl⟩
      cases hx
  | success => exact hleave .success
  | failure => exact hleave .failure

end Frames

end Paired

namespace Paired

variable {resumed : Bool} {id : NodeId} {u u' : Tick σ}

theorem closeNode {status : Status} (hT : T.Fits) (hn : T.Has n) (hb : P t.env.slots t'.env.slots)
    (h : T.Near Eq u u') :
    T.Agree (T.Done P) (Engine.closeNode n resumed t.env (.ok status)) (Engine.closeNode n resumed t'.env (.ok status))
      u u' := by
  have hnear : T.Near P
      { u with env := { u.env with input := t.env.input, output := t.env.output }
               world := u.world.observe T.alone.owner (.returned n.id (some status)) }
      { u' with env := { u'.env with input := t'.env.input, output := t'.env.output }
                world := u'.world.observe T.joined.owner (.returned n.id (some status)) } :=
    (h.setSlots t.env.slots t'.env.slots hb).observe _
  refine Agree.env (Agree.modifyEnv (Agree.observe (Agree.ofExcept_ok (Agree.calm hT hnear ?_))))
  rw [(Prod.mk.inj h.slots).2]
  simp only [Bool.false_eq_true, if_false]
  split
  · exact Agree.report (conclude hT hn _ (hnear.report _ _))
  · exact conclude hT hn _ hnear

variable (he : e.Paired T e')
include he

theorem runFramed (hn : T.Has n) (h : T.Ready P t t') :
    T.Agree (T.Done P) (e.runFramed n resumed) (e'.runFramed n resumed) t t' := by
  have hinput : n.input.map t'.env.get? = n.input.map t.env.get? :=
    List.map_congr_left fun name hname => h.get? hn (.inl hname)
  have hopened : T.Ready Eq (t.opened T.alone n resumed) (t'.opened T.joined n resumed) := by
    refine h.of_near ?_ rfl rfl rfl
    exact { h.toNear.observe (.called n.id resumed) with slots := Prod.ext hinput.symm rfl }
  unfold Twin.Agree
  rw [runFramed_eq, runFramed_eq, TickM.bind_apply, TickM.bind_apply, TickM.attempt_apply, TickM.attempt_apply]
  refine EndAlike.andThen (he.behave hn hopened) (fun status u u' ho ho' hu => ?_) (fun err u ho => ?_)
    (fun err u ho => ?_) (fun _ ho => ?_) fun _ ho => ?_
  · rw [ho, ho']
    exact closeNode he.fits hn h.slots hu
  · rw [ho]
    exact ⟨_, rfl⟩
  · rw [ho]
    exact ⟨_, rfl⟩
  · rw [ho]
  · rw [ho]

theorem runNode (hn : T.Has n) (h : T.Ready P t t') :
    T.Agree (T.Done P) (e.runNode n) (e'.runNode n) t t' := by
  refine Agree.env ?_
  dsimp only
  rw [h.isSuspended hn]
  split
  · exact he.runFramed hn h
  · exact Agree.modifyEnv (he.runFramed hn
      (h.of_near (h.toNear.setStack (h.stack.push hn.mem)) rfl rfl rfl))

end Paired

/-- At any depth the two runs stay alike; the one with less depth may halt first. -/
theorem paired_ofDepth (hT : T.Fits) {d d' : Nat} (hd : d ≤ d' ∧ T.early ∨ d' ≤ d ∧ T.late) :
    (ofDepth d).Paired T (ofDepth d') := by
  induction d generalizing d' with
  | zero =>
    cases d' with
    | zero => exact ⟨hT, fun _ _ => trivial, fun _ _ _ => trivial⟩
    | succ d' =>
      have hearly : T.early := hd.elim And.right fun h => absurd h.1 (by omega)
      have hhalts : ∀ {Q : Status → Tick σ → Tick σ → Prop} (o : Outcome σ Status),
          T.EndAlike Q (.halted .tooDeep) o := fun o => by
        cases o
        · exact hearly
        · exact hearly
        · trivial
      exact ⟨hT, fun _ _ => hhalts _, fun _ _ _ => hhalts _⟩
  | succ d ih =>
    cases d' with
    | zero =>
      have hlate : T.late := hd.elim (fun h => absurd h.1 (by omega)) And.right
      have hhalts : ∀ {Q : Status → Tick σ → Tick σ → Prop} (o : Outcome σ Status),
          T.EndAlike Q o (.halted .tooDeep) := fun o => by
        cases o
        · exact hlate
        · exact .inr hlate
        · trivial
      exact ⟨hT, fun _ _ => hhalts _, fun _ _ _ => hhalts _⟩
    | succ d' =>
      have he : (ofDepth d).Paired T (ofDepth d') :=
        ih (hd.imp (And.imp_left Nat.le_of_succ_le_succ) (And.imp_left Nat.le_of_succ_le_succ))
      refine ⟨hT, fun hid h => ?_, fun hl h hs => he.resumeAbove hl h hs⟩
      obtain ⟨n, rfl, hn⟩ := hT.has hid
      exact Agree.node hn (he.runNode hn h)

end Engine

end BehaviorTree
