import BehaviorTree.Proofs.Variants.Steps

/-!
The nodes that two variants of a tree have in common do the same in both, on whatever frames these stand, and leave the
same frames behind. There is one lemma for each behavior.
-/

namespace BehaviorTree
set_option autoImplicit false

open TickM

variable {σ α β : Type}

namespace Variants

variable (V : Variants)

/-- If a node in common is on top of the frames of one variant, then it is on top in both. -/
def Heads (frames frames' : List NodeId) : Prop :=
  ∀ {x : NodeId}, V.shared x → (frames.head? = some x ↔ frames'.head? = some x)

/-- Frames of nodes of some kind are left on those that resuming goes down to, and none unless something is running. -/
def Resumes (B : NodeId → Prop) (base base' : List NodeId) (status : Status) (left left' : List NodeId) : Prop :=
  ∃ above, left = above ++ base ∧ left' = above ++ base' ∧ Tops B (· = .running) status above

/-- A kind of nodes in common, with those that they start. -/
structure Closed (B : NodeId → Prop) : Prop where
  shared {x : NodeId} : B x → V.shared x
  region {x y : NodeId} : B x → V.tree.Region x y → B y

structure Shares (e e' : Engine σ) : Prop where
  fits : V.Fits
  restoring : e.Restoring
  restoring' : e'.Restoring
  run {G : Ground} {frames frames' : List NodeId} {id : NodeId} : V.shared id → V.Level id frames frames' →
    V.Calls G [] frames frames' (e.run id) (e'.run id) (V.Ends id frames frames')
  resume {G : Ground} {base base' above : List NodeId} {B : NodeId → Prop} : V.Heads base base' → V.Closed B →
    (∀ x ∈ above, B x) → V.Calls G above base base' (e.resume base.length) (e'.resume base'.length)
      (Resumes B base base')
  dispatch (key : EventKey) (args : List Value) : V.Stills (onWorld (e.dispatch key args)) (onWorld (e'.dispatch key args))

variable {V} {G : Ground} {frames frames' left left' above base base' : List NodeId} {n : Node} {id k x : NodeId}
  {m m' : TickM σ α} {f f' : α → TickM σ β} {P : α → List NodeId → Prop} {Q : β → List NodeId → Prop}
  {B : NodeId → Prop} {e e' : Engine σ}

theorem Fits.closed_below (hV : V.Fits) (hid : V.shared id) : V.Closed (V.tree.Below id) :=
  ⟨fun hb => hV.below hb hid, fun hb hr => hb.trans hr⟩

theorem Level.push (hV : V.Fits) (id : NodeId) (frames frames' : List NodeId) :
    V.Level id (id :: frames) (id :: frames') := by
  refine ⟨fun _ => Iff.rfl, ?_⟩
  rintro x ⟨⟩
  exact hV.not_below_self id

theorem Level.child (h : V.Level id frames frames') (hk : V.tree.Starts id k) : V.Level k frames frames' :=
  ⟨h.heads, fun hx hb => h.floor hx ⟨k, hk, hb.region⟩⟩

/-- What is called on the frames of each variant, and only adds to them, does the same for nodes with the same slots. -/
theorem Calls.goes {R : α → List NodeId → List NodeId → Prop} (h : V.Calls G [] frames frames' m m' R) (hm : m.Restores)
    (hm' : m'.Restores)
    (hr : ∀ a left left', R a left left' → ∃ above, P a above ∧ left = above ++ frames ∧ left' = above ++ frames') :
    V.Goes G frames frames' m m' P := by
  intro t t' ht hs
  have hslots := hm V.here t
  have hslots' := hm' V.there t'
  have hgoes := h t t' ht
  have hsame : ∀ {u u' : Tick σ}, t.env.SameSlots u.env → t'.env.SameSlots u'.env → u.env.SameSlots u'.env := fun hu hu' =>
    ⟨hu'.input.trans (hs.input.trans hu.input.symm), hu'.output.trans (hs.output.trans hu.output.symm)⟩
  generalize m V.here t = o, m' V.there t' = o' at hslots hslots' hgoes
  cases o <;> cases o'
  case ok.ok a u b u' =>
    obtain ⟨rfl, left, left', ha, hu⟩ := hgoes
    obtain ⟨above, hp, rfl, rfl⟩ := hr a left left' ha
    exact ⟨rfl, hsame hslots hslots', above, hp, hu⟩
  case failed.failed => exact ⟨hgoes, hsame hslots hslots'⟩
  all_goals exact hgoes

/-- A node suspends with frames of its children on top of its own. -/
theorem Goes.suspended (hn : V.Has n) {p : Payload} (hp : p.nested = []) (habove : ∀ x ∈ above, B x) :
    V.Goes (σ := σ) G frames frames' (suspend n.toSite p) (suspend n.toSite p)
      fun status more => Tops B (· = .running) status (more ++ above) :=
  .onTop (a := .running) (.suspendFlat hn hp) (fun _ _ _ ho => by cases ho; rfl) rfl habove

theorem mem_started {tree : Tree} {i : Nat} (hs : tree.started n = n.children.take n.behavior.needs)
    (hi : i < n.behavior.needs) (hk : n.children[i]? = some k) : k ∈ tree.started n := by
  rw [hs]
  exact List.mem_of_getElem? (i := i) (by rw [List.getElem?_take_of_lt hi, hk])

theorem Goes.bindTops {busy : α → Prop} (h : V.Goes G frames frames' m m' (Tops B busy)) (hB : ∀ x, B x → V.shared x)
    (hbusy : ∀ a above, busy a → (∀ x ∈ above, B x) →
      V.Goes G (above ++ frames) (above ++ frames') (f a) (f' a) fun b more => Q b (more ++ above))
    (hidle : ∀ a, ¬ busy a → V.Goes G frames frames' (f a) (f' a) Q) :
    V.Goes G frames frames' (m >>= f) (m' >>= f') Q := by
  refine h.bind (fun _ above ha x hx => hB x (ha.1 x hx)) fun a above ha => ?_
  by_cases hb : busy a
  · exact hbusy a above hb ha.1
  · obtain rfl := ha.2 hb
    exact (hidle a hb).mono fun b more hq => by rwa [List.append_nil]

theorem Goes.captured {m m' : TickM σ Status} (h : V.Goes G frames frames' m m' (Tops B (· = .running))) :
    V.Goes G frames frames' (do let status ← m; return (status, ← capture status frames.length))
      (do let status ← m'; return (status, ← capture status frames'.length))
      fun r above => above = [] ∧ ∀ y ∈ r.2.frames, B y := by
  intro t t' ht hs
  refine (h t t' ht hs).bind (fun _ _ hu => hu) ?_
  rintro status _ u u' ⟨rfl, hslots, above, habove, hu⟩
  refine (Goes.cut habove u u' hu hslots).bind (fun _ _ hv => hv) ?_
  rintro left _ v v' ⟨rfl, hslots', hleft, hv⟩
  exact ⟨rfl, hslots', [], ⟨rfl, hleft⟩, hv⟩

namespace Shares

variable (he : V.Shares e e')
include he

/-- A node that is not on top leaves frames of nodes from it downwards, and none once it has ended. -/
theorem call (hid : V.shared id) (hl : V.Level id frames frames') (hne : frames.head? ≠ some id) :
    V.Goes G frames frames' (e.run id) (e'.run id) (Tops (V.tree.Region id) (· = .running)) := by
  refine (he.run hid hl).goes (he.restoring.run id) (he.restoring'.run id) ?_
  intro status left left' hends
  by_cases hr : status = .running
  · obtain ⟨above, habove, hleft, hleft'⟩ := hends.1 hr
    exact ⟨above, ⟨habove, fun hnot => absurd hr hnot⟩, hleft, hleft'⟩
  · rcases hends.2 hr with ⟨rfl, rfl⟩ | ⟨htop, -⟩
    · exact ⟨[], .nil, rfl, rfl⟩
    · rw [htop] at hne
      exact absurd rfl hne

omit he in
theorem runCaptured (hrun : V.Goes G frames frames' (e.run id) (e'.run id) (Tops B (· = .running))) :
    V.Goes G frames frames' (e.runCaptured id) (e'.runCaptured id) fun r above => above = [] ∧ ∀ y ∈ r.2.frames, B y := by
  intro t t' ht hs
  have hlevel : t.env.stack.size = frames.length := by rw [ht.env.stack]; rfl
  have hlevel' : t'.env.stack.size = frames'.length := by rw [ht.env.stack']; rfl
  change V.Beside _ _ ((do let status ← e.run id; return (status, ← capture status t.env.stack.size)) V.here t)
    ((do let status ← e'.run id; return (status, ← capture status t'.env.stack.size)) V.there t')
  rw [hlevel, hlevel']
  exact hrun.captured t t' ht hs

theorem resumeCaptured {saved : Stack} (hB : V.Closed B) (hheads : V.Heads frames frames') (hsaved : ∀ y ∈ saved.frames, B y) :
    V.Goes G frames frames' (e.resumeCaptured saved) (e'.resumeCaptured saved)
      fun r above => above = [] ∧ ∀ y ∈ r.2.frames, B y := by
  intro t t' ht hs
  have hlevel : t.env.stack.size = frames.length := by rw [ht.env.stack]; rfl
  have hlevel' : t'.env.stack.size = frames'.length := by rw [ht.env.stack']; rfl
  have hresume : V.Goes G frames frames'
      (modifyEnv (fun env => { env with stack := env.stack ++ saved }) >>= fun _ => e.resume frames.length)
      (modifyEnv (fun env => { env with stack := env.stack ++ saved }) >>= fun _ => e'.resume frames'.length)
      (Tops B (· = .running)) := by
    refine Calls.goes (R := Resumes B frames frames') ?_ (.bind (.modifyEnv fun _ => ⟨rfl, rfl⟩) fun _ => he.restoring.resume _)
      (.bind (.modifyEnv fun _ => ⟨rfl, rfl⟩) fun _ => he.restoring'.resume _) ?_
    · intro v v' hv
      have henv := hv.env.setStack (saved.frames ++ frames) (saved.frames ++ frames')
      have hstack : ∀ {env : Env} {below : List NodeId}, env.stack = ⟨below⟩ →
          { env with stack := env.stack ++ saved } = { env with stack := ⟨saved.frames ++ below⟩ } := by
        intro env below h
        rw [h]
        rfl
      have hv₁ : v.env.stack = ⟨frames⟩ := hv.env.stack
      have hv₂ : v'.env.stack = ⟨frames'⟩ := hv.env.stack'
      rw [← hstack hv₁, ← hstack hv₂] at henv
      have hon : V.Ticks G (saved.frames ++ frames) (saved.frames ++ frames')
          { v with env := { v.env with stack := v.env.stack ++ saved } }
          { v' with env := { v'.env with stack := v'.env.stack ++ saved } } := ⟨henv, hv.world⟩
      exact he.resume hheads hB hsaved _ _ hon
    · rintro status left left' ⟨above, rfl, rfl, habove⟩
      exact ⟨above, habove, rfl, rfl⟩
  change V.Beside _ _
    ((do
      modifyEnv fun env => { env with stack := env.stack ++ saved }
      let status ← e.resume t.env.stack.size
      return (status, ← capture status t.env.stack.size)) V.here t)
    ((do
      modifyEnv fun env => { env with stack := env.stack ++ saved }
      let status ← e'.resume t'.env.stack.size
      return (status, ← capture status t'.env.stack.size)) V.there t')
  rw [hlevel, hlevel', ← bind_assoc, ← bind_assoc]
  exact hresume.captured t t' ht hs

section Children

variable (hn : V.Has n) (hl : V.Level n.id frames frames')
include hn hl

/-- A child of a node leaves frames of nodes below the node, and none once it has ended. -/
theorem child (hk : k ∈ V.tree.started n) :
    V.Goes G frames frames' (e.run k) (e'.run k) (Tops (V.tree.Below n.id) (· = .running)) := by
  have hst : V.tree.Starts n.id k := ⟨n, hn.here, hk⟩
  have hne : frames.head? ≠ some k := fun hhead => hl.floor hhead ⟨k, hst, .refl k⟩
  exact (he.call (he.fits.starts hst hn.shared) (hl.child hst) hne).mono fun status above habove =>
    ⟨fun x hx => ⟨k, hst, habove.1 x hx⟩, habove.2⟩

theorem bindRun (hk : k ∈ V.tree.started n) {f f' : Status → TickM σ β}
    (hrun : ∀ above, (∀ x ∈ above, V.tree.Below n.id x) →
      V.Goes G (above ++ frames) (above ++ frames') (f .running) (f' .running) fun b more => Q b (more ++ above))
    (hend : ∀ status, status ≠ .running → V.Goes G frames frames' (f status) (f' status) Q) :
    V.Goes G frames frames' (e.run k >>= f) (e'.run k >>= f') Q := by
  refine (he.child hn hl hk).bindTops (fun _ hb => he.fits.below hb hn.shared) ?_ hend
  rintro _ above rfl habove
  exact hrun above habove

theorem bindBranch {saved : Option Stack} (hk : k ∈ V.tree.started n)
    (hsaved : ∀ s, saved = some s → ∀ y ∈ s.frames, V.tree.Below n.id y) {f f' : Status × Stack → TickM σ β}
    (hf : ∀ r, (∀ y ∈ r.2.frames, V.tree.Below n.id y) → V.Goes G frames frames' (f r) (f' r) Q) :
    V.Goes G frames frames' (e.stepBranch k saved >>= f) (e'.stepBranch k saved >>= f') Q := by
  have hB := he.fits.closed_below hn.shared
  have hstep : V.Goes G frames frames' (e.stepBranch k saved) (e'.stepBranch k saved)
      fun r above => above = [] ∧ ∀ y ∈ r.2.frames, V.tree.Below n.id y := by
    cases saved with
    | none => exact runCaptured (he.child hn hl hk)
    | some s => exact he.resumeCaptured hB hl.heads (hsaved s rfl)
  exact hstep.flat hf

/-! ### One child after the other -/

theorem chain {next : Status} {i : Nat} {ids : List NodeId} (hids : ∀ k ∈ ids, k ∈ V.tree.started n) :
    V.Goes G frames frames' (e.chain n.toSite next i ids) (e'.chain n.toSite next i ids)
      (Tops (V.tree.Below n.id) (· = .running)) := by
  induction ids generalizing i with
  | nil => exact .pure .nil
  | cons id ids ih =>
    obtain ⟨hid, hrest⟩ := List.forall_mem_cons.mp hids
    refine he.bindRun hn hl hid (fun above habove => .suspended hn rfl habove) fun status hst => ?_
    cases status with
    | running => exact absurd rfl hst
    | success => exact .ite (fun _ => ih hrest) fun _ => .pure .nil
    | failure => exact .ite (fun _ => ih hrest) fun _ => .pure .nil

theorem resumeChain {next : Status} (hs : V.tree.started n = n.children) :
    V.Goes G frames frames' (e.resumeChain n.toSite next) (e'.resumeChain n.toSite next)
      (Tops (V.tree.Below n.id) (· = .running)) := by
  refine .saved? hn fun saved _ => ?_
  split
  · exact he.chain hn hl fun k hk => hs ▸ hk
  · refine .childStatus fun status _ => .ite (fun _ => ?_) fun _ => .pure .nil
    exact he.chain hn hl fun k hk => hs ▸ List.mem_of_mem_drop hk
  · exact .still .rejectPayload

theorem caseAction {case : Nat} {pair : List NodeId} (hpair : ∀ k ∈ pair.take 2, k ∈ V.tree.started n) :
    V.Goes G frames frames' (e.caseAction n.toSite case pair) (e'.caseAction n.toSite case pair)
      (Tops (V.tree.Below n.id) (· = .running)) := by
  refine .element fun k hk => ?_
  have hmem : k ∈ V.tree.started n :=
    hpair k (List.mem_of_getElem? (i := 1) (by rw [List.getElem?_take_of_lt (by omega), hk]))
  refine he.bindRun hn hl hmem (fun above habove => .suspended hn rfl habove) fun status hst => ?_
  cases status with
  | running => exact absurd rfl hst
  | success => exact .pure .nil
  | failure => exact .pure .nil

omit he hn hl in
theorem pair_started (hb : n.behavior = .switch) {m : Node} (hm : V.Has m) (hmem : m.id ∈ n.children) :
    ∀ k ∈ m.children.take 2, k ∈ V.tree.started n := by
  intro k hk
  rw [Tree.started, hb]
  exact List.mem_flatMap.mpr ⟨m.id, hmem, Tree.mem_pair.mpr ⟨m, hm.here, hk⟩⟩

theorem tryCases (hb : n.behavior = .switch) {case : Nat} {ids : List NodeId} (hids : ∀ k ∈ ids, k ∈ n.children) :
    V.Goes G frames frames' (e.tryCases n.toSite case ids) (e'.tryCases n.toSite case ids)
      (Tops (V.tree.Below n.id) (· = .running)) := by
  induction ids generalizing case with
  | nil => exact .pure .nil
  | cons id ids ih =>
    obtain ⟨hid, hrest⟩ := List.forall_mem_cons.mp hids
    refine .node he.fits (he.fits.shared_child hn hid) ?_
    rintro m rfl hm
    have hpair := pair_started hb hm hid
    refine .element fun k hk => ?_
    have hmem : k ∈ V.tree.started n :=
      hpair k (List.mem_of_getElem? (i := 0) (by rw [List.getElem?_take_of_lt (by omega), hk]))
    refine he.bindRun hn hl hmem (fun above habove => .suspended hn rfl habove) fun status hst => ?_
    cases status with
    | running => exact absurd rfl hst
    | success => exact he.caseAction hn hl hpair
    | failure => exact ih hrest

theorem switch (hb : n.behavior = .switch) :
    V.Goes G frames frames' (e.switch n.toSite) (e'.switch n.toSite) (Tops (V.tree.Below n.id) (· = .running)) := by
  refine .saved? hn fun saved _ => ?_
  split
  · exact he.tryCases hn hl hb fun _ hk => hk
  · refine .childStatus fun status _ => .ite (fun _ => .pure .nil) fun _ => .ite (fun _ => ?_) fun _ => ?_
    · refine .element fun id hid => ?_
      have hmem : id ∈ n.children := List.mem_of_getElem? hid
      refine .node he.fits (he.fits.shared_child hn hmem) ?_
      rintro m rfl hm
      exact he.caseAction hn hl (pair_started hb hm hmem)
    · exact he.tryCases hn hl hb fun _ hk => List.mem_of_mem_drop hk
  · exact .still .rejectPayload

theorem branchAt (position : Nat) (hs : V.tree.started n = n.children.take n.behavior.needs)
    (hp : position < n.behavior.needs) :
    V.Goes G frames frames' (e.branchAt n.toSite position) (e'.branchAt n.toSite position)
      (Tops (V.tree.Below n.id) (· = .running)) := by
  refine .element fun k hk => ?_
  refine he.bindRun hn hl (mem_started hs hp hk) (fun above habove => .suspended hn rfl habove) fun status hst => ?_
  cases status with
  | running => exact absurd rfl hst
  | success => exact .pure .nil
  | failure => exact .pure .nil

theorem ifElse (hb : n.behavior = .ifElse) :
    V.Goes G frames frames' (e.ifElse n.toSite) (e'.ifElse n.toSite) (Tops (V.tree.Below n.id) (· = .running)) := by
  have hs : V.tree.started n = n.children.take n.behavior.needs := by rw [Tree.started, hb]
  have hneeds : n.behavior.needs = 3 := by rw [hb]; rfl
  have hbranch : ∀ status, status ≠ .running →
      V.Goes G frames frames' (e.branch n.toSite status) (e'.branch n.toSite status)
        (Tops (V.tree.Below n.id) (· = .running)) := by
    intro status hst
    cases status with
    | running => exact absurd rfl hst
    | success => exact he.branchAt hn hl 1 hs (by omega)
    | failure => exact he.branchAt hn hl 2 hs (by omega)
  refine .saved? hn fun saved _ => ?_
  split
  · refine .element fun k hk => ?_
    exact he.bindRun hn hl (mem_started hs (by omega) hk) (fun above habove => .suspended hn rfl habove) hbranch
  · exact .childStatus hbranch
  · exact .still .childStatus
  · exact .still .rejectPayload

theorem pass {iteration i : Nat} {ids : List NodeId} (hids : ∀ k ∈ ids, k ∈ V.tree.started n) :
    V.Goes G frames frames' (e.pass n.toSite iteration i ids) (e'.pass n.toSite iteration i ids)
      (Tops (V.tree.Below n.id) (· = .suspended)) := by
  induction ids generalizing i with
  | nil => exact .pure .nil
  | cons id ids ih =>
    obtain ⟨hid, hrest⟩ := List.forall_mem_cons.mp hids
    refine he.bindRun hn hl hid (fun above habove => ?_) fun status hst => ?_
    · exact .onTop (a := .suspended) (.bind (.suspendFlat hn rfl) fun _ => .pure _) (fun _ _ _ ho => by cases ho; rfl) rfl
        habove
    · cases status with
      | running => exact absurd rfl hst
      | success => exact ih hrest
      | failure => exact .pure .nil

theorem bindPass {iteration i : Nat} {ids : List NodeId} (hids : ∀ k ∈ ids, k ∈ V.tree.started n)
    {f f' : Engine.PassEnd → TickM σ Status} (hf : f .suspended = pure .running) (hf' : f' .suspended = pure .running)
    (hend : ∀ ending, ending ≠ .suspended →
      V.Goes G frames frames' (f ending) (f' ending) (Tops (V.tree.Below n.id) (· = .running))) :
    V.Goes G frames frames' (e.pass n.toSite iteration i ids >>= f) (e'.pass n.toSite iteration i ids >>= f')
      (Tops (V.tree.Below n.id) (· = .running)) := by
  refine (he.pass hn hl hids).bindTops (fun _ hb => he.fits.below hb hn.shared) ?_ hend
  rintro _ above rfl habove
  rw [hf, hf']
  exact .pure ⟨habove, fun hne => absurd rfl hne⟩

theorem passes (hs : V.tree.started n = n.children) {enter : Nat → TickM σ Unit} (henter : ∀ i, V.Stills (enter i) (enter i))
    (count iteration : Nat) :
    V.Goes G frames frames' (e.passes n.toSite enter count iteration) (e'.passes n.toSite enter count iteration)
      (Tops (V.tree.Below n.id) (· = .running)) := by
  induction count generalizing iteration with
  | zero => exact .pure .nil
  | succ count ih =>
    refine .after (henter iteration) fun _ => he.bindPass hn hl (fun k hk => hs ▸ hk) rfl rfl fun ending hne => ?_
    cases ending with
    | passed => exact ih _
    | failed => exact .pure .nil
    | suspended => exact absurd rfl hne

theorem iterate (hs : V.tree.started n = n.children) (iterations : Nat) {enter : Nat → TickM σ Unit}
    (henter : ∀ i, V.Stills (enter i) (enter i)) :
    V.Goes G frames frames' (e.iterate n.toSite iterations enter) (e'.iterate n.toSite iterations enter)
      (Tops (V.tree.Below n.id) (· = .running)) := by
  refine .saved? hn fun saved _ => ?_
  split
  · exact he.passes hn hl hs henter _ _
  · refine .childStatus fun status hst => ?_
    cases status with
    | running => exact absurd rfl hst
    | failure => exact .pure .nil
    | success =>
      refine .ite (fun _ => ?_) fun _ => .pure .nil
      refine he.bindPass hn hl (fun k hk => hs ▸ List.mem_of_mem_drop hk) rfl rfl fun ending hne => ?_
      cases ending with
      | passed => exact he.passes hn hl hs henter _ _
      | failed => exact .pure .nil
      | suspended => exact absurd rfl hne
  · exact .still .rejectPayload

theorem forEach (hb : n.behavior = .forEach) :
    V.Goes G frames frames' (e.forEach n.toSite) (e'.forEach n.toSite) (Tops (V.tree.Below n.id) (· = .running)) := by
  have hs : V.tree.started n = n.children := by rw [Tree.started, hb]
  refine .bindEnv fun env env' _ hslots => ?_
  rw [hslots.input?]
  split
  · refine he.iterate hn hl hs _ fun i => ?_
    exact .bind .element fun _ => .bind (.writeSlot _ _) fun _ => .writeSlot _ _
  · exact .after (.report _ _) fun _ => .pure .nil

theorem loop {count : Nat} (hb : n.behavior = .loop count) :
    V.Goes G frames frames' (e.loop n.toSite count) (e'.loop n.toSite count) (Tops (V.tree.Below n.id) (· = .running)) := by
  have hs : V.tree.started n = n.children := by rw [Tree.started, hb]
  exact he.iterate hn hl hs count fun _ => .writeSlot _ _

/-! ### Children side by side -/

omit he hn hl in
theorem below_of_branches {saved : List (Option Stack)}
    (h : ∀ p, Payload.branches saved = p → ∀ y ∈ p.nestedFrames, V.tree.Below n.id y) {s : Stack} (hs : some s ∈ saved) :
    ∀ y ∈ s.frames, V.tree.Below n.id y := by
  intro y hy
  refine h _ rfl y (List.mem_flatMap.mpr ⟨s, ?_, hy⟩)
  exact List.mem_filterMap.mpr ⟨some s, hs, rfl⟩

omit he hl in
theorem suspendBranches {left : List (Option Stack)}
    (hleft : ∀ s, some s ∈ left → ∀ y ∈ s.frames, V.tree.Below n.id y) :
    V.Stills (σ := σ) (suspend n.toSite (.branches left)) (suspend n.toSite (.branches left)) := by
  refine .suspend hn fun y hy => ?_
  obtain ⟨s, hs, hy⟩ := List.mem_flatMap.mp hy
  obtain ⟨saved, hsaved, rfl⟩ := List.mem_filterMap.mp hs
  exact hleft s hsaved y hy

omit he hl in
theorem bindBranches {f f' : Option (List (Option Stack)) → TickM σ β}
    (hf : ∀ previous, (∀ saved, previous = some saved → ∀ s, some s ∈ saved → ∀ y ∈ s.frames, V.tree.Below n.id y) →
      V.Goes G frames frames' (f previous) (f' previous) Q) :
    V.Goes G frames frames' (Engine.savedBranches n.toSite >>= f) (Engine.savedBranches n.toSite >>= f') Q := by
  unfold Engine.savedBranches
  rw [bind_assoc, bind_assoc]
  refine .saved? hn fun saved hsaved => ?_
  split
  · exact hf none fun _ h => by cases h
  · rename_i branches
    split
    · refine hf (some branches) ?_
      rintro _ ⟨⟩ s hs
      exact below_of_branches (fun p hp => hsaved p (congrArg some hp)) hs
    · exact fun _ _ ht hs => ⟨⟨[], List.forall_mem_nil _, ht⟩, hs⟩
  · exact fun _ _ ht hs => ⟨⟨[], List.forall_mem_nil _, ht⟩, hs⟩

theorem stepAll {fresh : Bool} {branches : List (NodeId × Option Stack)}
    (hbranches : ∀ b ∈ branches, b.1 ∈ V.tree.started n ∧ ∀ s, b.2 = some s → ∀ y ∈ s.frames, V.tree.Below n.id y) :
    V.Goes G frames frames' (e.stepAll fresh branches) (e'.stepAll fresh branches)
      fun left above => above = [] ∧ ∀ s, some s ∈ left → ∀ y ∈ s.frames, V.tree.Below n.id y := by
  induction branches with
  | nil => exact .pure ⟨rfl, fun _ hs => absurd hs List.not_mem_nil⟩
  | cons branch rest ih =>
    obtain ⟨⟨hk, hsaved⟩, hrest⟩ := List.forall_mem_cons.mp hbranches
    have hnext : ∀ here : Option Stack, (∀ s, here = some s → ∀ y ∈ s.frames, V.tree.Below n.id y) →
        V.Goes G frames frames' (e.stepAll fresh rest >>= fun left => Pure.pure (here :: left))
          (e'.stepAll fresh rest >>= fun left => Pure.pure (here :: left))
          fun left above => above = [] ∧ ∀ s, some s ∈ left → ∀ y ∈ s.frames, V.tree.Below n.id y := by
      intro here hhere
      refine (ih hrest).flat fun left hleft => .pure ⟨rfl, fun s hs => ?_⟩
      rcases List.mem_cons.mp hs with hs | hs
      · exact hhere s hs.symm
      · exact hleft s hs
    refine .ite (fun _ => hnext none fun _ h => by cases h) fun _ => ?_
    refine he.bindBranch hn hl hk (fun s hs => ?_) fun r hr => hnext _ fun s hs => ?_
    · split at hs
      · cases hs
      · exact hsaved s hs
    · split at hs
      · obtain rfl := Option.some.inj hs
        exact hr
      · cases hs

omit he hn hl in
theorem mem_zip_children (hs : V.tree.started n = n.children) {saved : List (Option Stack)}
    (hsaved : ∀ s, some s ∈ saved → ∀ y ∈ s.frames, V.tree.Below n.id y) :
    ∀ b ∈ n.children.zip saved, b.1 ∈ V.tree.started n ∧ ∀ s, b.2 = some s → ∀ y ∈ s.frames, V.tree.Below n.id y := by
  rintro ⟨k, mine⟩ hb
  refine ⟨hs ▸ (List.of_mem_zip hb).1, ?_⟩
  rintro s rfl
  exact hsaved s (List.of_mem_zip hb).2

theorem parallel (hb : n.behavior = .parallel) :
    V.Goes G frames frames' (e.parallel n.toSite) (e'.parallel n.toSite) (Tops (V.tree.Below n.id) (· = .running)) := by
  have hs : V.tree.started n = n.children := by rw [Tree.started, hb]
  refine bindBranches hn fun previous hprevious => ?_
  refine (he.stepAll hn hl (mem_zip_children hs ?_)).flat fun left hleft => ?_
  · intro s hmem
    cases previous with
    | none => simp at hmem
    | some saved => exact hprevious saved rfl s hmem
  · exact .ite (fun _ => .still (suspendBranches hn hleft)) fun _ => .pure .nil

theorem raceAll {fresh : Bool} {passed : List (Option Stack)} {branches : List (NodeId × Option Stack)}
    (hpassed : ∀ s, some s ∈ passed → ∀ y ∈ s.frames, V.tree.Below n.id y)
    (hbranches : ∀ b ∈ branches, b.1 ∈ V.tree.started n ∧ ∀ s, b.2 = some s → ∀ y ∈ s.frames, V.tree.Below n.id y) :
    V.Goes G frames frames' (e.raceAll fresh passed branches) (e'.raceAll fresh passed branches)
      fun r above => above = [] ∧ ∀ s, some s ∈ r.2 → ∀ y ∈ s.frames, V.tree.Below n.id y := by
  induction branches generalizing passed with
  | nil => exact .pure ⟨rfl, fun s hs => hpassed s (List.mem_reverse.mp hs)⟩
  | cons branch rest ih =>
    obtain ⟨⟨hk, hsaved⟩, hrest⟩ := List.forall_mem_cons.mp hbranches
    have hgone : ∀ s, some s ∈ (none : Option Stack) :: passed → ∀ y ∈ s.frames, V.tree.Below n.id y := by
      intro s hs
      rcases List.mem_cons.mp hs with hs | hs
      · cases hs
      · exact hpassed s hs
    refine .ite (fun _ => ih hgone hrest) fun _ => ?_
    refine he.bindBranch hn hl hk (fun s hs => ?_) fun r hr => ?_
    · split at hs
      · cases hs
      · exact hsaved s hs
    · obtain ⟨status, left⟩ := r
      cases status with
      | failure => exact ih hgone hrest
      | running =>
        refine ih (fun s hs => ?_) hrest
        rcases List.mem_cons.mp hs with hs | hs
        · obtain rfl := Option.some.inj hs
          exact hr
        · exact hpassed s hs
      | success =>
        refine .pure ⟨rfl, fun s hs => ?_⟩
        rcases List.mem_append.mp hs with hs | hs
        · exact hpassed s (List.mem_reverse.mp hs)
        · rcases List.mem_cons.mp hs with hs | hs
          · cases hs
          · obtain ⟨b, hb, hs⟩ := List.mem_map.mp hs
            exact (hrest b hb).2 s hs

theorem race (hb : n.behavior = .race) :
    V.Goes G frames frames' (e.race n.toSite) (e'.race n.toSite) (Tops (V.tree.Below n.id) (· = .running)) := by
  have hs : V.tree.started n = n.children := by rw [Tree.started, hb]
  refine bindBranches hn fun previous hprevious => ?_
  refine (he.raceAll hn hl (fun _ hs => absurd hs List.not_mem_nil) (mem_zip_children hs ?_)).flat ?_
  · intro s hmem
    cases previous with
    | some saved => exact hprevious saved rfl s hmem
    | none =>
      obtain ⟨_, -, hs⟩ := List.mem_map.mp hmem
      obtain rfl := Option.some.inj hs
      exact List.forall_mem_nil _
  · rintro ⟨won, left⟩ hleft
    refine .ite (fun _ => ?_) fun _ => .ite (fun _ => ?_) fun _ => .pure .nil
    · refine .after (.forM fun s hs => .abandon he.fits fun y hy => ?_) fun _ => .pure .nil
      obtain ⟨mine, hmine, rfl⟩ := List.mem_filterMap.mp hs
      exact he.fits.below (hleft s hmine y hy) hn.shared
    · exact .still (suspendBranches hn hleft)

/-! ### One child -/

theorem bindCaptured (hk : k ∈ V.tree.started n) {f f' : Status × Stack → TickM σ β}
    (hf : ∀ r, (∀ y ∈ r.2.frames, V.tree.Below n.id y) → V.Goes G frames frames' (f r) (f' r) Q) :
    V.Goes G frames frames' (e.runCaptured k >>= f) (e'.runCaptured k >>= f') Q := by
  have hfresh : ∀ s, (none : Option Stack) = some s → ∀ y ∈ s.frames, V.tree.Below n.id y := fun _ h => by cases h
  exact he.bindBranch hn hl hk hfresh hf

omit hl in
theorem abandonBelow {s : Stack} (hs : ∀ y ∈ s.frames, V.tree.Below n.id y) :
    V.Stills (σ := σ) (abandon s) (abandon s) :=
  .abandon he.fits fun y hy => he.fits.below (hs y hy) hn.shared

omit he hl in
theorem suspendOne {p : Payload} {s : Stack} (hp : p.nested = [s]) (hs : ∀ y ∈ s.frames, V.tree.Below n.id y) :
    V.Stills (σ := σ) (suspend n.toSite p) (suspend n.toSite p) := by
  refine .suspend hn fun y hy => ?_
  rw [Payload.nestedFrames, hp, List.flatMap_singleton] at hy
  exact hs y hy

theorem cleanUp (hs : V.tree.started n = n.children.take n.behavior.needs) (hneeds : 2 < n.behavior.needs) :
    V.Goes G frames frames' (e.cleanUp n.toSite) (e'.cleanUp n.toSite) fun _ above => above = [] ∧ True := by
  refine .element fun k hk => he.bindCaptured hn hl (mem_started hs hneeds hk) ?_
  rintro ⟨status, left⟩ hleft
  refine .ite (fun _ => ?_) fun _ => .pure ⟨rfl, trivial⟩
  refine .after (.report _ _) fun _ => (he.abandonBelow hn hleft G frames frames').mono fun _ _ ha => ⟨ha, trivial⟩

theorem guarded {saved : Option Stack} (hs : V.tree.started n = n.children.take n.behavior.needs)
    (hneeds : 1 < n.behavior.needs) (hsaved : ∀ s, saved = some s → ∀ y ∈ s.frames, V.tree.Below n.id y) :
    V.Goes G frames frames' (e.guarded n.toSite saved) (e'.guarded n.toSite saved)
      (Tops (V.tree.Below n.id) (· = .running)) := by
  refine .element fun k hk => he.bindBranch hn hl (mem_started hs hneeds hk) hsaved ?_
  rintro ⟨status, left⟩ hleft
  cases status with
  | running => exact .still (suspendOne hn rfl hleft)
  | success => exact .pure .nil
  | failure => exact .pure .nil

theorem guard {saved : Option Stack} (hs : V.tree.started n = n.children.take n.behavior.needs)
    (hneeds : 2 < n.behavior.needs) (hsaved : ∀ s, saved = some s → ∀ y ∈ s.frames, V.tree.Below n.id y) :
    V.Goes G frames frames' (e.guard n.toSite saved) (e'.guard n.toSite saved)
      (Tops (V.tree.Below n.id) (· = .running)) := by
  refine .element fun k hk => he.bindRun hn hl (mem_started hs (by omega) hk) ?_ fun status hst => ?_
  · exact fun above habove => .onTop (a := .running) .rejectStatus (fun _ _ _ ho => by cases ho) rfl habove
  · cases status with
    | running => exact absurd rfl hst
    | success => exact he.guarded hn hl hs (by omega) hsaved
    | failure =>
      cases saved with
      | none => exact .pure .nil
      | some s =>
        refine .after (.report _ _) fun _ => .after (he.abandonBelow hn (hsaved s rfl)) fun _ => ?_
        exact (he.cleanUp hn hl hs hneeds).flat fun _ _ => .pure .nil

theorem watchdog (hb : n.behavior = .watchdog) :
    V.Goes G frames frames' (e.watchdog n.toSite) (e'.watchdog n.toSite) (Tops (V.tree.Below n.id) (· = .running)) := by
  have hs : V.tree.started n = n.children.take n.behavior.needs := by rw [Tree.started, hb]
  have hneeds : n.behavior.needs = 3 := by rw [hb]; rfl
  refine .saved? hn fun saved hsaved => ?_
  split
  · exact he.guard hn hl hs (by omega) fun _ h => by cases h
  · rename_i s
    refine he.guard hn hl hs (by omega) ?_
    rintro _ ⟨⟩ y hy
    exact hsaved _ rfl y (List.mem_flatMap.mpr ⟨s, List.mem_singleton_self s, hy⟩)
  · exact .still .rejectPayload

omit hl in
theorem expire {expiry : Float} {r : Status × Stack} (hr : ∀ y ∈ r.2.frames, V.tree.Below n.id y) :
    V.Stills (σ := σ) (Engine.expire n.toSite expiry r) (Engine.expire n.toSite expiry r) := by
  obtain ⟨status, left⟩ := r
  cases status with
  | running =>
    refine .bind .time fun now => .ite ?_ (suspendOne hn rfl hr)
    exact .bind (.report _ _) fun _ => .bind (he.abandonBelow hn hr) fun _ => .pure _
  | success => exact .pure _
  | failure => exact .pure _

theorem timeout {limit : Float} (hb : n.behavior = .timeout limit) :
    V.Goes G frames frames' (e.timeout n.toSite limit) (e'.timeout n.toSite limit)
      (Tops (V.tree.Below n.id) (· = .running)) := by
  have hs : V.tree.started n = n.children.take n.behavior.needs := by rw [Tree.started, hb]
  have hneeds : n.behavior.needs = 1 := by rw [hb]; rfl
  refine .saved? hn fun saved hsaved => ?_
  split
  · refine .element fun k hk => he.bindCaptured hn hl (mem_started hs (by omega) hk) fun r hr => ?_
    exact .after .time fun now => .still (he.expire hn hr)
  · rename_i expiry s
    have hB := he.fits.closed_below hn.shared
    refine (he.resumeCaptured hB hl.heads fun y hy => ?_).flat fun r hr => .still (he.expire hn hr)
    exact hsaved _ rfl y (List.mem_flatMap.mpr ⟨s, List.mem_singleton_self s, hy⟩)
  · exact .still .rejectPayload

theorem wrap (hs : V.tree.started n = n.children.take n.behavior.needs) (hneeds : 0 < n.behavior.needs)
    (result : Status → Status) :
    V.Goes G frames frames' (e.wrap n.toSite result) (e'.wrap n.toSite result)
      (Tops (V.tree.Below n.id) (· = .running)) := by
  have honly : V.Goes G frames frames' (e.onlyChild n.toSite) (e'.onlyChild n.toSite)
      (Tops (V.tree.Below n.id) (· = .running)) := by
    refine .saved? hn fun saved _ => ?_
    split
    · exact .element fun k hk => he.child hn hl (mem_started hs hneeds hk)
    · exact .still .childStatus
    · exact .still .rejectPayload
  refine honly.bindTops (fun _ hb => he.fits.below hb hn.shared) ?_ fun status hst => ?_
  · rintro _ above rfl habove
    exact .suspended hn rfl habove
  · cases status with
    | running => exact absurd rfl hst
    | success => exact .pure .nil
    | failure => exact .pure .nil

theorem once (hb : n.behavior = .once) :
    V.Goes G frames frames' (e.once n.toSite) (e'.once n.toSite) (Tops (V.tree.Below n.id) (· = .running)) := by
  have hs : V.tree.started n = n.children.take n.behavior.needs := by rw [Tree.started, hb]
  have hneeds : 0 < n.behavior.needs := by rw [hb]; decide
  refine .bindEnv fun env env' henv _ => ?_
  rw [henv.isSuspended hn.shared, henv.getPrivate?]
  refine .ite (fun _ => he.wrap hn hl hs hneeds id) fun _ => .ite (fun _ => .pure .nil) fun _ => ?_
  refine .after (.edit (g := (·.setPrivate n.id Engine.onceName (some (.bool true)))) ?_ ?_) fun _ => ?_
  · exact fun _ _ _ _ _ => rfl
  · exact fun _ => rfl
  · exact he.wrap hn hl hs hneeds id

omit he hl in
theorem countRun {limit : Option Nat} {policy : RepeatPolicy} {done : Nat} {status : Status} :
    V.Stills (σ := σ) (Engine.countRun n.toSite limit policy done status) (Engine.countRun n.toSite limit policy done status) :=
  .ite (.pure _) (.ite (.pure _) (.suspendFlat hn rfl))

theorem startRun {limit : Option Nat} {policy : RepeatPolicy} {done : Nat}
    (hs : V.tree.started n = n.children.take n.behavior.needs) (hneeds : 0 < n.behavior.needs) :
    V.Goes G frames frames' (e.startRun n.toSite limit policy done) (e'.startRun n.toSite limit policy done)
      (Tops (V.tree.Below n.id) (· = .running)) := by
  refine .ite (fun _ => .pure .nil) fun _ => .element fun k hk => ?_
  refine he.bindRun hn hl (mem_started hs hneeds hk) (fun above habove => .suspended hn rfl habove) fun status hst => ?_
  cases status with
  | running => exact absurd rfl hst
  | success => exact .still (countRun hn)
  | failure => exact .still (countRun hn)

theorem repeated {limit : Option Nat} {policy : RepeatPolicy} (hb : n.behavior = .repeated limit policy) :
    V.Goes G frames frames' (e.repeated n.toSite limit policy) (e'.repeated n.toSite limit policy)
      (Tops (V.tree.Below n.id) (· = .running)) := by
  have hs : V.tree.started n = n.children.take n.behavior.needs := by rw [Tree.started, hb]
  have hneeds : 0 < n.behavior.needs := by rw [hb]; exact Nat.one_pos
  refine .saved? hn fun saved _ => ?_
  split
  · exact he.startRun hn hl hs hneeds
  · exact .childStatus fun status _ => .still (countRun hn)
  · exact he.startRun hn hl hs hneeds
  · exact .still .rejectPayload

end Children

end Shares

end Variants

end BehaviorTree
