import BehaviorTree.Proofs.Variants.Nodes

/-!
What the two variants of an instance do between ticks: the jobs of the part in common are run on top of whatever is
suspended, and leave that as it was.
-/

namespace BehaviorTree
set_option autoImplicit false

open TickM

variable {σ α β : Type}

namespace Engine

/-- What is done on top of a suspended tree leaves no frames if it fails, and never a last status. -/
theorem aside_ends (m : TickM σ Unit) (c : Activation) (t : Tick σ) :
    aside m c t = (m c t).ends (fun a u => .ok a { u with env := { u.env with lastStatus := t.env.lastStatus } }) fun r u =>
      let (stack, above) := u.env.stack.splitAt t.env.stack.size
      .failed r { u with
        env := { ({ u.env with stack } : Env).abandon above with lastStatus := t.env.lastStatus } } := by
  unfold aside
  simp only [bind_apply, env, attempt_apply]
  cases m c t <;> rfl

end Engine

namespace Variants

variable {V : Variants} {G : Ground} {frames frames' above base base' : List NodeId} {n : Node} {id listener : NodeId}
  {e e' : Engine σ} {t t' : Tick σ} {B : NodeId → Prop} {m m' : TickM σ α} {Q : β → List NodeId → Prop}

variable (V) in
/-- Two computations on some frames leave these as they are, whether they fail or not. -/
def Stays (G : Ground) (frames frames' : List NodeId) (m m' : TickM σ α) : Prop :=
  ∀ t t', V.Ticks G frames frames' t t' → t.env.SameSlots t'.env →
    V.Beside (fun _ _ u u' => V.Ticks G frames frames' u u' ∧ u.env.SameSlots u'.env)
      (fun u u' => V.Ticks G frames frames' u u' ∧ u.env.SameSlots u'.env) (m V.here t) (m' V.there t')

/-- The child of a node that puts it off, or listens for it, starts on top of whatever is suspended. -/
theorem Fits.level_base (hV : V.Fits) (hid : V.shared id) (hb : V.tree.Base id) (hroot : id ≠ V.tree.root)
    (hstands : V.stands G base base') (habove : ∀ x ∈ above, V.shared x ∧ V.tree.Region V.tree.root x) :
    V.Level id (above ++ base) (above ++ base') ∧ (above ++ base).head? ≠ some id := by
  have hapart : ∀ {x : NodeId}, base.head? = some x ∨ base'.head? = some x → ¬ V.shared x := fun h =>
    hV.apart hstands (h.imp List.mem_of_head? List.mem_of_head?)
  cases above with
  | nil =>
    refine ⟨⟨fun hx => ⟨fun h => absurd hx (hapart (.inl h)), fun h => absurd hx (hapart (.inr h))⟩, fun h hx => ?_⟩, ?_⟩
    · exact hapart (.inl h) (hV.below hx hid)
    · exact fun h => hapart (.inl h) hid
  | cons top rest =>
    have htop := (habove top List.mem_cons_self).2
    have houtside : ¬ V.tree.Region id top := fun h =>
      hroot (hV.orderly.base_unique hb Tree.base_root h htop)
    refine ⟨⟨fun _ => Iff.rfl, ?_⟩, ?_⟩
    · rintro x ⟨⟩ hx
      exact houtside hx.region
    · rintro ⟨⟩
      exact houtside (.refl _)

theorem Goes.attempt (h : V.Goes G frames frames' m m' fun _ above => above = []) {f f' : Except RunError α → TickM σ β}
    (hok : ∀ a, V.Goes G frames frames' (f (.ok a)) (f' (.ok a)) Q)
    (herror : ∀ r r' above, (∀ x ∈ above, V.shared x) →
      V.Goes G (above ++ frames) (above ++ frames') (f (.error r)) (f' (.error r')) fun b more => Q b (more ++ above)) :
    V.Goes G frames frames' (attempt m >>= f) (attempt m' >>= f') Q := by
  intro t t' ht hs
  rw [attempt_ends, attempt_ends]
  refine (h t t' ht hs).ends ?_ ?_
  · rintro a _ u u' ⟨rfl, hslots, above, rfl, hu⟩
    exact hok a u u' hu hslots
  · rintro r r' u u' ⟨⟨above, habove, hu⟩, hslots⟩
    refine (herror r r' above habove u u' hu hslots).mono ?_ fun v v' hv => ⟨hv.1.of_append habove, hv.2⟩
    rintro b _ v v' - - ⟨rfl, hslots', more, hq, hv⟩
    exact ⟨rfl, hslots', more ++ above, hq, by simpa only [List.append_assoc] using hv⟩

theorem Stills.assignAll (values : List (String × Option Value)) :
    V.Stills (σ := σ) (Engine.assignAll values) (Engine.assignAll values) :=
  foldl (g := fun env (value : String × Option Value) => env.set value.1 value.2) (fun _ _ _ _ _ _ => rfl) (fun _ _ => rfl)
    values

theorem Envs.park {env env' : Env} (h : V.Envs G frames frames' env env') {parked : Std.ExtTreeMap NodeId Stack}
    (hparked : ∀ (l y : NodeId) (s : Stack), parked[l]? = some s → y ∈ s.frames → V.shared y) :
    V.Envs G frames frames' { env with detached := parked } { env' with detached := parked } := by
  obtain ⟨temps, input, output, rfl⟩ := h.same
  exact ⟨h.stack, ⟨temps, input, output, rfl⟩, h.payloads, fun {l y s} => hparked l y s⟩

theorem Fits.takeOff (hV : V.Fits) (listener : NodeId) :
    V.Stills (σ := σ) (Engine.takeOff listener) (Engine.takeOff listener) := by
  intro G frames frames' t t' ht hs
  have hdetached := ht.env.detached
  unfold Engine.takeOff
  rw [bind_apply, bind_apply]
  dsimp only [env]
  rw [hdetached]
  cases hparked : t.env.detached[listener]? with
  | none => exact ⟨rfl, hs, [], rfl, ht⟩
  | some previous =>
    have henv : V.Envs G frames frames' { t.env with detached := t.env.detached.erase listener }
        { t'.env with detached := t'.env.detached.erase listener } := by
      rw [hdetached]
      refine ht.env.park fun l y s hs hy => ?_
      rw [Std.ExtTreeMap.getElem?_erase] at hs
      split at hs
      · cases hs
      · exact ht.env.parked hs hy
    exact ⟨rfl, ⟨hs.input, hs.output⟩, [], rfl, henv.abandon hV fun y hy => ht.env.parked hparked hy, ht.world⟩

namespace Shares

variable (he : V.Shares e e')
include he

/-- A node that puts nothing on top of what it finds leaves no frames once these are cut off. -/
theorem bindCut (hid : V.shared id) (hl : V.Level id frames frames') (hne : frames.head? ≠ some id)
    {f f' : Status × Stack → TickM σ β}
    (hf : ∀ r, (∀ y ∈ r.2.frames, V.shared y) → V.Goes G frames frames' (f r) (f' r) Q) :
    V.Goes G frames frames' (e.runCaptured id >>= f) (e'.runCaptured id >>= f') Q :=
  (runCaptured (he.call hid hl hne)).flat fun r hr => hf r fun y hy => he.fits.region (hr y hy) hid

/-- The child that was put off runs with the variables that were put by, which then are as they were. -/
theorem runDelayed (hid : V.shared id) (hl : V.Level id frames frames') (hne : frames.head? ≠ some id)
    (cache : List (String × Option Value)) :
    V.Goes G frames frames' (e.runDelayed id cache) (e'.runDelayed id cache) fun _ above => above = [] := by
  refine .bindEnv fun env env' henv _ => ?_
  rw [henv.get?]
  refine .after (.assignAll cache) fun _ => .attempt ?_ (fun _ => .after (.assignAll _) fun _ => .pure rfl) ?_
  · refine he.bindCut hid hl hne ?_
    rintro ⟨status, left⟩ hleft
    cases status with
    | running => exact (Stills.bind (.report _ _) fun _ => .abandon he.fits hleft) G frames frames'
    | success => exact .pure rfl
    | failure => exact .pure rfl
  · exact fun r r' above _ => .after (.assignAll _) fun _ => .fail

/-- The child of a listening node runs for an event, and is parked if it goes on running. -/
theorem runFired (hid : V.shared id) (hl : V.Level id frames frames') (hne : frames.head? ≠ some id)
    (hlistener : V.shared listener) (event : Event) :
    V.Goes G frames frames' (e.runFired listener id event) (e'.runFired listener id event) fun _ above => above = [] := by
  refine .after (he.fits.takeOff listener) fun _ => .node he.fits hlistener fun n _ _ => ?_
  refine .after (.bind (.writeSlot _ _) fun _ => .writeSlot _ _) fun _ => he.bindCut hid hl hne ?_
  rintro ⟨status, left⟩ hleft
  cases status with
  | running =>
    intro t t' ht hs
    refine ⟨rfl, ⟨hs.input, hs.output⟩, [], rfl, ?_, ht.world⟩
    have hdetached := ht.env.detached
    dsimp only
    rw [hdetached]
    refine ht.env.park fun l y s hs hy => ?_
    rw [Std.ExtTreeMap.getElem?_insert] at hs
    split at hs
    · obtain rfl := Option.some.inj hs
      exact hleft y hy
    · exact ht.env.parked hs hy
  | success => exact .pure rfl
  | failure => exact .pure rfl

theorem runFor {job : Job} (hjob : V.Takes job) (hstands : V.stands G base base')
    (habove : ∀ x ∈ above, V.shared x ∧ V.tree.Region V.tree.root x) :
    V.Goes G (above ++ base) (above ++ base') (e.runFor job) (e'.runFor job) fun _ more => more = [] := by
  have hV := he.fits
  cases job with
  | delayed child cache =>
    obtain ⟨⟨d, hput⟩, hshared⟩ := hjob
    obtain ⟨hl, hne⟩ := hV.level_base hshared hput.base (hV.orderly.putsOff_ne_root hput) hstands habove
    exact he.runDelayed hshared hl hne cache
  | fired listener child event =>
    obtain ⟨hlistens, hlistener, hshared⟩ := hjob
    obtain ⟨hl, hne⟩ := hV.level_base hshared hlistens.base (hV.orderly.listens_ne_root hlistens) hstands habove
    exact he.runFired hshared hl hne hlistener event

theorem runJob {job : Job} (hjob : V.Takes job) (hstands : V.stands G base base')
    (habove : ∀ x ∈ above, V.shared x ∧ V.tree.Region V.tree.root x) :
    V.Stays G (above ++ base) (above ++ base') (e.runJob job) (e'.runJob job) := by
  intro t t' ht hs
  have hstarted : V.Ticks G (above ++ base) (above ++ base') { t with world := t.world.observe V.owner (.started job) }
      { t' with world := t'.world.observe V.owner (.started job) } := ⟨ht.env, ht.world.observe _ _⟩
  have hstack : t.env.stack = ⟨above ++ base⟩ := ht.env.stack
  have hstack' : t'.env.stack = ⟨above ++ base'⟩ := ht.env.stack'
  have hlast : t'.env.lastStatus = t.env.lastStatus := ht.env.lastStatus
  change V.Beside _ _ (Engine.aside (e.runFor job) V.here { t with world := t.world.observe V.owner (.started job) })
    (Engine.aside (e'.runFor job) V.there { t' with world := t'.world.observe V.owner (.started job) })
  have hsettle : ∀ {u u' : Env}, V.Envs G (above ++ base) (above ++ base') u u' →
      V.Envs G (above ++ base) (above ++ base') { u with lastStatus := t.env.lastStatus }
        { u' with lastStatus := t'.env.lastStatus } := by
    intro u u' hu
    rw [hlast]
    exact hu.edit (fun env => { env with lastStatus := t.env.lastStatus })
      (fun env => { env with lastStatus := t.env.lastStatus }) (fun _ _ _ input output => ⟨input, output, rfl⟩) rfl rfl rfl
  rw [Engine.aside_ends, Engine.aside_ends]
  refine (he.runFor hjob hstands habove _ _ hstarted hs).ends ?_ ?_
  · rintro a _ u u' ⟨-, hslots, more, rfl, hu⟩
    exact ⟨⟨hsettle hu.env, hu.world⟩, hslots.input, hslots.output⟩
  · rintro r r' u u' ⟨⟨more, hmore, hu⟩, hslots⟩
    have hcut : ∀ below : List NodeId, (⟨more ++ below⟩ : Stack).splitAt below.length = (⟨below⟩, ⟨more⟩) :=
      fun below => Stack.splitAt_append ⟨below⟩ ⟨more⟩
    dsimp only
    rw [hstack, hstack', hu.env.stack, hu.env.stack']
    simp only [Stack.size, hcut]
    have habandoned := (hu.env.setStack (above ++ base) (above ++ base')).abandon he.fits (s := ⟨more⟩) hmore
    exact ⟨⟨hsettle habandoned, hu.world⟩, hslots.input, hslots.output⟩

end Shares

end Variants

end BehaviorTree
