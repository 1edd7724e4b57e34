import BehaviorTree.Proofs.Engine.Correspondence
import BehaviorTree.Proofs.Variants.Behaviors

/-!
Runs of nodes that two variants of a tree have in common: with the same inputs they behave alike, write the same
outputs, and leave their frames in both or in neither.
-/

namespace BehaviorTree
set_option autoImplicit false

open TickM

variable {σ α β : Type}

namespace Variants

variable (V : Variants)

/-- A node that has its frame leaves it as it is, with frames from below the node on top, unless the node has ended. -/
def Leaves (id : NodeId) (frames frames' : List NodeId) (status : Status) (left left' : List NodeId) : Prop :=
  (status = .running → ∃ above, (∀ x ∈ above, V.tree.Below id x) ∧ left = above ++ frames ∧ left' = above ++ frames') ∧
    (status ≠ .running → frames = id :: left ∧ frames' = id :: left')

variable {V} {G : Ground} {frames frames' above base base' : List NodeId} {n : Node} {id : NodeId}
  {e e' : Engine σ} {t t' : Tick σ} {B : NodeId → Prop}

/-! ### Nodes without children, and those that reach beyond their tick -/

theorem Envs.foldl {env env' : Env} (h : V.Envs G frames frames' env env') {g : Env → β → Env}
    (hg : ∀ env b stack temps input output, g { env with stack, temps, input, output } b =
      { g env b with stack, temps, input, output })
    (hd : ∀ env b, (g env b).stack = env.stack ∧ (g env b).temps = env.temps ∧ (g env b).detached = env.detached)
    (bs : List β) : V.Envs G frames frames' (bs.foldl g env) (bs.foldl g env') := by
  induction bs generalizing env env' with
  | nil => exact h
  | cons b bs ih =>
    obtain ⟨hstack, htemps, hdetached⟩ := hd env b
    exact ih (h.edit (g · b) (g · b) (fun env stack temps input output => ⟨input, output, hg env b stack temps input output⟩)
      hstack htemps hdetached)

namespace Stills

theorem foldl {g : Env → β → Env} (hg : ∀ env b stack temps input output, g { env with stack, temps, input, output } b =
      { g env b with stack, temps, input, output }) (hd : ∀ env b, (g env b).detached = env.detached) (bs : List β) :
    V.Stills (σ := σ) (modifyEnv fun env => bs.foldl g env) (modifyEnv fun env => bs.foldl g env) := by
  refine edit (fun env stack temps input output => ?_) fun env => ?_
  · induction bs generalizing env with
    | nil => rfl
    | cons b bs ih => rw [List.foldl_cons, List.foldl_cons, hg, ih]
  · induction bs generalizing env with
    | nil => rfl
    | cons b bs ih => rw [List.foldl_cons, ih, hd]

theorem evaluate (site : Site) (expr : Expression) :
    V.Stills (σ := σ) (Engine.evaluate site expr) (Engine.evaluate site expr) := by
  refine bindEnv fun henv _ => ?_
  rw [henv.get?]
  split
  · exact pure _
  · exact bind (report _ _) fun _ => pure _

theorem check (site : Site) (expr : Expression) : V.Stills (σ := σ) (Engine.check site expr) (Engine.check site expr) :=
  bind (evaluate site expr) fun found => by
    cases found <;> exact pure _

theorem calculate (site : Site) (expr : Expression) :
    V.Stills (σ := σ) (Engine.calculate site expr) (Engine.calculate site expr) :=
  bind (evaluate site expr) fun found => by
    cases found with
    | none => exact pure _
    | some v => exact bind (pushOutput _) fun _ => pure _

theorem copy (site : Site) : V.Stills (σ := σ) (Engine.copy site) (Engine.copy site) := by
  refine bindEnv fun _ hslots => ?_
  rw [hslots.input?]
  exact bind (pushOutput _) fun _ => pure _

theorem inputIsNull : V.Stills (σ := σ) Engine.inputIsNull Engine.inputIsNull := by
  refine bindEnv fun _ hslots => ?_
  rw [hslots.input?]
  split <;> exact pure _

theorem log (site : Site) (level : BehaviorTree.Level) (text : String) :
    V.Stills (σ := σ) (Engine.log site level text) (Engine.log site level text) :=
  bindEnv fun _ _ => bind (report _ _) fun _ => pure _

theorem now : V.Stills (σ := σ) Engine.now Engine.now := bind time fun _ => bind (pushOutput _) fun _ => pure _

theorem waitUntil (hn : V.Has n) (expiry : Float) :
    V.Stills (σ := σ) (Engine.waitUntil n.toSite expiry) (Engine.waitUntil n.toSite expiry) :=
  bind time fun _ => ite (pure _) (suspendFlat hn rfl)

theorem settle (hn : V.Has n) (ending : Ending) :
    V.Stills (σ := σ) (Engine.settle n.toSite ending) (Engine.settle n.toSite ending) := by
  cases ending with
  | finish status => exact pure _
  | suspend memo => cases memo <;> exact suspendFlat hn rfl
  | reject => exact rejectPayload

theorem leaf (hn : V.Has n) (react : Leaf) :
    V.Stills (σ := σ) (Engine.leaf n.toSite react) (Engine.leaf n.toSite react) := by
  refine bindEnv fun {G frames frames' env env'} henv hslots => bind time fun now => ?_
  have hvars : env'.vars = env.vars := by
    obtain ⟨temps, rfl⟩ := henv.eq_of_slots hslots
    rfl
  rw [hvars, henv.payloads.same hn.shared, hslots.input]
  refine bind (foldl (g := fun env (write : String × Option Value) => env.set write.1 write.2)
    (fun _ _ _ _ _ _ => rfl) (fun _ _ => rfl) _) fun _ => bind ?_ fun _ => ?_
  · intro G frames frames' t t' ht hs
    refine ⟨rfl, ?_, [], rfl, ?_, ht.world⟩
    · simp only [Env.foldl_pushOutput]
      exact ⟨hs.input, congrArg (· ++ _) hs.output⟩
    · simp only [Env.foldl_pushOutput]
      exact ht.env.edit (fun env => { env with output := env.output ++ _ }) (fun env => { env with output := env.output ++ _ })
        (fun _ _ _ input _ => ⟨input, _, rfl⟩) rfl rfl rfl
  · exact ite (bind interrupt fun _ => settle hn _) (settle hn _)

theorem target? (site : Site) (slot : Nat) : V.Stills (σ := σ) (Engine.target? site slot) (Engine.target? site slot) := by
  refine bindEnv fun _ hslots => ?_
  rw [hslots.input?]
  split
  · exact pure _
  · exact pure _
  · exact bind (report _ _) fun _ => pure _

theorem child {site : Site} {i : Nat} : V.Stills (σ := σ) (TickM.child site i) (TickM.child site i) := element

end Stills

theorem Fits.startListening (hV : V.Fits) (hn : V.Has n) {event : String} (hb : n.behavior = .listen event)
    (target : Option String) :
    V.Stills (σ := σ) (Engine.startListening n.toSite event target) (Engine.startListening n.toSite event target) := by
  refine .bind .owner fun owner => fun G frames frames' => .element fun k hk => ?_
  have hstill : V.Stills (σ := σ)
      (modifyWorld (fun w => (w.subscribe ⟨event, target⟩ owner (.node owner n.id k)).2) >>= fun _ =>
        modifyEnv (fun env => { env with listening := env.listening.insert n.id }) >>= fun _ =>
          report (fun tree => .listening tree n.id event) >>= fun _ => pure Status.success)
      (modifyWorld (fun w => (w.subscribe ⟨event, target⟩ owner (.node owner n.id k)).2) >>= fun _ =>
        modifyEnv (fun env => { env with listening := env.listening.insert n.id }) >>= fun _ =>
          report (fun tree => .listening tree n.id event) >>= fun _ => pure Status.success) := by
    refine .bind (.modifyWorld fun w w' hw => hw.subscribe _ _ ?_) fun _ => .bind ?_ fun _ =>
      .bind (.report _ _) fun _ => .pure _
    · exact fun _ => ⟨⟨n, event, hn.here, hb, hk⟩, hn.shared, hV.shared_child hn (List.mem_of_getElem? hk)⟩
    · exact .edit (fun _ _ _ _ _ => rfl) fun _ => rfl
  exact hstill G frames frames'

theorem Fits.listen (hV : V.Fits) (hn : V.Has n) {event : String} (hb : n.behavior = .listen event) :
    V.Stills (σ := σ) (Engine.listen n.toSite event) (Engine.listen n.toSite event) := by
  refine .bindEnv fun henv _ => ?_
  rw [henv.listening]
  refine .ite (.pure _) (.ite (.bind .owner fun _ => hV.startListening hn hb _) (.bind (.target? _ _) fun found => ?_))
  cases found with
  | none => exact .pure _
  | some target => exact hV.startListening hn hb target

theorem Fits.putOff (hV : V.Fits) (hn : V.Has n) {span : Float} {cache : List String} (hb : n.behavior = .delay span cache) :
    V.Stills (σ := σ) (Engine.putOff n.toSite span cache) (Engine.putOff n.toSite span cache) := by
  refine .bind .owner fun owner => .bindEnv fun {G frames frames' env env'} henv hslots => ?_
  rw [henv.get?]
  intro G frames frames'
  refine .element fun k hk => ?_
  have hstill : ∀ job : Job, V.Takes job → V.Stills (σ := σ)
      (modifyWorld (fun w => (w.delay span owner (.job owner job)).2) >>= fun _ => pure Status.success)
      (modifyWorld (fun w => (w.delay span owner (.job owner job)).2) >>= fun _ => pure Status.success) := fun job hjob =>
    .bind (.modifyWorld fun w w' hw => hw.delay _ _ fun _ => hjob) fun _ => .pure _
  have hput : V.tree.PutsOff n.id k := ⟨n, span, cache, hn.here, hb, hk⟩
  exact hstill (.delayed k _) ⟨⟨n.id, hput⟩, hV.shared_child hn (List.mem_of_getElem? hk)⟩ G frames frames'

theorem Shares.dispatchNode (he : V.Shares e e') (site : Site) (event : String) :
    V.Stills (e.dispatchNode site event) (e'.dispatchNode site event) := by
  refine .bind (.target? site 0) fun found => ?_
  cases found with
  | none => exact .pure _
  | some target =>
    refine .bindEnv fun _ hslots => ?_
    rw [hslots.input?]
    refine .bind (he.dispatch _ _) fun heard => .ite (.bind ?_ fun _ => .pure _) (.pure _)
    exact .modifyWorld fun w w' hw => hw.report _ _

theorem Stills.wait (hn : V.Has n) (span : Float) :
    V.Stills (σ := σ) (Engine.wait n.toSite span) (Engine.wait n.toSite span) := by
  intro G frames frames'
  refine .saved? hn fun saved _ => ?_
  split
  · exact waitUntil hn _ G frames frames'
  · exact rejectPayload G frames frames'
  · refine .bindEnv fun env env' _ hslots => ?_
    rw [hslots.input?]
    split
    · exact bind time (fun _ => waitUntil hn _) G frames frames'
    · split
      · exact bind time (fun _ => waitUntil hn _) G frames frames'
      · exact bind (report _ _) (fun _ => pure _) G frames frames'

/-! ### Nodes -/

theorem Ticks.opened (ht : V.Ticks G frames frames' t t') (n : Node) (resumed : Bool) :
    V.Ticks G frames frames' (t.opened V.here n resumed) (t'.opened V.there n resumed) ∧
      (t.opened V.here n resumed).env.SameSlots (t'.opened V.there n resumed).env := by
  have hget := ht.env.get?
  refine ⟨⟨?_, ht.world.observe _ _⟩, ⟨?_, rfl⟩⟩
  · exact ht.env.edit (fun env => { env with input := n.input.map env.get?, output := [] })
      (fun env => { env with input := n.input.map env.get?, output := [] }) (fun _ _ _ _ _ => ⟨_, _, rfl⟩) rfl rfl rfl
  · exact congrArg n.input.map hget

theorem Ticks.closed {before before' : Env} {w w' : World σ} (ht : V.Ticks G frames frames' t t')
    (hw : V.Worlds V.Rests w w') :
    V.Ticks G frames frames' ⟨{ t.env with input := before.input, output := before.output }, w⟩
      ⟨{ t'.env with input := before'.input, output := before'.output }, w'⟩ := by
  refine ⟨?_, hw⟩
  exact ht.env.edit (fun env => { env with input := before.input, output := before.output })
    (fun env => { env with input := before'.input, output := before'.output }) (fun _ _ _ _ _ => ⟨_, _, rfl⟩) rfl rfl rfl

namespace Shares

variable (he : V.Shares e e')
include he

/-- What a node in common does, with its frame on the stack or not. -/
theorem behave (hn : V.Has n) (hl : V.Level n.id frames frames') :
    V.Goes G frames frames' (e.behave n.toSite n.behavior) (e'.behave n.toSite n.behavior)
      (Tops (V.tree.Below n.id) (· = .running)) := by
  have hplain := he.fits.orderly.plain hn.here
  cases hb : n.behavior with
  | sequence | selector => exact he.resumeChain hn hl (by rw [Tree.started, hb])
  | parallel => exact he.parallel hn hl hb
  | race => exact he.race hn hl hb
  | switch => exact he.switch hn hl hb
  | case => exact fun t t' ht hs => ⟨⟨[], List.forall_mem_nil _, ht⟩, hs⟩
  | ifElse => exact he.ifElse hn hl hb
  | forEach => exact he.forEach hn hl hb
  | loop count => exact he.loop hn hl hb
  | watchdog => exact he.watchdog hn hl hb
  | repeated limit policy => exact he.repeated hn hl hb
  | invert | always => exact he.wrap hn hl (by rw [Tree.started, hb]) (by rw [hb]; exact Nat.one_pos) _
  | once => exact he.once hn hl hb
  | timeout limit => exact he.timeout hn hl hb
  | delay span cache => exact .still (he.fits.putOff hn hb)
  | wait span => exact .still (.wait hn span)
  | listen event => exact .still (he.fits.listen hn hb)
  | dispatch event => exact .still (he.dispatchNode _ _)
  | check expr => exact .still (.check _ _)
  | calculate expr => exact .still (.calculate _ _)
  | copy => exact .still (.copy _)
  | isNull | notNull => exact .still (.bind .inputIsNull fun _ => .pure _)
  | log level text => exact .still (.log _ _ _)
  | now => exact .still .now
  | leaf react => exact .still (.leaf hn react)
  | routine steps =>
    rw [hb] at hplain
    exact hplain.elim

omit he in
theorem conclude (hn : V.Has n) (hl : V.Level n.id frames frames') {status : Status} {output : List (Option Value)}
    (habove : Tops (V.tree.Below n.id) (· = .running) status above)
    (ht : V.Ticks G (above ++ frames) (above ++ frames') t t') :
    V.Beside (fun a a' u u' => a = a' ∧ ∃ left left', V.Leaves n.id frames frames' a left left' ∧ V.Ticks G left left' u u')
      (V.Fails G frames frames') (Engine.conclude n status output V.here t) (Engine.conclude n status output V.there t') := by
  by_cases hs : status = .running
  · subst hs
    have henv : V.Envs G (above ++ frames) (above ++ frames') { t.env with lastStatus := .running }
        { t'.env with lastStatus := .running } :=
      ht.env.edit (fun env => { env with lastStatus := .running }) (fun env => { env with lastStatus := .running })
        (fun _ _ _ input output => ⟨input, output, rfl⟩) rfl rfl rfl
    rw [Engine.conclude_running_eq, Engine.conclude_running_eq, henv.isSuspended hn.shared]
    refine ⟨rfl, _, _, ⟨fun _ => ⟨above, habove.1, rfl, rfl⟩, fun h => absurd rfl h⟩, ?_, ht.world⟩
    dsimp only
    split
    · exact henv
    · exact henv.setPayload hn.shared (fun y hy => absurd hy List.not_mem_nil)
  · obtain rfl := habove.2 hs
    have henv : V.Envs G frames frames' (Engine.writeOutputs { t.env with lastStatus := status } n.output output)
        (Engine.writeOutputs { t'.env with lastStatus := status } n.output output) := by
      refine (ht.env.edit (fun env => { env with lastStatus := status }) (fun env => { env with lastStatus := status })
        (fun _ _ _ input output => ⟨input, output, rfl⟩) rfl rfl rfl).foldl ?_ ?_ _
      · rintro env ⟨name, value⟩ stack temps input output
        dsimp only
        split <;> rfl
      · rintro env ⟨name, value⟩
        dsimp only
        split <;> exact ⟨rfl, rfl, rfl⟩
    rw [Engine.conclude_ended_eq hs, Engine.conclude_ended_eq hs, Engine.leaveFrame_apply, Engine.leaveFrame_apply]
    dsimp only
    rw [henv.stack, henv.stack']
    -- A node leaves its frame only if that is on top, which it is in both or in none.
    have hheads : (⟨frames⟩ : Stack).top? = some n.id ↔ (⟨frames'⟩ : Stack).top? = some n.id := hl.heads hn.shared
    by_cases htop : (⟨frames⟩ : Stack).top? = some n.id
    · rw [if_pos htop, if_pos (hheads.mp htop)]
      obtain ⟨left, hleft⟩ := List.head?_eq_some_iff.mp htop
      obtain ⟨left', hleft'⟩ := List.head?_eq_some_iff.mp (hheads.mp htop)
      exact ⟨rfl, left, left', ⟨fun h => absurd h hs, fun _ => ⟨hleft, hleft'⟩⟩, henv.popFrame hn.shared hleft hleft', ht.world⟩
    · rw [if_neg htop, if_neg fun h => htop (hheads.mpr h)]
      exact ⟨[], List.forall_mem_nil _, henv, ht.world⟩

theorem runFramed (hn : V.Has n) (hl : V.Level n.id frames frames') (resumed : Bool) :
    V.Calls G [] frames frames' (e.runFramed n resumed) (e'.runFramed n resumed) (V.Leaves n.id frames frames') := by
  intro t t' ht
  obtain ⟨hopen, hslots⟩ := ht.opened n resumed
  have hprocess := he.behave hn hl _ _ hopen hslots
  rw [Engine.runFramed_eq, Engine.runFramed_eq, attempt_ends, attempt_ends]
  refine hprocess.ends ?_ ?_
  · rintro status _ u u' ⟨rfl, hsame, above, habove, hu⟩
    obtain ⟨w, hw, hclose⟩ := Engine.closeNode_ok n resumed t.env status V.here u
    obtain ⟨w', hw', hclose'⟩ := Engine.closeNode_ok n resumed t'.env status V.there u'
    have hseen := hu.world.observe V.owner (.returned n.id (some status))
    have hworld : V.Worlds V.Rests w w' := by
      have hhere : V.Worlds V.Rests w (u'.world.observe V.owner (.returned n.id (some status))) := by
        rcases hw with rfl | ⟨r, rfl⟩
        · exact hseen
        · exact hseen.recordHere rfl
      rcases hw' with rfl | ⟨r, rfl⟩
      · exact hhere
      · exact hhere.recordThere rfl
    have hflag : (u'.world.instanceOf V.there.owner).interrupted = (u.world.instanceOf V.here.owner).interrupted :=
      hu.world.interrupted V.owner
    rw [hclose, hclose', hflag]
    split
    · refine ⟨rfl, _, _, ⟨fun _ => ⟨above, habove.1, rfl, rfl⟩, fun h => absurd rfl h⟩, hu.closed (hu.world.observe _ _)⟩
    · rw [hsame.output]
      exact conclude hn hl habove (hu.closed hworld)
  · rintro r r' u u' ⟨⟨above, habove, hu⟩, -⟩
    exact ⟨above, habove, hu.closed (hu.world.observe _ _)⟩

/-- A node that is not suspended gets a frame, and has none left when it has ended. One that is suspended goes on with
the frame that it has. -/
theorem runNode (hn : V.Has n) (hl : V.Level n.id frames frames') :
    V.Calls G [] frames frames' (e.runNode n) (e'.runNode n) (V.Ends n.id frames frames') := by
  intro t t' ht
  have hsame : t'.env.isSuspended n.id = t.env.isSuspended n.id := ht.env.isSuspended hn.shared
  rw [Engine.runNode_eq, Engine.runNode_eq, hsame]
  by_cases hresumed : t.env.isSuspended n.id = true
  · rw [if_pos hresumed, if_pos hresumed]
    refine (he.runFramed hn hl _ _ _ ht).mono ?_ fun _ _ hu => hu
    rintro status _ u u' - - ⟨rfl, left, left', hleft, hu⟩
    refine ⟨rfl, left, left', ⟨fun hr => ?_, fun hr => .inr (hleft.2 hr)⟩, hu⟩
    obtain ⟨above, habove, hleft⟩ := hleft.1 hr
    exact ⟨above, fun x hx => (habove x hx).region, hleft⟩
  · rw [if_neg hresumed, if_neg hresumed]
    have hpush : V.Ticks G ([] ++ n.id :: frames) ([] ++ n.id :: frames') (t.pushed n.id) (t'.pushed n.id) := by
      have hstack : t.env.stack = ⟨frames⟩ := ht.env.stack
      have hstack' : t'.env.stack = ⟨frames'⟩ := ht.env.stack'
      refine ⟨?_, ht.world⟩
      unfold Tick.pushed
      rw [hstack, hstack']
      exact ht.env.setStack (n.id :: frames) (n.id :: frames')
    refine (he.runFramed hn (.push he.fits n.id frames frames') _ _ _ hpush).mono ?_ fun u u' hu => ?_
    · rintro status _ u u' - - ⟨rfl, left, left', hleft, hu⟩
      refine ⟨rfl, left, left', ⟨fun hr => ?_, fun hr => .inl ?_⟩, hu⟩
      · obtain ⟨above, habove, rfl, rfl⟩ := hleft.1 hr
        refine ⟨above ++ [n.id], fun x hx => ?_, by simp, by simp⟩
        rcases List.mem_append.mp hx with hx | hx
        · exact (habove x hx).region
        · rw [List.mem_singleton.mp hx]
          exact .refl n.id
      · obtain ⟨hleft, hleft'⟩ := hleft.2 hr
        exact ⟨(List.cons.inj hleft).2.symm, (List.cons.inj hleft').2.symm⟩
    · have hfails : V.Fails G ([n.id] ++ frames) ([n.id] ++ frames') u u' := hu
      refine hfails.of_append fun x hx => ?_
      rw [List.mem_singleton.mp hx]
      exact hn.shared

theorem runDeeper (hid : V.shared id) (hl : V.Level id frames frames') :
    V.Calls G [] frames frames' (e.deeper.run id) (e'.deeper.run id) (V.Ends id frames frames') := by
  obtain ⟨n, rfl, hn⟩ := he.fits.has hid
  intro t t' ht
  have hhere : V.here.tree.get? n.id = some n := hn.here
  have hthere : V.there.tree.get? n.id = some n := hn.there
  change V.Beside _ _ ((TickM.node n.id >>= fun n => e.runNode n) V.here t)
    ((TickM.node n.id >>= fun n => e'.runNode n) V.there t')
  rw [bind_node hhere, bind_node hthere]
  exact he.runNode hn hl t t' ht

theorem resumeAbove (hheads : V.Heads base base') (hB : V.Closed B) (habove : ∀ x ∈ above, B x) :
    V.Calls G above base base' (e.resumeAbove base.length) (e'.resumeAbove base'.length) (Resumes B base base') := by
  intro t t' ht
  have hstack := ht.env.stack
  have hstack' := ht.env.stack'
  cases above with
  | nil =>
    rw [Engine.resumeAbove_of_le, Engine.resumeAbove_of_le, ht.env.lastStatus]
    · exact ⟨rfl, base, base', ⟨[], rfl, rfl, .nil⟩, ht⟩
    · rw [hstack']
      exact Nat.le_refl _
    · rw [hstack]
      exact Nat.le_refl _
  | cons top rest =>
    obtain ⟨htop, hrest⟩ := List.forall_mem_cons.mp habove
    have hdeep : ∀ below : List NodeId, below.length ≤ (rest ++ below).length := fun below => by
      rw [List.length_append]
      omega
    rw [Engine.resumeAbove_of_lt (congrArg Stack.frames hstack) (hdeep base),
      Engine.resumeAbove_of_lt (congrArg Stack.frames hstack') (hdeep base')]
    have hl : V.Level top (top :: (rest ++ base)) (top :: (rest ++ base')) := .push he.fits top _ _
    refine (he.run (hB.shared htop) hl t t' ht).bind (fun u u' hu => ?_) ?_
    · have hfails : V.Fails G ((top :: rest) ++ base) ((top :: rest) ++ base') u u' := hu
      exact hfails.of_append fun x hx => hB.shared (habove x hx)
    · rintro status _ u u' ⟨rfl, left, left', hends, hu⟩
      by_cases hr : status = .running
      · subst hr
        obtain ⟨more, hmore, rfl, rfl⟩ := hends.1 rfl
        refine ⟨rfl, _, _, ⟨more ++ top :: rest, by simp, by simp, fun x hx => ?_, fun hnot => absurd rfl hnot⟩, hu⟩
        rcases List.mem_append.mp hx with hx | hx
        · exact hB.region htop (hmore x hx)
        · exact habove x hx
      · have hgo : ∀ left : List NodeId, (∀ x ∈ left, B x) → V.Ticks G (left ++ base) (left ++ base') u u' →
            V.Beside (fun a a' u u' => a = a' ∧ ∃ left left', Resumes B base base' a left left' ∧ V.Ticks G left left' u u')
              (V.Fails G base base') (e.resume base.length V.here u) (e'.resume base'.length V.there u') :=
          fun left hleft hu => he.resume hheads hB hleft u u' hu
        have hnext : V.Beside
            (fun a a' u u' => a = a' ∧ ∃ left left', Resumes B base base' a left left' ∧ V.Ticks G left left' u u')
            (V.Fails G base base') (e.resume base.length V.here u) (e'.resume base'.length V.there u') := by
          rcases hends.2 hr with ⟨rfl, rfl⟩ | ⟨hleft, hleft'⟩
          · exact hgo (top :: rest) habove hu
          · obtain ⟨-, rfl⟩ := List.cons.inj hleft
            obtain ⟨-, rfl⟩ := List.cons.inj hleft'
            exact hgo rest hrest hu
        cases status with
        | running => exact absurd rfl hr
        | success => exact hnext
        | failure => exact hnext

end Shares

end Variants

end BehaviorTree
