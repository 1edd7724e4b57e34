import BehaviorTree.Proofs.Variants.Life

/-!
What only one of two variants does: it pushes, opens, suspends and closes nodes that the other one does not have, while
the other one waits. Neither hosts nor the nodes in common can tell.
-/

namespace BehaviorTree
set_option autoImplicit false

open TickM

variable {σ α β γ : Type}

theorem Outcome.ends_self (o : Outcome σ α) : o.ends .ok .failed = o := by cases o <;> rfl

/-- A node has ended with a status, and none has run since. -/
def Tick.told (t : Tick σ) (status : Status) : Tick σ := { t with env := { t.env with lastStatus := status } }

structure Temps.At (id : NodeId) (f : Temps → Temps) : Prop where
  others (temps : Temps) {x : NodeId} : x ≠ id → (f temps)[x]? = temps[x]?
  own (temps temps' : Temps) : temps[id]? = temps'[id]? → (f temps)[id]? = (f temps')[id]?

namespace Temps.At

theorem same (id : NodeId) : At id fun temps => temps := ⟨fun _ _ _ => rfl, fun _ _ h => h⟩

theorem insert (id : NodeId) (p : Payload) : At id fun temps => temps.insert id p where
  others temps x hx := by rw [get_insert, if_neg hx.symm]
  own temps temps' _ := by rw [get_insert, get_insert, if_pos rfl, if_pos rfl]

theorem erase (id : NodeId) : At id fun temps => temps.erase id where
  others temps x hx := by rw [get_erase, if_neg hx.symm]
  own temps temps' _ := by rw [get_erase, get_erase, if_pos rfl, if_pos rfl]

/-- Maps that agree on all but one node's payload still do after the change, and on that one if they did. -/
theorem congr {id x : NodeId} {f : Temps → Temps} (hf : At id f) {temps temps' : Temps} (h : temps[x]? = temps'[x]?) :
    (f temps)[x]? = (f temps')[x]? := by
  by_cases hx : x = id
  · subst hx
    exact hf.own _ _ h
  · rw [hf.others _ hx, hf.others _ hx, h]

end Temps.At

namespace Variants

variable (V : Variants)

def Unseen (w w' : World σ) : Prop :=
  ∃ journal : Array Entry, w' = { w with journal } ∧ journal.toList.filter V.shows = w.journal.toList.filter V.shows

/-- One variant does something on its own: it changes frames, a payload and slot values, unseen. -/
structure Solo (top : List NodeId) (f : Temps → Temps) (t u : Tick σ) : Prop where
  env : ∃ input output, u.env = { t.env with stack := ⟨top⟩, temps := f t.env.temps, input, output }
  world : V.Unseen t.world u.world

def Alike (t t' : Tick σ) : Prop :=
  V.Worlds V.Rests t.world t'.world ∧ ∃ stack temps input output, t'.env = { t.env with stack, temps, input, output }

/-- Once an interruption is asked for, there is nothing to compare but what the two have in common. Otherwise they have
come to the same status, in states as described. -/
structure Comes (Q : Status → Tick σ → Tick σ → Prop) (a b : Status) (t t' : Tick σ) : Prop where
  worlds : V.Worlds V.Rests t.world t'.world
  stopped : (t.world.instanceOf V.owner).interrupted = true → V.Alike t t'
  settled : (t.world.instanceOf V.owner).interrupted = false → a = b ∧ Q a t t'

/-- What two variants stand on: some frames while something runs, and others once all of it has ended. -/
def Stopped (P : Ground → List NodeId → List NodeId → Prop) (G : Ground) (frames frames' : List NodeId)
    (status : Status) (t t' : Tick σ) : Prop :=
  (status = .running → ∃ G' left left', P G' left left' ∧ V.Ticks G' left left' t t') ∧
    (status ≠ .running → V.Ticks G frames frames' t t')

variable {V} {G G' : Ground} {frames frames' top below : List NodeId} {t t' u u' : Tick σ} {f : Temps → Temps} {id : NodeId}
  {n : Node} {w w' : World σ} {a b status : Status} {env env' : Env} {temps temps' : Temps}
  {Q Q' : Status → Tick σ → Tick σ → Prop} {P : Ground → List NodeId → List NodeId → Prop} {R : Env → Env → Prop}

/-! ### One variant alone -/

namespace Unseen

theorem refl (w : World σ) : V.Unseen w w := ⟨w.journal, rfl, rfl⟩

theorem record (h : V.Unseen w w') {e : Entry} (he : V.shows e = false) : V.Unseen w (w'.record e) := by
  obtain ⟨journal, rfl, hshown⟩ := h
  exact ⟨journal.push e, rfl, by simp [List.filter_append, hshown, he]⟩

theorem observe (h : V.Unseen w w') {a : Activity} (ha : a.node? = some id) (hid : ¬ V.shared id) :
    V.Unseen w (w'.observe V.owner a) := by
  refine h.record ?_
  simp [shows, ha, hid]

theorem report (h : V.Unseen w w') (r : Report) : V.Unseen w (w'.report r) := h.record rfl

end Unseen

theorem Worlds.unseenHere (hw : V.Worlds R w w') {v : World σ} (h : V.Unseen w v) : V.Worlds R v w' := by
  obtain ⟨journal, rfl, hshown⟩ := h
  exact ⟨hw.same, hw.others, hw.mine, hw.given, hw.shown.trans hshown.symm, hw.listeners, hw.alarms⟩

theorem Worlds.unseenThere (hw : V.Worlds R w w') {v : World σ} (h : V.Unseen w' v) : V.Worlds R w v := by
  obtain ⟨journal, rfl, hshown⟩ := h
  exact ⟨by rw [hw.same], hw.others, hw.mine, hw.given, hshown.trans hw.shown, hw.listeners, hw.alarms⟩

theorem Unseen.interrupted (h : V.Unseen w w') (p : Tag) :
    (w'.instanceOf p).interrupted = (w.instanceOf p).interrupted := by
  obtain ⟨journal, rfl, -⟩ := h
  rfl

theorem Payloads.here_at (h : V.Payloads G temps temps') (hid : ¬ V.shared id) (hf : Temps.At id f) :
    V.Payloads ⟨f G.here, G.there⟩ (f temps) temps' := by
  have hsame : ∀ {x : NodeId}, V.shared x → (f temps)[x]? = temps[x]? := fun hx =>
    hf.others _ fun heq => hid (heq ▸ hx)
  refine ⟨fun hx => ?_, fun hx => hf.congr (h.here hx), h.there, fun hx hp => ?_⟩
  · rw [hsame hx, h.same hx]
  · rw [hsame hx] at hp
    exact h.below hx hp

theorem Payloads.there_at (h : V.Payloads G temps temps') (hid : ¬ V.shared id) (hf : Temps.At id f) :
    V.Payloads ⟨G.here, f G.there⟩ temps (f temps') := by
  refine ⟨fun hx => ?_, h.here, fun hx => hf.congr (h.there hx), h.below⟩
  rw [hf.others _ fun heq => hid (heq ▸ hx), h.same hx]

namespace Ticks

theorem here (ht : V.Ticks G frames frames' t t') (hid : ¬ V.shared id) (hf : Temps.At id f) (h : V.Solo top f t u) :
    V.Ticks ⟨f G.here, G.there⟩ top frames' u t' := by
  obtain ⟨input, output, henv⟩ := h.env
  obtain ⟨temps', input', output', hsame⟩ := ht.env.same
  refine ⟨⟨?_, ⟨temps', input', output', ?_⟩, ?_, ?_⟩, ht.world.unseenHere h.world⟩
  · rw [henv]
  · rw [henv, hsame]
  · rw [henv]
    exact ht.env.payloads.here_at hid hf
  · rw [henv]
    exact ht.env.parked

theorem there (ht : V.Ticks G frames frames' t t') (hid : ¬ V.shared id) (hf : Temps.At id f) (h : V.Solo top f t' u') :
    V.Ticks ⟨G.here, f G.there⟩ frames top t u' := by
  obtain ⟨input, output, henv⟩ := h.env
  obtain ⟨temps', input', output', hsame⟩ := ht.env.same
  refine ⟨⟨ht.env.stack, ⟨f t'.env.temps, input, output, ?_⟩, ?_, ht.env.parked⟩, ht.world.unseenThere h.world⟩
  · rw [henv, hsame]
  · rw [henv]
    exact ht.env.payloads.there_at hid hf

theorem told (ht : V.Ticks G frames frames' t t') (status : Status) :
    V.Ticks G frames frames' (t.told status) (t'.told status) :=
  ⟨ht.env.edit (fun env => { env with lastStatus := status }) (fun env => { env with lastStatus := status })
    (fun _ _ _ input output => ⟨input, output, rfl⟩) rfl rfl rfl, ht.world⟩

theorem alike (ht : V.Ticks G frames frames' t t') : V.Alike t t' := by
  obtain ⟨temps, input, output, henv⟩ := ht.env.same
  exact ⟨ht.world, _, temps, input, output, henv⟩

theorem congr (ht : V.Ticks G frames frames' t t') (hhere : ∀ x, ¬ V.shared x → G'.here[x]? = G.here[x]?)
    (hthere : ∀ x, ¬ V.shared x → G'.there[x]? = G.there[x]?) : V.Ticks G' frames frames' t t' := by
  have hp := ht.env.payloads
  refine ⟨⟨ht.env.stack, ht.env.same, ⟨hp.same, fun hx => ?_, fun hx => ?_, hp.below⟩, ht.env.parked⟩, ht.world⟩
  · rw [hhere _ hx, hp.here hx]
  · rw [hthere _ hx, hp.there hx]

end Ticks

namespace Alike

theorem here (ht : V.Alike t t') (h : V.Solo top f t u) : V.Alike u t' := by
  obtain ⟨hw, stack, temps, input, output, hsame⟩ := ht
  obtain ⟨input', output', henv⟩ := h.env
  refine ⟨hw.unseenHere h.world, stack, temps, input, output, ?_⟩
  rw [henv, hsame]

theorem there (ht : V.Alike t t') (h : V.Solo top f t' u') : V.Alike t u' := by
  obtain ⟨hw, stack, temps, input, output, hsame⟩ := ht
  obtain ⟨input', output', henv⟩ := h.env
  refine ⟨hw.unseenThere h.world, ⟨top⟩, f t'.env.temps, input', output', ?_⟩
  rw [henv, hsame]

theorem interrupted (ht : V.Alike t t') :
    (t'.world.instanceOf V.owner).interrupted = (t.world.instanceOf V.owner).interrupted := ht.1.interrupted V.owner

end Alike

namespace Solo

/-- A node gets its frame, unless it is suspended, and its slots. -/
theorem entered (c : Activation) (hc : c.owner = V.owner) (hn : ¬ V.shared n.id)
    (hstack : t.env.stack = ⟨if t.env.isSuspended n.id then n.id :: below else below⟩) :
    V.Solo (n.id :: below) (fun temps => temps) t (n.entered c t) := by
  have hseen : ∀ resumed : Bool, V.Unseen t.world (t.world.observe c.owner (.called n.id resumed)) := fun resumed => by
    rw [hc]
    exact .observe (.refl _) rfl hn
  unfold Node.entered
  cases hsuspended : t.env.isSuspended n.id with
  | true =>
    rw [hsuspended, if_pos rfl] at hstack
    rw [if_pos rfl]
    refine ⟨⟨n.input.map t.env.get?, [], ?_⟩, hseen true⟩
    rw [Tick.opened, ← hstack]
  | false =>
    rw [hsuspended, if_neg Bool.false_ne_true] at hstack
    rw [if_neg Bool.false_ne_true]
    refine ⟨⟨n.input.map t.env.get?, [], ?_⟩, hseen false⟩
    rw [Tick.opened, Tick.pushed, hstack]
    rfl

theorem suspended (t : Tick σ) (id : NodeId) (p : Payload) :
    V.Solo t.env.stack.frames (fun temps => temps.insert id p) t { t with env := t.env.setPayload id p } :=
  ⟨⟨_, _, rfl⟩, .refl _⟩

end Solo

/-! ### How a node of one variant is closed -/

section Close

variable (c : Activation) (before : Env) (resumed : Bool)

theorem Solo.failed (hc : c.owner = V.owner) (hn : ¬ V.shared n.id) (r : RunError) (u : Tick σ) :
    ∃ v, Engine.closeNode n resumed before (.error r) c u = .failed r v ∧
      V.Solo u.env.stack.frames (fun temps => temps) u v := by
  refine ⟨_, rfl, ⟨_, _, rfl⟩, ?_⟩
  rw [hc]
  exact .observe (.refl _) rfl hn

/-- The process of a node has ended while an interruption is asked for. -/
theorem Solo.stopped (status : Status) (hc : c.owner = V.owner) (hn : ¬ V.shared n.id)
    (hflag : (u.world.instanceOf V.owner).interrupted = true) :
    ∃ v, Engine.closeNode n resumed before (.ok status) c u = .ok .running v ∧
      V.Solo u.env.stack.frames (fun temps => temps) u v := by
  obtain ⟨w, -, hclose⟩ := Engine.closeNode_ok n resumed before status c u
  rw [hclose, hc, if_pos hflag]
  exact ⟨_, rfl, ⟨_, _, rfl⟩, .observe (.refl _) rfl hn⟩

theorem Unseen.concluded (status : Status) (hc : c.owner = V.owner) (hn : ¬ V.shared n.id)
    (hflag : (u.world.instanceOf V.owner).interrupted = false) :
    ∃ w, V.Unseen u.world w ∧ Engine.closeNode n resumed before (.ok status) c u =
      Engine.conclude n status u.env.output c ⟨{ u.env with input := before.input, output := before.output }, w⟩ := by
  obtain ⟨w, hw, hclose⟩ := Engine.closeNode_ok n resumed before status c u
  rw [hc] at hw hclose
  have hobserved : V.Unseen u.world (u.world.observe V.owner (.returned n.id (some status))) := .observe (.refl _) rfl hn
  refine ⟨w, ?_, by rw [hclose, if_neg (by rw [hflag]; exact Bool.false_ne_true)]⟩
  rcases hw with rfl | ⟨r, rfl⟩
  · exact hobserved
  · exact hobserved.report r

theorem Solo.running (hc : c.owner = V.owner) (hn : ¬ V.shared n.id)
    (hflag : (u.world.instanceOf V.owner).interrupted = false) (hsaved : u.env.isSuspended n.id) :
    ∃ v, Engine.closeNode n resumed before (.ok .running) c u = .ok .running v ∧
      V.Solo u.env.stack.frames (fun temps => temps) (u.told .running) v := by
  obtain ⟨w, hseen, hclose⟩ := Unseen.concluded c before resumed .running hc hn hflag
  rw [hclose, Engine.conclude_running_eq]
  refine ⟨_, rfl, ?_, hseen⟩
  split
  · exact ⟨_, _, rfl⟩
  · rename_i hnot
    exact absurd hsaved hnot

/-- A node has ended, and has put nothing out. Its frame goes with its payload. -/
theorem Solo.ended (hc : c.owner = V.owner) (hn : ¬ V.shared n.id)
    (hflag : (u.world.instanceOf V.owner).interrupted = false) (hs : status ≠ .running) (houtput : u.env.output = [])
    (hstack : u.env.stack = ⟨n.id :: below⟩) :
    ∃ v, Engine.closeNode n resumed before (.ok status) c u = .ok status v ∧
      V.Solo below (fun temps => temps.erase n.id) (u.told status) v := by
  obtain ⟨w, hseen, hclose⟩ := Unseen.concluded c before resumed status hc hn hflag
  have hnothing : ∀ env : Env, Engine.writeOutputs env n.output [] = env := fun env => by
    rw [Engine.writeOutputs, List.zip_nil_right]
    rfl
  rw [hclose, Engine.conclude_ended_eq hs, Engine.leaveFrame_apply, houtput, hnothing]
  dsimp only
  rw [hstack, if_pos (by rfl)]
  refine ⟨_, rfl, ⟨before.input, before.output, ?_⟩, hseen⟩
  simp only [Env.popFrame, Stack.pop, hstack, Tick.told]

variable {o : Outcome σ Status} {m m' : TickM σ Status}

theorem Beside.closeThere (hn : ¬ V.shared n.id)
    (hP : ∀ {G' left left'}, P G' left left' → G'.there[n.id]? ≠ none)
    (houtput : ∀ status u', m' V.there t' = .ok status u' → u'.env.output = [])
    (h : V.Beside (V.Comes fun status u u' => V.Stopped P G frames (n.id :: below) status (u.told status) (u'.told status))
      V.Alike o (m' V.there t')) :
    V.Beside (V.Comes fun status u u' =>
        V.Stopped P ⟨G.here, G.there.erase n.id⟩ frames below status (u.told status) u') V.Alike o
      ((attempt m' >>= Engine.closeNode n resumed before) V.there t') := by
  have hput : V.Beside (fun a b u u' => V.Comes (fun status u u' =>
        V.Stopped P G frames (n.id :: below) status (u.told status) (u'.told status)) a b u u' ∧ u'.env.output = [])
      V.Alike o (m' V.there t') :=
    h.mono (fun a b u u' _ ho hu => ⟨hu, houtput b u' ho⟩) fun _ _ hu => hu
  rw [attempt_ends, ← Outcome.ends_self o]
  refine hput.ends ?_ ?_
  · rintro a b u u' ⟨⟨hw, hstopped, hsettled⟩, houtput⟩
    have hsame := hw.interrupted V.owner
    cases hflag : (u.world.instanceOf V.owner).interrupted with
    | true =>
      rw [hflag] at hsame
      obtain ⟨v, hclose, hv⟩ := Solo.stopped V.there before resumed b rfl hn hsame
      rw [hclose]
      refine ⟨hw.unseenThere hv.world, fun _ => (hstopped hflag).there hv, fun hnot => ?_⟩
      rw [hflag] at hnot
      cases hnot
    | false =>
      rw [hflag] at hsame
      obtain ⟨rfl, hrunning, hended⟩ := hsettled hflag
      have hnot : ¬ (u.world.instanceOf V.owner).interrupted = true := by rw [hflag]; exact Bool.false_ne_true
      by_cases hs : a = .running
      · subst hs
        obtain ⟨G', left, left', hp, ht⟩ := hrunning rfl
        have hsaved : u'.env.isSuspended n.id = true := by
          rw [Env.isSuspended_eq]
          have hpayload : u'.env.temps[n.id]? = G'.there[n.id]? := ht.env.payloads.there hn
          rw [hpayload]
          exact Option.isSome_iff_ne_none.mpr (hP hp)
        obtain ⟨v, hclose, hv⟩ := Solo.running V.there before resumed rfl hn hsame hsaved
        rw [hclose]
        refine ⟨hw.unseenThere hv.world, fun hyes => absurd hyes hnot, fun _ => ⟨rfl, fun _ => ?_, fun hne => absurd rfl hne⟩⟩
        have hstack : u'.env.stack = ⟨left'⟩ := ht.env.stack'
        rw [hstack] at hv
        exact ⟨G', left, left', hp, ht.there hn (.same n.id) hv⟩
      · have ht := hended hs
        have hstack : u'.env.stack = ⟨n.id :: below⟩ := ht.env.stack'
        obtain ⟨v, hclose, hv⟩ := Solo.ended V.there before resumed rfl hn hsame hs houtput hstack
        rw [hclose]
        refine ⟨hw.unseenThere hv.world, fun hyes => absurd hyes hnot, fun _ => ⟨rfl, fun hr => absurd hr hs, fun _ => ?_⟩⟩
        exact ht.there hn (.erase n.id) hv
  · rintro r r' u u' hu
    obtain ⟨v, hclose, hv⟩ := Solo.failed V.there before resumed rfl hn r' u'
    rw [hclose]
    exact hu.there hv

theorem Beside.closeHere {o' : Outcome σ Status} (hn : ¬ V.shared n.id)
    (hP : ∀ {G' left left'}, P G' left left' → G'.here[n.id]? ≠ none)
    (houtput : ∀ status u, m V.here t = .ok status u → u.env.output = [])
    (h : V.Beside (V.Comes fun status u u' => V.Stopped P G (n.id :: below) frames' status (u.told status) u')
      V.Alike (m V.here t) o') :
    V.Beside (V.Comes fun status u u' => V.Stopped P ⟨G.here.erase n.id, G.there⟩ below frames' status u u') V.Alike
      ((attempt m >>= Engine.closeNode n resumed before) V.here t) o' := by
  have hput : V.Beside (fun a b u u' => V.Comes (fun status u u' =>
        V.Stopped P G (n.id :: below) frames' status (u.told status) u') a b u u' ∧ u.env.output = [])
      V.Alike (m V.here t) o' :=
    h.mono (fun a b u u' ho _ hu => ⟨hu, houtput a u ho⟩) fun _ _ hu => hu
  rw [attempt_ends, ← Outcome.ends_self o']
  refine hput.ends ?_ ?_
  · rintro a b u u' ⟨⟨hw, hstopped, hsettled⟩, houtput⟩
    cases hflag : (u.world.instanceOf V.owner).interrupted with
    | true =>
      obtain ⟨v, hclose, hv⟩ := Solo.stopped V.here before resumed a rfl hn hflag
      rw [hclose]
      have hkept := (hv.world.interrupted V.owner).trans hflag
      refine ⟨hw.unseenHere hv.world, fun _ => (hstopped hflag).here hv, fun hnot => ?_⟩
      rw [hkept] at hnot
      cases hnot
    | false =>
      obtain ⟨rfl, hrunning, hended⟩ := hsettled hflag
      have hnot : ∀ {v : Tick σ}, V.Unseen u.world v.world → ¬ (v.world.instanceOf V.owner).interrupted = true := by
        intro v hv
        rw [hv.interrupted, hflag]
        exact Bool.false_ne_true
      by_cases hs : a = .running
      · subst hs
        obtain ⟨G', left, left', hp, ht⟩ := hrunning rfl
        have hsaved : u.env.isSuspended n.id = true := by
          rw [Env.isSuspended_eq]
          have hpayload : u.env.temps[n.id]? = G'.here[n.id]? := ht.env.payloads.here hn
          rw [hpayload]
          exact Option.isSome_iff_ne_none.mpr (hP hp)
        obtain ⟨v, hclose, hv⟩ := Solo.running V.here before resumed rfl hn hflag hsaved
        rw [hclose]
        refine ⟨hw.unseenHere hv.world, fun hyes => absurd hyes (hnot hv.world),
          fun _ => ⟨rfl, fun _ => ?_, fun hne => absurd rfl hne⟩⟩
        have hstack : u.env.stack = ⟨left⟩ := ht.env.stack
        rw [hstack] at hv
        exact ⟨G', left, left', hp, ht.here hn (.same n.id) hv⟩
      · have ht := hended hs
        have hstack : u.env.stack = ⟨n.id :: below⟩ := ht.env.stack
        obtain ⟨v, hclose, hv⟩ := Solo.ended V.here before resumed rfl hn hflag hs houtput hstack
        rw [hclose]
        refine ⟨hw.unseenHere hv.world, fun hyes => absurd hyes (hnot hv.world),
          fun _ => ⟨rfl, fun hr => absurd hr hs, fun _ => ?_⟩⟩
        exact ht.here hn (.erase n.id) hv
  · rintro r r' u u' hu
    obtain ⟨v, hclose, hv⟩ := Solo.failed V.here before resumed rfl hn r u
    rw [hclose]
    exact hu.here hv

end Close

/-! ### How such a node is run -/

section Run

variable {o : Outcome σ Status} {d : Nat}

theorem output_nil (hquiet : ∀ (v : Tick σ) values, n.behavior.Pushes n.toSite v values → values = []) {c : Activation}
    (hopen : t.env.output = []) (h : (Engine.ofDepth d).behave n.toSite n.behavior c t = .ok status u) :
    u.env.output = [] := by
  have hputs := (Engine.restoring_ofDepth d).behave n.toSite n.behavior c t
  rw [h] at hputs
  obtain ⟨-, values, hvalues, houtput⟩ := hputs
  rw [houtput, hopen, hquiet t values hvalues, List.nil_append]

variable (hn : ¬ V.shared n.id) (hquiet : ∀ (v : Tick σ) values, n.behavior.Pushes n.toSite v values → values = [])
include hn hquiet

/-- The second variant runs a node, whose frame is on top if it is suspended. -/
theorem Beside.runThere {base' : List NodeId} (hget : V.tree'.get? n.id = some n)
    (hbase : base' = if (G.there[n.id]?).isSome then n.id :: below else below)
    (hP : ∀ {G' left left'}, P G' left left' → G'.there[n.id]? ≠ none) (ht : V.Ticks G frames base' t t')
    (h : ∀ v', V.Ticks G frames (n.id :: below) t v' →
      V.Beside (V.Comes fun status u u' => V.Stopped P G frames (n.id :: below) status (u.told status) (u'.told status))
        V.Alike o ((Engine.ofDepth d).behave n.toSite n.behavior V.there v')) :
    V.Beside (V.Comes fun status u u' => V.Stopped P ⟨G.here, G.there.erase n.id⟩ frames below status (u.told status) u')
      V.Alike o ((Engine.ofDepth (d + 1)).run n.id V.there t') := by
  have hpayload : t'.env.temps[n.id]? = G.there[n.id]? := ht.env.payloads.there hn
  have hstack : t'.env.stack = ⟨if t'.env.isSuspended n.id then n.id :: below else below⟩ := by
    rw [Env.isSuspended_eq, hpayload, ← hbase]
    exact ht.env.stack'
  have hentered := ht.there hn (.same _) (.entered V.there rfl hn hstack)
  rw [Engine.run_ofDepth hget, Engine.runNode_eq, Engine.runFramed_eq]
  exact Beside.closeThere _ _ hn hP (fun _ _ ho => output_nil hquiet rfl ho) (h _ hentered)

theorem Beside.startThere (hget : V.tree'.get? n.id = some n) (hidle : G.there[n.id]? = none)
    (hP : ∀ {G' left left'}, P G' left left' → G'.there[n.id]? ≠ none) (ht : V.Ticks G frames below t t')
    (h : ∀ v', V.Ticks G frames (n.id :: below) t v' →
      V.Beside (V.Comes fun status u u' => V.Stopped P G frames (n.id :: below) status (u.told status) (u'.told status))
        V.Alike o ((Engine.ofDepth d).behave n.toSite n.behavior V.there v')) :
    V.Beside (V.Comes fun status u u' => V.Stopped P G frames below status (u.told status) u') V.Alike o
      ((Engine.ofDepth (d + 1)).run n.id V.there t') := by
  have hrun := Beside.runThere hn hquiet hget (by rw [hidle]; rfl) hP ht h
  rwa [Temps.erase_of_none hidle] at hrun

/-- The first variant runs a node, whose frame is on top if it is suspended. What the other one goes on from then may
have changed in the end. -/
theorem Beside.runHere {G₁ : Ground} {base left' : List NodeId} (hget : V.tree.get? n.id = some n)
    (hbase : base = if (G.here[n.id]?).isSome then n.id :: below else below)
    (hP : ∀ {G' left left'}, P G' left left' → G'.here[n.id]? ≠ none) (ht : V.Ticks G base frames' t t')
    (h : ∀ v, V.Ticks G (n.id :: below) frames' v t' →
      V.Beside (V.Comes fun status u u' => V.Stopped P G₁ (n.id :: below) left' status (u.told status) u') V.Alike
        ((Engine.ofDepth d).behave n.toSite n.behavior V.here v) o) :
    V.Beside (V.Comes fun status u u' => V.Stopped P ⟨G₁.here.erase n.id, G₁.there⟩ below left' status u u') V.Alike
      ((Engine.ofDepth (d + 1)).run n.id V.here t) o := by
  have hpayload : t.env.temps[n.id]? = G.here[n.id]? := ht.env.payloads.here hn
  have hstack : t.env.stack = ⟨if t.env.isSuspended n.id then n.id :: below else below⟩ := by
    rw [Env.isSuspended_eq, hpayload, ← hbase]
    exact ht.env.stack
  have hentered := ht.here hn (.same _) (.entered V.here rfl hn hstack)
  rw [Engine.run_ofDepth hget, Engine.runNode_eq, Engine.runFramed_eq]
  exact Beside.closeHere _ _ hn hP (fun _ _ ho => output_nil hquiet rfl ho) (h _ hentered)

theorem Beside.startHere (hget : V.tree.get? n.id = some n) (hidle : G.here[n.id]? = none)
    (hP : ∀ {G' left left'}, P G' left left' → G'.here[n.id]? ≠ none) (ht : V.Ticks G below frames' t t')
    (h : ∀ v, V.Ticks G (n.id :: below) frames' v t' →
      V.Beside (V.Comes fun status u u' => V.Stopped P G (n.id :: below) frames' status (u.told status) u') V.Alike
        ((Engine.ofDepth d).behave n.toSite n.behavior V.here v) o) :
    V.Beside (V.Comes fun status u u' => V.Stopped P G below frames' status u u') V.Alike
      ((Engine.ofDepth (d + 1)).run n.id V.here t) o := by
  have hrun := Beside.runHere hn hquiet hget (by rw [hidle]; rfl) hP ht h
  rwa [Temps.erase_of_none hidle] at hrun

end Run

end Variants

end BehaviorTree
