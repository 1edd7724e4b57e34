import BehaviorTree.Proofs.Engine.Continuation

/-!
Jobs on top of a suspended tree. The child of a listening or delaying node runs in a region of its own: it gives the
frames of the tree back as it found them, and unless it loses suspended nodes its region is then idle, or its frames
are detached. What is asked of the state of an instance holds again after every job.
-/

namespace BehaviorTree
set_option autoImplicit false

open TickM

variable {σ : Type}

def Job.child : Job → NodeId
  | .delayed child _ => child
  | .fired _ child _ => child

def Job.listener? : Job → Option NodeId
  | .delayed _ _ => none
  | .fired listener _ _ => some listener

/-- The suspended tree sees nothing of a job: the main stack is as it was, and so are the payloads of its frames and of
those saved under them, the detached stacks of other listening nodes, and the last status. -/
structure Job.Unseen (job : Job) (env env' : Env) : Prop where
  stack : env'.stack = env.stack
  saved {x : NodeId} : env.temps.Leads env.stack.frames x → env'.temps[x]? = env.temps[x]?
  detached {l : NodeId} : job.listener? ≠ some l → env'.detached[l]? = env.detached[l]?
  lastStatus : env'.lastStatus = env.lastStatus

namespace Zone

variable {t : Tree}

def whole (t : Tree) : Zone t where
  region := fun _ => True
  calls := fun _ => True
  strays := fun _ => False
  parks := fun _ => True
  base := []
  steady := False
  within := id
  closed := fun _ _ => trivial
  apart := by simp

@[simp] theorem not_steady_whole (t : Tree) : ¬ (whole t).steady := fun hz => hz

def aside (t : Tree) (env : Env) (k : NodeId) (h : ∀ x ∈ env.stack.frames, ¬ t.Region k x) : Zone t where
  region := t.Region k
  calls := t.Region k
  strays := env.Stray
  parks := fun l => t.Listens l k
  base := env.stack.frames
  steady := True
  within := id
  closed := @Tree.Region.starts t k
  apart := fun hx => h _ hx

theorem calls_of {z : Zone t} {k x : NodeId} (hk : z.calls k) (h : t.Region k x) : z.calls x := by
  induction h with
  | refl => exact hk
  | tail _ hs ih => exact z.closed (z.within ih) hs

theorem whole_holds {env : Env} (hf : env.Fits t) : (whole t).Holds env :=
  ⟨⟨env.stack.frames, (List.append_nil _).symm, fun _ _ => ⟨trivial, fun hn => hn⟩⟩,
    fun _ _ _ => ⟨⟨trivial, fun hn => hn⟩, by simp⟩, fun _ _ _ => ⟨trivial, fun hn => hn⟩, fun hx => hx.elim, hf⟩

end Zone

/-- What is beside a region that runs on its own, while none of its frames is detached. -/
theorem Env.Ordered.beside {t : Tree} {env env' : Env} {spilled : Bool} {k : NodeId} {base : List NodeId}
    (h : env.Ordered t spilled) (ht : t.Orderly) (hk : t.Base k)
    (htemps : ∀ {x : NodeId} {p : Payload}, env'.temps[x]? = some p → env.temps[x]? = some p)
    (hd : ∀ {l : NodeId} {s : Stack}, env'.detached[l]? = some s → env.detached[l]? = some s ∧ ¬ t.Listens l k) :
    t.Beside env' k base := by
  refine .of_base ht hk (fun l s hs => ?_) fun x y p hp hy => h.inward (htemps hp) hy
  obtain ⟨hs, hnot⟩ := hd hs
  obtain ⟨j, hj, hframes⟩ := h.detached hs
  exact ⟨j, hj.base, fun he => hnot (he ▸ hj), hframes⟩

structure Tick.Cleared (c : Activation) (k : NodeId) (t : Tick σ) : Prop where
  spilled : (t.watch c).spilled = false
  detached {l : NodeId} : c.tree.Listens l k → t.env.detached[l]? = none
  idle : c.tree.Idle t.env.temps k

/-- A job of a child has failed: what it left in the region is led to by frames on the base, or something is lost. -/
structure Tick.Failed (c : Activation) (k : NodeId) (base : List NodeId) (t : Tick σ) : Prop where
  detached {l : NodeId} : c.tree.Listens l k → t.env.detached[l]? = none
  inward : c.tree.Inward t.env.temps k
  frames {above : List NodeId} : t.env.stack.frames = above ++ base → ∀ x ∈ above, c.tree.Region k x
  litter : ∃ lost, (t.watch c).spilled = lost ∧ t.Litter c k base lost

/-- How a job of a child has ended: with nothing left of it, with its stack detached, or with nodes lost. -/
inductive Tick.Handled (c : Activation) (k : NodeId) (t : Tick σ) : Prop where
  | cleared : t.Cleared c k → Handled c k t
  | parked {l : NodeId} {s : Stack} : (t.watch c).spilled = false → c.tree.Listens l k →
      t.env.detached[l]? = some s → c.tree.Suspended t.env.temps k s.frames → Handled c k t
  | lost {z : NodeId} : (t.watch c).spilled = true → (∀ l, c.tree.Listens l k → t.env.detached[l]? = none) →
      c.tree.Region k z → t.env.temps[z]? ≠ none →
      (∀ x p, c.tree.Region k x → t.env.temps[x]? = some p → z ∉ p.nestedFrames) → Handled c k t

variable {R : Rules σ} {c : Activation} {t t' u : Tick σ} {e : Engine σ} {k l : NodeId} {job : Job}
  {frames base : List NodeId}

namespace Engine.Confined

open Zone

variable {z : Zone c.tree}

section Aside

variable (hk : z.calls k) (hb : z.steady → frames = z.base)
include hk hb

theorem runBase (he : e.Confined R) :
    z.Stays R frames (e.runCaptured k) fun r frames' =>
      (∀ y ∈ r.2.frames, z.Admits y) ∧ (z.steady → frames' = frames) := by
  have hnot : z.steady → ∀ x, frames.head? = some x → ¬ c.tree.Region k x := by
    intro hs x hx hr
    rw [hb hs] at hx
    exact z.apart (List.mem_of_mem_head? hx) (calls_of hk hr)
  have hrun : z.Stays R frames (e.run k) (z.Rises (c.tree.Region k) frames) := by
    refine (he.run hk fun hs x hx hr => absurd hr (hnot hs x hx)).mono ?_
    intro status frames' hends hs
    by_cases hrunning : status = .running
    · obtain ⟨above, hf, ha⟩ := (hends hs).1 hrunning
      exact ⟨above, hf, ha, fun hne => absurd hrunning hne⟩
    · rcases (hends hs).2 hrunning with hf | hf
      · exact ⟨[], hf, by simp, fun _ => rfl⟩
      · exact absurd (.refl k) (hnot hs k (by rw [hf]; rfl))
  refine (runCaptured hrun).mono ?_
  rintro r frames' ⟨hr, hsame⟩
  exact ⟨fun y hy => (hr y hy).1, hsame⟩

omit hk hb in
theorem assignAll (values : List (String × Option Value)) :
    z.Rests R (assignAll (σ := σ) values) fun _ => True := by
  intro frames t t' hf hs
  have hcalm := (Tick.Calm.refl hf.runs).writes values
  exact ⟨hf.calm hcalm, hcalm.stack ▸ hs, trivial⟩

theorem runDelayed (he : e.Confined R) (cache : List (String × Option Value)) :
    z.Stays R frames (e.runDelayed k cache) fun _ frames' => z.steady → frames' = frames := by
  have hbody : z.Stays R frames (e.runCaptured k >>= cutOff k) fun _ frames' => z.steady → frames' = frames := by
    refine .bind (runBase hk hb he) fun r frames' h => ?_
    obtain ⟨status, left⟩ := r
    obtain ⟨hadm, hsame⟩ := h
    cases status with
    | running => exact .after (.report _) fun _ _ => .of_rests (.abandon hadm) fun _ _ => hsame
    | success => exact .pure hsame
    | failure => exact .pure hsame
  rw [Engine.runDelayed]
  refine .after .env fun env _ => .after (assignAll _) fun _ _ => ?_
  refine .bind (P := fun r frames' => ∀ a, r = .ok a → z.steady → frames' = frames) ?_ fun r frames' hr =>
    .after (assignAll _) fun _ _ => ?_
  · intro t t' hf hs
    rw [meets_attempt]
    refine (hbody t t' hf hs).mono ?_ fun _ _ h => ⟨h, by simp⟩
    rintro a v ⟨hv, hsame⟩
    exact ⟨hv, fun _ _ => hsame⟩
  · cases r with
    | ok a => exact .pure (hr a rfl)
    | error err => exact .fail

omit hk hb in
theorem writeEvent (n : Node) (event : Event) : z.Rests R (writeEvent (σ := σ) n event) fun _ => True :=
  .bind (writeSlot _ _) fun _ _ => writeSlot _ _

omit hk hb in
theorem detach {t t' : Tick σ} {env : Env} (hl : z.parks l) (hf : z.From R t t')
    (henv : env = { t'.env with detached := env.detached })
    (hd : ∀ l', l' ≠ l → env.detached[l']? = t'.env.detached[l']?)
    (hs : ∀ s, env.detached[l]? = some s → ∀ y ∈ s.frames, z.Admits y) : z.From R t { t' with env } := by
  rw [henv]
  refine hf.env ⟨hf.holds.frames, hf.holds.nested, ?_, hf.holds.strays, hf.holds.fits⟩ ⟨fun _ => rfl, ?_⟩
  · intro l' y s hl' hs' hy
    by_cases hll : l' = l
    · subst hll
      exact hs s hs' y hy
    · rw [hd l' hll] at hs'
      exact hf.holds.parked hl' hs' hy
  · intro l' hl'
    refine hd l' ?_
    rintro rfl
    exact hl' hl

omit hk hb in
theorem takeOff (hl : z.parks l) : z.Rests R (takeOff (σ := σ) l) fun _ => True := by
  refine .bind .env fun env henv => ?_
  cases hprev : env.detached[l]? with
  | none => exact .pure trivial
  | some previous =>
    have hadm : ∀ y ∈ previous.frames, z.Admits y := fun y hy => henv.parked hl hprev hy
    refine .bind (P := fun _ => True) ?_ fun _ _ => .abandon hadm
    intro frames' t t' hf hs
    refine ⟨detach hl hf rfl ?_ ?_, hs, trivial⟩
    · intro l' hne
      simp [Std.ExtTreeMap.getElem?_erase, Ne.symm hne]
    · intro s hs'
      simp at hs'

theorem runFired (he : e.Confined R) (hl : z.parks l) (event : Event) :
    z.Stays R frames (e.runFired l k event) fun _ frames' => z.steady → frames' = frames := by
  rw [Engine.runFired]
  refine .after (takeOff hl) fun _ _ => .after (.node l) fun n _ => .after (writeEvent n event) fun _ _ => ?_
  refine .bind (runBase hk hb he) fun r frames' h => ?_
  obtain ⟨status, left⟩ := r
  obtain ⟨hadm, hsame⟩ := h
  cases status with
  | running =>
    intro t t' hf hs
    refine ⟨detach hl hf rfl ?_ ?_, fun hst => hs.trans (hsame hst)⟩
    · intro l' hne
      simp [Std.ExtTreeMap.getElem?_insert, Ne.symm hne]
    · intro s hs' y hy
      obtain rfl : left = s := by simpa using hs'
      exact hadm y hy
  | success => exact .pure hsame
  | failure => exact .pure hsame

omit hk in
theorem runFor (he : e.Confined R) (hjob : ∀ l child event, job = .fired l child event → z.parks l)
    (hk : z.calls job.child) :
    z.Stays R frames (e.runFor job) fun _ frames' => z.steady → frames' = frames := by
  cases job with
  | delayed child cache => exact runDelayed hk hb he cache
  | fired l child event => exact runFired hk hb he (hjob l child event rfl) event

omit hk in
/-- Whether it fails or not, what is done on top of the frames below gives them back, and the last status. -/
theorem aside {m : TickM σ Unit} (hm : z.Stays R frames m fun _ frames' => z.steady → frames' = frames)
    (hf : z.From R t t') (hs : t'.env.stack.frames = frames) :
    (Engine.aside m c t').Meets
      (fun _ u => z.From R t u ∧ (z.steady → u.env.stack.frames = frames) ∧ u.env.lastStatus = t'.env.lastStatus)
      (fun _ u => z.From R t u ∧ (z.steady → u.env.stack.frames = frames) ∧ u.env.lastStatus = t'.env.lastStatus)
      (R.Tolerates t.world c.owner) := by
  have hlast : ∀ {u : Tick σ} (status : Status), z.From R t u →
      z.From R t { u with env := { u.env with lastStatus := status } } := fun status hu =>
    hu.env ⟨hu.holds.frames, hu.holds.nested, hu.holds.parked, hu.holds.strays, hu.holds.fits⟩
      ⟨fun _ => rfl, fun _ => rfl⟩
  simp only [Engine.aside, meets_bind, meets_env, meets_attempt]
  refine (hm t t' hf hs).mono ?_ ?_
  · rintro a u ⟨hu, hsame⟩
    exact ⟨hlast _ hu, hsame, rfl⟩
  · intro err u hu
    obtain ⟨above, hframes, hadm⟩ := hu.holds.frames
    obtain ⟨above₀, hframes₀, _⟩ := hf.holds.frames
    have hlen : u.env.stack.size - t'.env.stack.size ≤ above.length := by
      rw [Stack.size, Stack.size, hframes, hframes₀, List.length_append, List.length_append]
      omega
    have hcut : u.env.stack.splitAt t'.env.stack.size =
        (⟨above.drop (u.env.stack.size - t'.env.stack.size) ++ z.base⟩,
          ⟨above.take (u.env.stack.size - t'.env.stack.size)⟩) := by
      rw [Stack.splitAt, hframes, List.drop_append_of_le_length hlen, List.take_append_of_le_length hlen]
    simp only [if_true, meets_bind, meets_env, hcut, meets_modifyEnv, meets_abandon, meets_ofExcept_error]
    have hcutoff := hu.setStack (above.drop (u.env.stack.size - t'.env.stack.size)) fun x hx =>
      hadm x (List.mem_of_mem_drop hx)
    refine ⟨hlast _ (hcutoff.abandon fun y hy => hadm y (List.mem_of_mem_take hy)), fun hst => ?_, trivial⟩
    change above.drop (u.env.stack.size - t'.env.stack.size) ++ z.base = frames
    rw [hb hst, List.drop_of_length_le, List.nil_append]
    rw [Stack.size, Stack.size, hframes, hs, hb hst, List.length_append]
    omega

end Aside

end Engine.Confined

theorem Env.foldl_set (env : Env) (values : List (String × Option Value)) :
    ∃ vars, values.foldl (fun env (name, value) => env.set name value) env = { env with vars } := by
  induction values generalizing env with
  | nil => exact ⟨env.vars, rfl⟩
  | cons pair rest ih =>
    obtain ⟨vars, hv⟩ := ih (env.set pair.1 pair.2)
    exact ⟨vars, hv⟩

namespace Tick

/-- Variables and the last status are nothing of a job's. -/
theorem Cleared.env (h : t.Cleared c k) {env : Env} (ht : env.temps = t.env.temps)
    (hd : env.detached = t.env.detached) : ({ t with env } : Tick σ).Cleared c k := by
  refine ⟨h.spilled, ?_, ?_⟩
  · intro l hl
    change env.detached[l]? = none
    rw [hd]
    exact h.detached hl
  · change c.tree.Idle env.temps k
    rw [ht]
    exact h.idle

theorem Failed.env (h : t.Failed c k base) {env : Env} (hs : env.stack = t.env.stack) (ht : env.temps = t.env.temps)
    (hd : env.detached = t.env.detached) : ({ t with env } : Tick σ).Failed c k base := by
  obtain ⟨lost, hlost, hlitter⟩ := h.litter
  refine ⟨?_, ?_, ?_, lost, hlost, ?_⟩
  · intro l hl
    change env.detached[l]? = none
    rw [hd]
    exact h.detached hl
  · change c.tree.Inward env.temps k
    rw [ht]
    exact h.inward
  · intro above hframes
    change env.stack.frames = above ++ base at hframes
    rw [hs] at hframes
    exact h.frames hframes
  · rw [Litter] at hlitter ⊢
    rw [hs, ht]
    exact hlitter

theorem Handled.env (h : t.Handled c k) {env : Env} (ht : env.temps = t.env.temps)
    (hd : env.detached = t.env.detached) : ({ t with env } : Tick σ).Handled c k := by
  cases h with
  | cleared h => exact .cleared (h.env ht hd)
  | @parked l s hw hl hs hsus =>
    refine .parked (s := s) hw hl ?_ ?_
    · rw [hd]
      exact hs
    · rw [ht]
      exact hsus
  | @lost z hw hn hz hp hnest =>
    refine .lost (z := z) hw ?_ hz ?_ ?_
    · rw [hd]
      exact hn
    · rw [ht]
      exact hp
    · rw [ht]
      exact hnest

/-- The frames that a failure leaves are cut off and abandoned. -/
theorem Failed.handled (h : t.Failed c k base) {env : Env} {above : List NodeId}
    (hs : t.env.stack.frames = above ++ base) (ht : env.temps = (⟨above⟩ : Stack).clear t.env.temps)
    (hd : env.detached = t.env.detached) : ({ t with env } : Tick σ).Handled c k := by
  obtain ⟨lost, hlost, above', hs', hled, hlit⟩ := h.litter
  obtain rfl : above = above' := List.append_cancel_right (hs.symm.trans hs')
  have hdet : ∀ l, c.tree.Listens l k → env.detached[l]? = none := by
    intro l hl
    rw [hd]
    exact h.detached hl
  cases lost with
  | false =>
    refine .cleared ⟨hlost, fun hl => hdet _ hl, ?_⟩
    intro x hx
    change env.temps[x]? = none
    rw [ht]
    by_cases hp : t.env.temps[x]? = none
    · rcases hc : ((⟨above⟩ : Stack).clear t.env.temps)[x]? with _ | q
      · rfl
      · rw [Stack.getElem?_of_clear hc] at hp
        cases hp
    · exact Stack.getElem?_clear_of_leads (hled rfl x hx hp)
  | true =>
    obtain ⟨z, hz, hp, hza, hnest⟩ := hlit rfl
    have hled : ∀ x, t.env.temps.Leads above x → c.tree.Region k x := fun x hl =>
      hl.closed (h.frames hs) fun y p hy hp x hx => h.inward y p hy hp x hx
    have hnot : ¬ t.env.temps.Leads above z := by
      intro hl
      cases hl with
      | frame hm => exact hza hm
      | saved hl hp hm => exact hnest _ _ (hled _ hl) hp hm
    refine .lost (z := z) hlost hdet hz ?_ ?_
    · change env.temps[z]? ≠ none
      rw [ht, Stack.getElem?_clear_of_not_leads hnot]
      exact hp
    · intro x p hx hq
      change env.temps[x]? = some p at hq
      rw [ht] at hq
      exact hnest x p hx (Stack.getElem?_of_clear hq)

theorem Cleared.calm (h : t.Cleared c k) (hr : t.Runs R c) (hc : t.Calm R c u) : u.Cleared c k := by
  refine ⟨by rw [hc.watch hr]; exact h.spilled, ?_, ?_⟩
  · rw [hc.detached]
    exact h.detached
  · rw [hc.temps]
    exact h.idle

theorem Fresh.calm (h : t.Fresh R c k) (hc : t.Calm R c u) : u.Fresh R c k := by
  have hfl : ¬ u.Flagged c → ¬ t.Flagged c := fun hu ht => hu (hc.flagged h.runs ht)
  refine ⟨hc.runs, ?_, ?_, ?_, h.entered, ?_, ?_⟩
  · rw [Env.Fits, hc.temps]
    exact h.fits
  · rw [hc.stack]
    exact h.apart
  · rw [hc.temps]
    exact h.idle
  · intro hf
    rw [hc.stack]
    exact (h.beside (hfl hf)).congr (fun _ => by rw [hc.detached]) fun _ _ => by rw [hc.temps]
  · exact fun hf b hb => (h.cleaned (hfl hf) b hb).congr hc.stack hc.detached hc.temps

/-- What a run of the child of a job gives. -/
structure Yields (c : Activation) (k : NodeId) (status : Status) (left : Stack) (t : Tick σ) : Prop where
  spilled : (t.watch c).spilled = false
  detached {l : NodeId} : c.tree.Listens l k → t.env.detached[l]? = none
  ended : status ≠ .running → c.tree.Idle t.env.temps k
  suspended : status = .running → c.tree.Suspended t.env.temps k left.frames

end Tick

theorem Engine.calms_writeEvent (n : Node) (event : Event) : Calms R c t (writeEvent n event) fun _ => True := by
  intro t' h
  rw [writeEvent, meets_bind]
  refine (Sound.meets_writeSlot h _ _).mono ?_ fun _ _ hf => hf
  intro _ u hu
  exact (Sound.meets_writeSlot hu _ _).mono (fun _ v hv => ⟨hv, trivial⟩) fun _ _ hf => hf

namespace Engine.Sound

variable (he : e.Sound R)
include he

theorem runBase (h : t.Fresh R c k) (hc : t.Cleared c k) :
    (e.runCaptured k c t).Meets (fun r u => u.Runs R c ∧ (¬ u.Flagged c → u.Yields c k r.1 r.2))
      fun _ u => ¬ u.Flagged c → u.Failed c k t.env.stack.frames := by
  simp only [runCaptured, meets_bind, meets_env]
  refine (he.fresh h).mono ?_ ?_
  · intro status u hran
    obtain ⟨happ, hstays⟩ := hran.stays
    have hdet : ∀ {l}, c.tree.Listens l k → u.env.detached[l]? = none := fun hl =>
      (hstays.keeps.detached fun hn => hn).trans (hc.detached hl)
    have hspilled : ¬ u.Flagged c → (u.watch c).spilled = false := fun hf => (hran.spilled hf).trans hc.spilled
    cases status with
    | success => exact ⟨hran.runs, fun hf => ⟨hspilled hf, hdet, fun hs => (hran.ends.ended hs).2.1, by simp⟩⟩
    | failure => exact ⟨hran.runs, fun hf => ⟨hspilled hf, hdet, fun hs => (hran.ends.ended hs).2.1, by simp⟩⟩
    | running =>
      simp only [TickM.capture, meets_bind, meets_env, meets_modifyEnv]
      refine ⟨⟨hran.runs.good, hran.runs.here⟩, fun hf => ⟨hspilled hf, hdet, fun hne => absurd rfl hne, fun _ => ?_⟩⟩
      obtain ⟨above, hframes, hsus⟩ := hran.ends.suspended hf rfl
      have hstack : u.env.stack = t.env.stack ++ (⟨above⟩ : Stack) := congrArg Stack.mk hframes
      change c.tree.Suspended u.env.temps k (u.env.stack.splitAt t.env.stack.size).2.frames
      rw [hstack, Stack.splitAt_append]
      exact hsus
  · intro err u hbroke hf
    obtain ⟨happ, hstays⟩ := hbroke.stays
    obtain ⟨lost, hwatch, hlitter⟩ := hbroke.litter hf
    obtain ⟨above, hframes, hadm⟩ := hstays.holds.frames
    refine ⟨fun hl => (hstays.keeps.detached fun hn => hn).trans (hc.detached hl), ?_, ?_, lost, ?_, hlitter⟩
    · exact fun x p hx hp y hy => (hstays.holds.nested hx hp hy).1.1
    · intro above' hframes' x hx
      obtain rfl : above' = above := List.append_cancel_right (hframes'.symm.trans hframes)
      exact (hadm x hx).1
    · rw [hwatch, hc.spilled, Bool.false_or]

theorem runDelayed (h : t.Fresh R c k) (hc : t.Cleared c k) (cache : List (String × Option Value)) :
    (e.runDelayed k cache c t).Meets (fun _ u => ¬ u.Flagged c → u.Handled c k)
      fun _ u => ¬ u.Flagged c → u.Failed c k t.env.stack.frames := by
  have hassign := (Tick.Calm.refl h.runs).writes cache
  have hframes := congrArg Stack.frames hassign.stack
  simp only [Engine.runDelayed, meets_bind, meets_env, assignAll, meets_modifyEnv, meets_attempt]
  refine (he.runBase (h.calm hassign) (hc.calm h.runs hassign)).mono ?_ ?_
  · rintro ⟨status, left⟩ u ⟨hruns, hyields⟩
    have hended : status ≠ .running → ¬ u.Flagged c →
        ({ u with env := (cache.map fun x => (x.1, t.env.get? x.1)).foldl (fun env x => env.set x.1 x.2) u.env } :
          Tick σ).Handled c k := by
      intro hs hf
      have hy := hyields hf
      obtain ⟨vars, hv⟩ := Env.foldl_set u.env (cache.map fun x => (x.1, t.env.get? x.1))
      refine .cleared (Tick.Cleared.env ⟨hy.spilled, hy.detached, hy.ended hs⟩ ?_ ?_)
      · rw [hv]
      · rw [hv]
    cases status with
    | success => exact hended (by simp)
    | failure => exact hended (by simp)
    | running =>
      simp only [cutOff, meets_bind, meets_report, meets_abandon, meets_ofExcept_ok]
      intro hf
      have hcalm := (Tick.Calm.refl hruns).report (.jobAbandoned c.tree.name k)
      have hy := hyields fun hfl => hf (hcalm.flagged hruns hfl)
      obtain ⟨vars, hv⟩ := Env.foldl_set ({ u.env with temps := left.clear u.env.temps } : Env)
        (cache.map fun x => (x.1, t.env.get? x.1))
      refine .cleared ⟨?_, ?_, ?_⟩
      · rw [← hy.spilled]
        exact congrArg Watch.spilled (hcalm.watch hruns)
      · intro l hl
        simp only [Env.abandon, hv]
        exact hy.detached hl
      · simp only [Env.abandon, hv]
        exact ((hy.suspended rfl).clear h.runs.orderly).1
  · intro err u hfailed
    simp only [meets_ofExcept_error]
    intro hf
    obtain ⟨vars, hv⟩ := Env.foldl_set u.env (cache.map fun x => (x.1, t.env.get? x.1))
    rw [← hframes]
    refine (hfailed hf).env ?_ ?_ ?_ <;> rw [hv]

theorem runFired (hr : t.Runs R c) (ho : t.env.Ordered c.tree (t.watch c).spilled) (hfits : t.env.Fits c.tree)
    (happ : ∀ x ∈ t.env.stack.frames, ¬ c.tree.Region k x) (hl : c.tree.Listens l k)
    (hspilled : (t.watch c).spilled = false) (event : Event) :
    (e.runFired l k event c t).Meets (fun _ u => ¬ u.Flagged c → u.Handled c k)
      fun _ u => ¬ u.Flagged c → u.Failed c k t.env.stack.frames := by
  have ht := hr.orderly
  have hentered := ht.entered_of_base hl.base
  have hcleaned : ∀ {b}, ¬ c.tree.CleansUp k b := Tree.not_cleansUp_of_base ht hl.base
  have hunparked : t.env.detached[l]? = none → c.tree.Idle t.env.temps k := ho.unparked hspilled hl
  have hrest : ∀ {v : Tick σ}, v.Fresh R c k → v.Cleared c k → v.env.stack = t.env.stack → ((do
      Engine.writeEvent (← node l) event
      park l (← e.runCaptured k)) c v).Meets
        (fun _ u => ¬ u.Flagged c → u.Handled c k) fun _ u => ¬ u.Flagged c → u.Failed c k t.env.stack.frames := by
    intro v hfresh hcleared hstack
    obtain ⟨n, hn⟩ : ∃ n, c.tree.get? l = some n := hl.imp fun _ ⟨_, hn, _⟩ => hn
    rw [meets_bind, meets_node hn, meets_bind]
    refine (calms_writeEvent n event v (.refl hfresh.runs)).mono ?_ fun _ _ hf => hf.elim
    rintro _ w ⟨hcalm, _⟩
    rw [meets_bind, ← hstack, ← hcalm.stack]
    refine (he.runBase (hfresh.calm hcalm) (hcleared.calm hfresh.runs hcalm)).mono ?_ fun _ _ hf => hf
    rintro ⟨status, left⟩ u ⟨hruns, hyields⟩
    have hended : status ≠ .running → ¬ u.Flagged c → u.Handled c k := by
      intro hs hf
      have hy := hyields hf
      exact .cleared ⟨hy.spilled, hy.detached, hy.ended hs⟩
    cases status with
    | success => exact hended (by simp)
    | failure => exact hended (by simp)
    | running =>
      rw [park, meets_modifyEnv]
      intro hf
      have hy := hyields hf
      exact .parked (l := l) (s := left) hy.spilled hl (by simp) (hy.suspended rfl)
  rw [Engine.runFired, meets_bind, takeOff, meets_bind, meets_env]
  cases hprev : t.env.detached[l]? with
  | none =>
    have hnone : ∀ {l'}, c.tree.Listens l' k → t.env.detached[l']? = none := fun hl' => by
      rw [ht.listens_unique hl' hl, hprev]
    have hbeside : c.tree.Beside t.env k t.env.stack.frames := by
      refine ho.beside ht hl.base id fun hs => ⟨hs, fun hl' => ?_⟩
      rw [hnone hl'] at hs
      cases hs
    exact hrest ⟨hr, hfits, happ, hunparked hprev, hentered, fun _ => hbeside, fun _ _ hc => absurd hc hcleaned⟩
      ⟨hspilled, hnone, hunparked hprev⟩ rfl
  | some previous =>
    have hidle := ((ho.parked hspilled hl hprev).clear ht).1
    have hgone : (t.env.detached.erase l)[l]? = none := Std.ExtTreeMap.getElem?_erase_self
    rw [meets_bind, meets_modifyEnv, meets_abandon]
    refine hrest (v := { t with env := { t.env with detached := t.env.detached.erase l }.abandon previous })
      ⟨⟨hr.good, hr.here⟩, ?_, happ, hidle, hentered, fun _ => ?_, fun _ _ hc => absurd hc hcleaned⟩
      ⟨hspilled, ?_, hidle⟩ rfl
    · intro x n p hn hp
      exact hfits x n p hn (Stack.getElem?_of_clear hp)
    · refine ho.beside ht hl.base Stack.getElem?_of_clear fun {l' s} hs => ?_
      have hne : l ≠ l' := fun he => by
        subst he
        cases hs.symm.trans hgone
      refine ⟨?_, fun hl' => hne (ht.listens_unique hl hl')⟩
      simpa [Env.abandon, Std.ExtTreeMap.getElem?_erase, hne] using hs
    · intro l' hl'
      rw [ht.listens_unique hl' hl]
      exact hgone

omit he in
/-- What is done on top of the tree and fails leaves nothing on top of it. -/
theorem aside {m : TickM σ Unit} (hm : (m c t).Meets (fun _ u => ¬ u.Flagged c → u.Handled c k)
      fun _ u => ¬ u.Flagged c → u.Failed c k t.env.stack.frames) :
    (Engine.aside m c t).Meets (fun _ u => ¬ u.Flagged c → u.Handled c k)
      fun _ u => ¬ u.Flagged c → u.Handled c k := by
  simp only [Engine.aside, meets_bind, meets_env, meets_attempt]
  refine hm.mono ?_ ?_
  · intro a u hu
    exact fun hf => (hu hf).env rfl rfl
  · intro err u hu
    simp only [if_true, meets_bind, meets_env, meets_modifyEnv, meets_abandon, meets_ofExcept_error]
    intro hf
    have hfailed := hu hf
    obtain ⟨_, _, above, hframes, _⟩ := hfailed.litter
    have hstack : u.env.stack = t.env.stack ++ (⟨above⟩ : Stack) := congrArg Stack.mk hframes
    refine hfailed.handled hframes ?_ rfl
    rw [hstack, Stack.splitAt_append]
    rfl

theorem runFor (hr : t.Runs R c) (hj : c.tree.Accepts job) (ho : t.env.Ordered c.tree (t.watch c).spilled)
    (hfits : t.env.Fits c.tree) (happ : ∀ x ∈ t.env.stack.frames, ¬ c.tree.Region job.child x)
    (hspilled : (t.watch c).spilled = false) :
    (e.runFor job c t).Meets (fun _ u => ¬ u.Flagged c → u.Handled c job.child)
      fun _ u => ¬ u.Flagged c → u.Failed c job.child t.env.stack.frames := by
  have ht := hr.orderly
  cases job with
  | fired l child event =>
    exact he.runFired hr ho hfits happ hj hspilled event
  | delayed child cache =>
    obtain ⟨d, hd⟩ := hj
    have hidle := ho.delayed hspilled hd
    have hnot : ∀ {l}, ¬ c.tree.Listens l child := fun hl => ht.not_listens_of_putsOff hd hl
    have hfresh : t.Fresh R c child :=
      ⟨hr, hfits, happ, hidle, ht.entered_of_base hd.base, fun _ => ho.beside ht hd.base id fun hs => ⟨hs, hnot⟩,
        fun _ _ hc => absurd hc (Tree.not_cleansUp_of_base ht hd.base)⟩
    exact he.runDelayed hfresh ⟨hspilled, fun hl => absurd hl hnot, hidle⟩ cache

end Engine.Sound

namespace Tick.Handled

/-- Unless nodes are lost, what is detached of the child of a job is a path from it. -/
theorem suspended (h : u.Handled c k) (ht : c.tree.Orderly) (hu : (u.watch c).spilled = false)
    (hl : c.tree.Listens l k) {s : Stack} (hs : u.env.detached[l]? = some s) :
    c.tree.Suspended u.env.temps k s.frames := by
  cases h with
  | cleared h =>
    rw [h.detached hl] at hs
    cases hs
  | parked _ hl' hs' hsus =>
    obtain rfl := ht.listens_unique hl hl'
    obtain rfl := Option.some.inj (hs.symm.trans hs')
    exact hsus
  | lost hw =>
    rw [hu] at hw
    cases hw

/-- Unless nodes are lost, nothing is left of the child of a job of which nothing is detached. -/
theorem idle (h : u.Handled c k) (hu : (u.watch c).spilled = false)
    (hs : ∀ l, c.tree.Listens l k → u.env.detached[l]? = none) : c.tree.Idle u.env.temps k := by
  cases h with
  | cleared h => exact h.idle
  | parked _ hl hs' _ =>
    rw [hs _ hl] at hs'
    cases hs'
  | lost hw =>
    rw [hu] at hw
    cases hw

end Tick.Handled

section

variable {happ : ∀ x ∈ t.env.stack.frames, ¬ c.tree.Region k x}

theorem Env.Stray.of_job {z : NodeId} (hz : t.env.Stray z) (hf : (Zone.aside c.tree t.env k happ).From R t u)
    (hs : u.env.stack = t.env.stack) : u.env.Stray z := by
  refine ⟨hf.holds.strays hz, ?_, ?_, ?_⟩
  · rw [hs]
    exact hz.stack
  · intro l s hl hm
    by_cases hlk : c.tree.Listens l k
    · exact (hf.holds.parked hlk hl hm).2 hz
    · rw [hf.keeps.detached hlk] at hl
      exact hz.detached hl hm
  · intro x p hp hm
    by_cases hkx : c.tree.Region k x
    · exact (hf.holds.nested hkx hp hm).1.2 hz
    · rw [hf.keeps.temps hkx] at hp
      exact hz.nested hp hm

/-- If a job loses nodes, no stack accounts for one of them: what is outside of its region names none there. -/
theorem Tick.Handled.exists_stray (h : u.Handled c k) (ho : t.env.Ordered c.tree (t.watch c).spilled)
    (ht : c.tree.Orderly) (hk : c.tree.Base k) (hf : (Zone.aside c.tree t.env k happ).From R t u)
    (hs : u.env.stack = t.env.stack) (hu : (u.watch c).spilled = true) : ∃ z, u.env.Stray z := by
  cases h with
  | cleared h =>
    rw [h.spilled] at hu
    cases hu
  | parked hn =>
    rw [hn] at hu
    cases hu
  | @lost z _ hnone hz hp hnest =>
    refine ⟨z, hp, ?_, ?_, ?_⟩
    · rw [hs]
      exact fun hm => happ z hm hz
    · intro l s hl hm
      by_cases hlk : c.tree.Listens l k
      · rw [hnone l hlk] at hl
        cases hl
      · rw [hf.keeps.detached hlk] at hl
        obtain ⟨j, hlj, hreg⟩ := ho.detached hl
        obtain rfl := ht.base_unique hlj.base hk (hreg z hm) hz
        exact hlk hlj
    · intro x p hxp hm
      by_cases hkx : c.tree.Region k x
      · exact hnest x p hkx hxp hm
      · rw [hf.keeps.temps hkx] at hxp
        obtain ⟨j, hj, hjx⟩ := ho.based (x := x) (by simp [hxp])
        obtain rfl := ht.base_unique hj hk (hjx.trans (ho.inward hxp hm).region) hz
        exact hkx hjx

/-- What a job of a child has done to the state of an instance, seen from its region. -/
theorem Env.Ordered.of_job (ho : t.env.Ordered c.tree (t.watch c).spilled) (ht : c.tree.Orderly) (hk : c.tree.Base k)
    (hroot : k ≠ c.tree.root) (hf : (Zone.aside c.tree t.env k happ).From R t u) (hs : u.env.stack = t.env.stack)
    (hspilled : (t.watch c).spilled = true → (u.watch c).spilled = true)
    (hh : (t.watch c).spilled = false → u.Handled c k) : u.env.Ordered c.tree (u.watch c).spilled := by
  have htemps : ∀ {x}, ¬ c.tree.Region k x → u.env.temps[x]? = t.env.temps[x]? := fun hx => hf.keeps.temps hx
  have hdet : ∀ {l}, ¬ c.tree.Listens l k → u.env.detached[l]? = t.env.detached[l]? := fun hl => hf.keeps.detached hl
  have helse : ∀ {j x}, c.tree.Base j → j ≠ k → c.tree.Region j x → u.env.temps[x]? = t.env.temps[x]? :=
    fun hj hne hx => htemps fun hkx => hne (ht.base_unique hj hk hx hkx)
  have hclean : (u.watch c).spilled = false → (t.watch c).spilled = false := by
    intro hu
    by_contra hne
    rw [hspilled (by simpa using hne)] at hu
    cases hu
  refine ⟨?_, ?_, ?_, ?_, ?_, ?_, ?_, ?_⟩
  · have hmain : ∀ {x}, c.tree.Region c.tree.root x → u.env.temps[x]? = t.env.temps[x]? :=
      helse Tree.base_root (Ne.symm hroot)
    rw [hs]
    exact ho.main.imp (fun h => ⟨h.1, h.2.congr fun _ hx => hmain hx⟩) fun h => h.congr ht fun _ hx => hmain hx
  · intro x hx
    by_cases hkx : c.tree.Region k x
    · exact ⟨k, hk, hkx⟩
    · rw [htemps hkx] at hx
      exact ho.based hx
  · intro x y p hp hy
    by_cases hkx : c.tree.Region k x
    · exact (hf.holds.nested hkx hp hy).2 trivial
    · rw [htemps hkx] at hp
      exact ho.inward hp hy
  · intro l s hl
    by_cases hlk : c.tree.Listens l k
    · exact ⟨k, hlk, fun x hx => (hf.holds.parked hlk hl hx).1⟩
    · rw [hdet hlk] at hl
      exact ho.detached hl
  -- a child is that of the job, or of another base, which the job left alone
  · intro l j s hu hl hs
    by_cases hjk : j = k
    · subst hjk
      exact (hh (hclean hu)).suspended ht hu hl hs
    · rw [hdet fun hlk => hjk (hl.child_unique hlk)] at hs
      exact (ho.parked (hclean hu) hl hs).congr ht fun x hx => helse hl.base hjk hx
  · intro l j hu hl hs
    by_cases hjk : j = k
    · subst hjk
      refine (hh (hclean hu)).idle hu fun l' hl' => ?_
      rw [ht.listens_unique hl' hl]
      exact hs
    · rw [hdet fun hlk => hjk (hl.child_unique hlk)] at hs
      exact (ho.unparked (hclean hu) hl hs).congr fun x hx => helse hl.base hjk hx
  · intro d j hu hd
    by_cases hjk : j = k
    · subst hjk
      exact (hh (hclean hu)).idle hu fun l hl => (ht.not_listens_of_putsOff hd hl).elim
    · exact (ho.delayed (hclean hu) hd).congr fun x hx => helse hd.base hjk hx
  · intro hu
    cases hw : (t.watch c).spilled with
    | true => exact (ho.stray hw).imp fun _ hz => hz.of_job hf hs
    | false => exact (hh hw).exists_stray ho ht hk hf hs hu

end

/-- The frames of the tree are of no child that a job runs. -/
theorem Env.Ordered.apart_of_accepts {tree : Tree} {env : Env} {spilled : Bool} (ho : env.Ordered tree spilled)
    (ht : tree.Orderly) (hj : tree.Accepts job) :
    tree.Base job.child ∧ job.child ≠ tree.root ∧ ∀ x ∈ env.stack.frames, ¬ tree.Region job.child x := by
  have hbase : tree.Base job.child := by
    cases job with
    | fired l child event => exact Tree.Listens.base hj
    | delayed child cache =>
      obtain ⟨d, hd⟩ := hj
      exact hd.base
  have hroot : job.child ≠ tree.root := by
    intro heq
    cases job with
    | fired l child event => exact ht.listens_ne_root hj heq
    | delayed child cache =>
      obtain ⟨d, hd⟩ := hj
      exact ht.putsOff_ne_root hd heq
  refine ⟨hbase, hroot, ?_⟩
  intro x hx hkx
  rcases ho.main with ⟨hnil, _⟩ | hsus
  · rw [hnil] at hx
    cases hx
  · exact hroot (ht.base_unique hbase Tree.base_root hkx (hsus.mem_frames hx).1)

/-- No node of the suspended tree is in the region of a child that a job runs. -/
theorem Env.Ordered.not_region_of_leads {tree : Tree} {env : Env} {spilled : Bool} (ho : env.Ordered tree spilled)
    (ht : tree.Orderly) (hj : tree.Accepts job) {x : NodeId} (hx : env.temps.Leads env.stack.frames x) :
    ¬ tree.Region job.child x := by
  obtain ⟨hbase, hroot, happ⟩ := ho.apart_of_accepts ht hj
  induction hx with
  | frame hx => exact happ _ hx
  | @saved y x p _ hp hy ih =>
    -- what a payload names is in the region of the same base
    obtain ⟨k, hk, hx⟩ := ho.based (x := x) (by simp [hp])
    intro hy'
    obtain rfl := ht.base_unique hk hbase (hx.trans (ho.inward hp hy).region) hy'
    exact ih hx

theorem Tree.Accepts.not_listens {tree : Tree} (hj : tree.Accepts job) (ht : tree.Orderly) {l : NodeId}
    (hl : job.listener? ≠ some l) : ¬ tree.Listens l job.child := by
  intro hlistens
  cases job with
  | fired l' child event =>
    obtain rfl := ht.listens_unique hlistens hj
    exact hl rfl
  | delayed child cache =>
    obtain ⟨d, hd⟩ := hj
    exact ht.not_listens_of_putsOff hd hlistens

theorem Zone.aside_holds {spilled : Bool} (ho : t.env.Ordered c.tree spilled) (hf : t.env.Fits c.tree)
    (happ : ∀ x ∈ t.env.stack.frames, ¬ c.tree.Region k x) :
    (Zone.aside c.tree t.env k happ).Holds t.env := by
  refine ⟨⟨[], rfl, by simp⟩, ?_, ?_, fun hz => hz.payload, hf⟩
  · intro x y p hx hp hy
    have hbelow := ho.inward hp hy
    exact ⟨⟨hx.trans hbelow.region, fun hz => hz.nested hp hy⟩, fun _ => hbelow⟩
  · intro l y s hl hs hy
    obtain ⟨j, hlj, hreg⟩ := ho.detached hs
    obtain rfl := hl.child_unique hlj
    exact ⟨hreg y hy, fun hz => hz.detached hs hy⟩

theorem Watch.foldl_spilled {tree : Tree} {acts : List Activity} {w : Watch} (h : ∀ a ∈ acts, a.Quiet true)
    (hw : w.spilled = true) : (acts.foldl (Watch.step tree) w).spilled = true := by
  induction acts generalizing w with
  | nil => exact hw
  | cons a acts ih =>
    rw [List.foldl_cons]
    refine ih (fun b hb => h b (List.mem_cons_of_mem _ hb)) ?_
    have ha := h a List.mem_cons_self
    cases a with
    | returned id result =>
      obtain ⟨active, spilled⟩ := w
      obtain rfl : spilled = true := hw
      cases active with
      | nil => rfl
      | cons top rest =>
        cases result with
        | none => rfl
        | some status =>
          simp only [Watch.step, Watch.after]
          split
          · rw [Watch.mark]
            split <;> rfl
          · rfl
    | called | queued | requested | assigned => exact hw
    | entered | left | started | announced | unwound => exact ha.elim

/-- What a job has done, whether it failed or not: the suspended tree sees nothing of it, and what is asked of the state
of an instance holds again unless an interruption is asked for. -/
structure Tick.Did (R : Rules σ) (c : Activation) (job : Job) (t u : Tick σ) : Prop where
  runs : u.Runs R c
  advances : t.world.Advances (!R.swap) (Part.working.only c.owner) u.world
  unseen : R.swap = false → job.Unseen t.env u.env
  rests : ¬ u.Flagged c → R.Rests c.tree u.env (u.watch c).spilled

/-- What is done for a tick is done for a job as well. -/
theorem World.Advances.works {w w' : World σ} {o : Tag} (h : w.Advances (!R.swap) (Part.ticking.only o) w') :
    w.Advances (!R.swap) (Part.working.only o) w' := by
  refine h.mono id ?_
  intro p j j' acts _ _ hallow
  by_cases hp : p = o
  · subst hp
    rw [Part.only_self] at hallow ⊢
    exact Instance.Carries.works hallow
  · rw [Part.only_of_ne hp] at hallow
    exact hallow.of_guest

theorem Zone.From.spilled {z : Zone c.tree} (h : z.From R t u) (hr : t.Runs R c) (hs : (t.watch c).spilled = true) :
    (u.watch c).spilled = true := by
  obtain ⟨i, hi, hexec, _⟩ := hr.here
  obtain ⟨_, acts, _, _, _, hacts, hallow⟩ := h.advances.exists_allowed hi hexec
  rw [Part.only_self] at hallow
  rw [Tick.watch, World.watch_of_acts hacts]
  exact Watch.foldl_spilled hallow.quiet hs

/-- That a job starts is noted, and nothing else happens. -/
theorem Tick.Runs.starts (hr : t.Runs R c) (job : Job) :
    ({ t with world := t.world.observe c.owner (.started job) } : Tick σ).Runs R c ∧
      t.world.Advances (!R.swap) (Part.working.only c.owner) (t.world.observe c.owner (.started job)) := by
  obtain ⟨i, hi, hexec, htree⟩ := hr.here
  have hchanges := (World.Changes.refl hi).observe (.started job)
  refine ⟨⟨?_, i, hchanges.self, hexec, htree⟩, .of_changes hchanges hi rfl (fun _ => rfl) fun _ => ?_⟩
  · exact hr.good.of_changes hi hchanges rfl (hr.good.holds hi).pending (by simp [hexec])
  · rw [Part.only_self]
    exact ⟨by simp [Activity.isRequest], by simp [Activity.isClear], by simp [Activity.Inner]⟩

namespace Engine.Sound

variable (he : e.Sound R)
include he

theorem aside_whole (hr : t.Runs R c) (hfits : t.env.Fits c.tree) (hswap : R.swap = true) :
    (Engine.aside (e.runFor job) c t).Meets (fun _ => t.Did R c job) fun _ => t.Did R c job := by
  have hnot : R.swap ≠ false := by simp [hswap]
  have hstays : (Zone.whole c.tree).Stays R t.env.stack.frames (e.runFor job) _ :=
    he.confined.runFor (by simp) (fun _ _ _ _ => trivial) trivial
  have hmeets := Confined.aside (fun h => False.elim h) hstays (.refl hr (Zone.whole_holds hfits)) rfl
  have hdid : ∀ u, (Zone.whole c.tree).From R t u → t.Did R c job u := fun u hu =>
    ⟨hu.runs, hu.advances.works, fun hs => absurd hs hnot, fun _ => ⟨hu.holds.fits, fun hs => absurd hs hnot⟩⟩
  exact (hmeets.halts fun _ h => h.tooDeep fun hs => absurd hs hnot).mono (fun _ u hu => hdid u hu.1)
    fun _ u hu => hdid u hu.1

/-- A job of the tree itself: it stays in the region of its child, and what it has left there is accounted for. -/
theorem aside_accepted (hr : t.Runs R c) (hfits : t.env.Fits c.tree)
    (ho : t.env.Ordered c.tree (t.watch c).spilled) (hj : c.tree.Accepts job) :
    (Engine.aside (e.runFor job) c t).Meets (fun _ => t.Did R c job) fun _ => t.Did R c job := by
  have ht := hr.orderly
  obtain ⟨hbase, hroot, happ⟩ := ho.apart_of_accepts ht hj
  have hparks : ∀ l child event, job = .fired l child event → (Zone.aside c.tree t.env job.child happ).parks l := by
    rintro l child event rfl
    exact hj
  have hstays : (Zone.aside c.tree t.env job.child happ).Stays R t.env.stack.frames (e.runFor job) _ :=
    he.confined.runFor (fun _ => rfl) hparks (.refl _)
  have hmeets := Confined.aside (fun _ => rfl) hstays (.refl hr (Zone.aside_holds ho hfits happ)) rfl
  have hhandled : (Engine.aside (e.runFor job) c t).Meets
      (fun _ u => (t.watch c).spilled = false → ¬ u.Flagged c → u.Handled c job.child)
      fun _ u => (t.watch c).spilled = false → ¬ u.Flagged c → u.Handled c job.child := by
    cases hspilled : (t.watch c).spilled with
    | true =>
      have hhalts := hmeets.halts fun _ h => h.tooDeep fun _ hf =>
        Bool.false_ne_true ((hf.spilled c.tree).symm.trans hspilled)
      exact hhalts.mono (fun _ _ _ h => absurd h (by simp)) fun _ _ _ h => absurd h (by simp)
    | false => exact (Sound.aside (he.runFor hr hj ho hfits happ hspilled)).mono (fun _ _ h _ => h) fun _ _ h _ => h
  have hdid : ∀ u, (Zone.aside c.tree t.env job.child happ).From R t u ∧
      (True → u.env.stack.frames = t.env.stack.frames) ∧ u.env.lastStatus = t.env.lastStatus →
      ((t.watch c).spilled = false → ¬ u.Flagged c → u.Handled c job.child) → t.Did R c job u := by
    rintro u ⟨hu, hsame, hstatus⟩ hh
    have hstack : u.env.stack = t.env.stack := congrArg Stack.mk (hsame trivial)
    refine ⟨hu.runs, hu.advances.works, fun _ => ?_, fun hf => ⟨hu.holds.fits, fun _ => ?_⟩⟩
    · exact ⟨hstack, fun hx => hu.keeps.temps (ho.not_region_of_leads ht hj hx),
        fun hl => hu.keeps.detached (hj.not_listens ht hl), hstatus⟩
    · exact ho.of_job ht hbase hroot hu hstack (hu.spilled hr) fun hsp => hh hsp hf
  exact (hmeets.and hhandled).mono (fun _ u h => hdid u h.1 h.2) fun _ u h => hdid u h.1 h.2

theorem runJob (hr : t.Runs R c) (hrests : R.Rests c.tree t.env (t.watch c).spilled)
    (hj : R.swap = false → c.tree.Accepts job) :
    (e.runJob job c t).Meets (fun _ => t.Did R c job) fun _ => t.Did R c job := by
  obtain ⟨hvr, hadv⟩ := hr.starts job
  have hwatch : ({ t with world := t.world.observe c.owner (.started job) } : Tick σ).watch c = t.watch c := by
    rw [Tick.watch_observe]
    rfl
  rw [Engine.runJob, meets_bind, meets_observe]
  generalize hv : ({ t with world := t.world.observe c.owner (.started job) } : Tick σ) = v at hvr hwatch
  obtain ⟨henv, hworld⟩ : v.env = t.env ∧ v.world = t.world.observe c.owner (.started job) := by
    subst hv
    exact ⟨rfl, rfl⟩
  have hdid : ∀ u, v.Did R c job u → t.Did R c job u := fun u hu =>
    ⟨hu.runs, hadv.trans (hworld ▸ hu.advances), henv ▸ hu.unseen, hu.rests⟩
  have hmeets : (Engine.aside (e.runFor job) c v).Meets (fun _ => v.Did R c job) fun _ => v.Did R c job := by
    have hfits : v.env.Fits c.tree := henv ▸ hrests.fits
    cases hswap : R.swap with
    | true => exact he.aside_whole hvr hfits hswap
    | false =>
      refine he.aside_accepted hvr hfits ?_ (hj hswap)
      rw [henv, hwatch]
      exact hrests.ordered hswap
  exact hmeets.mono (fun _ => hdid) fun _ => hdid

end Engine.Sound

end BehaviorTree
