import BehaviorTree.Proofs.Grafting.States

/-!
The nodes of a subtree do the same on two grounds, whatever stands below its root. There is one lemma for each
behavior, given that the calls that it makes of other nodes of the subtree do the same.
-/

namespace BehaviorTree
set_option autoImplicit false

variable {σ : Type} {G : Graft} {e : Engine σ} {n : Node}

/-- An engine whose calls of nodes under the root do the same on both grounds. -/
structure Engine.Grafts (G : Graft) (e : Engine σ) : Prop where
  fits : G.Fits
  restoring : e.Restoring
  run {k : NodeId} : G.Under k → G.Keeps G.Near (e.run k) (e.run k)
  resume {l l' : Nat} : G.Levels l l' → G.Keeps G.Near (e.resume l) (e.resume l')

namespace Graft

open Goes

def Left (G : Graft) (r : Status × Stack) : Prop := ∀ y ∈ r.2.frames, G.Under y

def Saves (G : Graft) (saved : List (Option Stack)) : Prop := ∀ s, some s ∈ saved → ∀ y ∈ s.frames, G.Under y

theorem Saves.cons {here : Option Stack} {saved : List (Option Stack)}
    (h : ∀ s, here = some s → ∀ y ∈ s.frames, G.Under y) (hs : G.Saves saved) : G.Saves (here :: saved) := by
  intro s hmem
  rcases List.mem_cons.mp hmem with heq | hmem
  · exact h s heq.symm
  · exact hs s hmem

theorem Saves.none_cons {saved : List (Option Stack)} (hs : G.Saves saved) : G.Saves (none :: saved) :=
  hs.cons nofun

/-! ### Nodes without children -/

section Acting

variable (hn : G.Has n)
include hn

omit hn in
theorem keeps_evaluate (site : Site) (expr : Expression) :
    G.Keeps (σ := σ) G.Inner (Engine.evaluate site expr) (Engine.evaluate site expr) := by
  refine bindEnv fun env env' h _ => ?_
  rw [h.get?]
  cases expr.evaluate env.get? with
  | ok v => exact done _
  | error error => exact (report worldly_inner _).andThen fun _ => done _

omit hn in
theorem keeps_check (site : Site) (expr : Expression) :
    G.Keeps (σ := σ) G.Inner (Engine.check site expr) (Engine.check site expr) := by
  refine (keeps_evaluate site expr).andThen fun v => ?_
  cases v with
  | some v => exact done _
  | none => exact done _

omit hn in
theorem keeps_calculate (site : Site) (expr : Expression) :
    G.Keeps (σ := σ) G.Inner (Engine.calculate site expr) (Engine.calculate site expr) := by
  refine (keeps_evaluate site expr).andThen fun v => ?_
  cases v with
  | some v => exact (pushOutput _).andThen fun _ => done _
  | none => exact done _

omit hn in
theorem input?_eq {env env' : Env} (h : env.SameSlots env') (slot : Nat) : env'.input? slot = env.input? slot := by
  rw [Env.input?, Env.input?, h.input]

omit hn in
theorem keeps_copy (site : Site) : G.Keeps (σ := σ) G.Inner (Engine.copy site) (Engine.copy site) := by
  refine bindEnv fun env env' _ hs => ?_
  rw [input?_eq hs]
  exact (pushOutput _).andThen fun _ => done _

omit hn in
theorem keeps_inputIsNull : G.Keeps (σ := σ) G.Inner Engine.inputIsNull Engine.inputIsNull := by
  refine bindEnv fun env env' _ hs => ?_
  rw [input?_eq hs]
  split <;> exact done _

omit hn in
theorem keeps_log (site : Site) (level : Level) (text : String) :
    G.Keeps (σ := σ) G.Inner (Engine.log site level text) (Engine.log site level text) := by
  refine bindEnv fun env env' _ hs => ?_
  rw [input?_eq hs]
  exact (report worldly_inner _).andThen fun _ => done _

omit hn in
theorem keeps_now : G.Keeps (σ := σ) G.Inner Engine.now Engine.now :=
  (time worldly_inner).andThen fun _ => (pushOutput _).andThen fun _ => done _

theorem keeps_waitUntil (expiry : Float) :
    G.Keeps (σ := σ) G.Inner (Engine.waitUntil n.toSite expiry) (Engine.waitUntil n.toSite expiry) :=
  (time worldly_inner).andThen fun _ => ite (done _) (suspendFlat hn rfl)

theorem keeps_wait (own : Float) :
    G.Keeps (σ := σ) G.Inner (Engine.wait n.toSite own) (Engine.wait n.toSite own) := by
  refine saved? hn fun saved _ => ?_
  split
  · exact keeps_waitUntil hn _
  · exact rejectPayload _
  · refine bindEnv fun env env' _ hs => ?_
    rw [input?_eq hs]
    split
    · exact (time worldly_inner).andThen fun _ => keeps_waitUntil hn _
    · split
      · exact (time worldly_inner).andThen fun _ => keeps_waitUntil hn _
      · exact (report worldly_inner _).andThen fun _ => done _

theorem keeps_settle (ending : Ending) :
    G.Keeps (σ := σ) G.Inner (Engine.settle n.toSite ending) (Engine.settle n.toSite ending) := by
  rw [Engine.settle.eq_def]
  split
  · exact done _
  · exact suspendFlat hn rfl
  · exact suspendFlat hn rfl
  · exact rejectPayload _

omit hn in
theorem keeps_setAll (writes : List (String × Option Value)) :
    G.Keeps (σ := σ) G.Inner (TickM.modifyEnv fun env => writes.foldl (fun env (name, value) => env.set name value) env)
      (TickM.modifyEnv fun env => writes.foldl (fun env (name, value) => env.set name value) env) := by
  induction writes with
  | nil => exact fun _ _ ht => ⟨rfl, trivial, ht⟩
  | cons write writes ih => exact (set write.1 write.2).andThen fun _ => ih

omit hn in
theorem keeps_pushAll (values : List (Option Value)) :
    G.Keeps (σ := σ) G.Inner (TickM.modifyEnv fun env => values.foldl Env.pushOutput env)
      (TickM.modifyEnv fun env => values.foldl Env.pushOutput env) := by
  induction values with
  | nil => exact fun _ _ ht => ⟨rfl, trivial, ht⟩
  | cons value values ih => exact (pushOutput value).andThen fun _ => ih

theorem keeps_leaf (react : Leaf) :
    G.Keeps (σ := σ) G.Inner (Engine.leaf n.toSite react) (Engine.leaf n.toSite react) := by
  refine bindEnv fun env env' h hs => (time worldly_inner).andThen fun now => ?_
  rw [h.vars, h.payloads.same hn.subtree, hs.input]
  refine (keeps_setAll _).andThen fun _ => (keeps_pushAll _).andThen fun _ => ?_
  split
  · exact (interrupt worldly_inner).andThen fun _ => keeps_settle hn _
  · exact keeps_settle hn _

omit hn in
theorem keeps_target? (site : Site) (slot : Nat) :
    G.Keeps (σ := σ) G.Inner (Engine.target? site slot) (Engine.target? site slot) := by
  refine bindEnv fun env env' _ hs => ?_
  rw [input?_eq hs]
  split
  · exact done _
  · exact done _
  · exact (report worldly_inner _).andThen fun _ => done _

omit hn in
theorem keeps_listening (id : NodeId) :
    G.Keeps (σ := σ) G.Inner (TickM.modifyEnv fun env => { env with listening := env.listening.insert id })
      (TickM.modifyEnv fun env => { env with listening := env.listening.insert id }) :=
  fun _ _ ht => ⟨rfl, trivial,
    ht.toNear.edit (fun env => { env with listening := env.listening.insert id })
      (fun env => { env with listening := env.listening.insert id })
      (fun _ _ _ _ input output => ⟨input, output, rfl⟩) rfl rfl rfl, ht.slots.input, ht.slots.output⟩

theorem keeps_startListening (event : String) (target : Option String) :
    G.Keeps (σ := σ) G.Inner (Engine.startListening n.toSite event target)
      (Engine.startListening n.toSite event target) :=
  owner (child hn fun _ _ => (modifyWorld worldly_inner _).andThen fun _ =>
    (keeps_listening _).andThen fun _ => (report worldly_inner _).andThen fun _ => done _)

theorem keeps_listen (event : String) :
    G.Keeps (σ := σ) G.Inner (Engine.listen n.toSite event) (Engine.listen n.toSite event) := by
  refine bindEnv fun env env' h _ => ?_
  rw [h.listening]
  refine ite (done _) (ite (owner (keeps_startListening hn _ _)) ?_)
  refine (keeps_target? _ _).andThen fun target => ?_
  cases target with
  | some target => exact keeps_startListening hn _ _
  | none => exact done _

theorem keeps_putOff (span : Float) (cache : List String) :
    G.Keeps (σ := σ) G.Inner (Engine.putOff n.toSite span cache) (Engine.putOff n.toSite span cache) := by
  refine owner (bindEnv fun env env' h _ => child hn fun _ _ => ?_)
  rw [h.get?]
  exact (modifyWorld worldly_inner _).andThen fun _ => done _

end Acting

end Graft

namespace Engine.Grafts

open Graft Graft.Goes

variable (he : e.Grafts G)
include he

/-! ### Calls -/

theorem call {k : NodeId} (hk : G.Under k) : G.Keeps G.Inner (e.run k) (e.run k) :=
  (he.run hk).inner (he.restoring.run k) (he.restoring.run k)

theorem runCaptured {k : NodeId} (hk : G.Under k) : G.Gives G.Inner G.Left (e.runCaptured k) (e.runCaptured k) :=
  bindEnv fun _ _ h _ => (he.call hk).andThen fun status =>
    (capture status h.stack.levels).bind fun _ hleft => pure hleft

theorem resumeCaptured {saved : Stack} (hs : ∀ y ∈ saved.frames, G.Under y) :
    G.Gives G.Inner G.Left (e.resumeCaptured saved) (e.resumeCaptured saved) := by
  refine bindEnv fun env env' h _ => ?_
  have happend : G.Keeps (σ := σ) G.Inner (TickM.modifyEnv fun env => { env with stack := env.stack ++ saved })
      (TickM.modifyEnv fun env => { env with stack := env.stack ++ saved }) := fun _ _ ht =>
    ⟨rfl, trivial, ht.toNear.setStack (ht.env.stack.append saved hs), ht.slots.input, ht.slots.output⟩
  refine happend.andThen fun _ => ?_
  have hresume := (he.resume h.stack.levels).inner (he.restoring.resume _) (he.restoring.resume _)
  exact hresume.andThen fun status => (capture status h.stack.levels).bind fun _ hleft => pure hleft

theorem stepBranch {k : NodeId} (hk : G.Under k) {saved : Option Stack}
    (hs : ∀ s, saved = some s → ∀ y ∈ s.frames, G.Under y) :
    G.Gives G.Inner G.Left (e.stepBranch k saved) (e.stepBranch k saved) := by
  cases saved with
  | none => exact he.runCaptured hk
  | some saved => exact he.resumeCaptured (hs saved rfl)

/-! ### One child after the other -/

variable (hn : G.Has n)
include hn

theorem chain (next : Status) {ids : List NodeId} (hids : ∀ k ∈ ids, G.Under k) (i : Nat) :
    G.Keeps G.Inner (e.chain n.toSite next i ids) (e.chain n.toSite next i ids) := by
  induction ids generalizing i with
  | nil => exact done _
  | cons id ids ih =>
    obtain ⟨hid, hrest⟩ := List.forall_mem_cons.mp hids
    refine (he.call hid).andThen fun status => ?_
    cases status with
    | running => exact suspendFlat hn rfl
    | success => exact ite (ih hrest _) (done _)
    | failure => exact ite (ih hrest _) (done _)

theorem resumeChain (next : Status) :
    G.Keeps G.Inner (e.resumeChain n.toSite next) (e.resumeChain n.toSite next) := by
  refine saved? hn fun saved _ => ?_
  split
  · exact he.chain hn next (fun _ => hn.child) 0
  · refine (childStatus _).andThen fun status => ite ?_ (done _)
    exact he.chain hn next (fun _ hk => hn.child (List.mem_of_mem_drop hk)) _
  · exact rejectPayload _

theorem caseAction (case : Nat) {pair : List NodeId} (hp : ∀ k ∈ pair, G.Under k) :
    G.Keeps G.Inner (e.caseAction n.toSite case pair) (e.caseAction n.toSite case pair) := by
  refine element fun k hk => (he.call (hp k hk)).andThen fun status => ?_
  cases status with
  | running => exact suspendFlat hn rfl
  | success => exact done _
  | failure => exact done _

theorem tryCases {ids : List NodeId} (hids : ∀ k ∈ ids, G.Under k) (case : Nat) :
    G.Keeps G.Inner (e.tryCases n.toSite case ids) (e.tryCases n.toSite case ids) := by
  induction ids generalizing case with
  | nil => exact done _
  | cons id ids ih =>
    obtain ⟨hid, hrest⟩ := List.forall_mem_cons.mp hids
    refine node he.fits hid.subtree fun m _ hm => element fun k hk => ?_
    refine (he.call (hm.child hk)).andThen fun status => ?_
    cases status with
    | running => exact suspendFlat hn rfl
    | success => exact he.caseAction hn case fun _ => hm.child
    | failure => exact ih hrest _

theorem switch : G.Keeps G.Inner (e.switch n.toSite) (e.switch n.toSite) := by
  refine saved? hn fun saved _ => ?_
  split
  · exact he.tryCases hn (fun _ => hn.child) 0
  · refine (childStatus _).andThen fun status => ite (done _) (ite ?_ ?_)
    · exact child hn fun k hk => node he.fits hk.subtree fun m _ hm => he.caseAction hn _ fun _ => hm.child
    · exact he.tryCases hn (fun _ hk => hn.child (List.mem_of_mem_drop hk)) _
  · exact rejectPayload _

theorem branchAt (position : Nat) :
    G.Keeps G.Inner (e.branchAt n.toSite position) (e.branchAt n.toSite position) := by
  refine child hn fun k hk => (he.call hk).andThen fun status => ?_
  cases status with
  | running => exact suspendFlat hn rfl
  | success => exact done _
  | failure => exact done _

theorem branch (condition : Status) :
    G.Keeps G.Inner (e.branch n.toSite condition) (e.branch n.toSite condition) := by
  cases condition with
  | running => exact suspendFlat hn rfl
  | success => exact he.branchAt hn 1
  | failure => exact he.branchAt hn 2

theorem ifElse : G.Keeps G.Inner (e.ifElse n.toSite) (e.ifElse n.toSite) := by
  refine saved? hn fun saved _ => ?_
  split
  · exact child hn fun k hk => (he.call hk).andThen fun status => he.branch hn status
  · exact (childStatus _).andThen fun status => he.branch hn status
  · exact childStatus _
  · exact rejectPayload _

theorem pass (iteration : Nat) {ids : List NodeId} (hids : ∀ k ∈ ids, G.Under k) (i : Nat) :
    G.Keeps G.Inner (e.pass n.toSite iteration i ids) (e.pass n.toSite iteration i ids) := by
  induction ids generalizing i with
  | nil => exact done _
  | cons id ids ih =>
    obtain ⟨hid, hrest⟩ := List.forall_mem_cons.mp hids
    refine (he.call hid).andThen fun status => ?_
    cases status with
    | running => exact (suspendFlat hn rfl).andThen fun _ => done _
    | success => exact ih hrest _
    | failure => exact done _

section Passes

variable {enter : Nat → TickM σ Unit} (henter : ∀ i, G.Keeps G.Inner (enter i) (enter i))
include henter

theorem passes (count iteration : Nat) :
    G.Keeps G.Inner (e.passes n.toSite enter count iteration) (e.passes n.toSite enter count iteration) := by
  induction count generalizing iteration with
  | zero => exact done _
  | succ count ih =>
    refine (henter iteration).andThen fun _ => (he.pass hn iteration (fun _ => hn.child) 0).andThen fun ending => ?_
    cases ending with
    | passed => exact ih _
    | failed => exact done _
    | suspended => exact done _

theorem iterate (iterations : Nat) :
    G.Keeps G.Inner (e.iterate n.toSite iterations enter) (e.iterate n.toSite iterations enter) := by
  refine saved? hn fun saved _ => ?_
  split
  · exact he.passes hn henter _ _
  · rename_i iteration i _
    refine (childStatus _).andThen fun status => ?_
    cases status with
    | success =>
      refine ite ?_ (done _)
      refine (he.pass hn iteration (fun _ hk => hn.child (List.mem_of_mem_drop hk)) (i + 1)).andThen fun ending => ?_
      cases ending with
      | passed => exact he.passes hn henter _ _
      | failed => exact done _
      | suspended => exact done _
    | failure => exact done _
    | running => exact done _
  · exact rejectPayload _

end Passes

omit he hn in
theorem writeSlot (name : Option String) (value : Option Value) :
    G.Keeps (σ := σ) G.Inner (Engine.writeSlot name value) (Engine.writeSlot name value) := by
  cases name with
  | some name => exact set name value
  | none => exact done _

theorem loop (count : Nat) : G.Keeps G.Inner (e.loop n.toSite count) (e.loop n.toSite count) :=
  he.iterate hn (fun _ => writeSlot _ _) count

theorem forEach : G.Keeps G.Inner (e.forEach n.toSite) (e.forEach n.toSite) := by
  refine bindEnv fun env env' _ hs => ?_
  rw [input?_eq hs]
  split
  · refine he.iterate hn (fun i => element fun v _ => ?_) _
    exact (writeSlot _ _).andThen fun _ => writeSlot _ _
  · exact (report worldly_inner _).andThen fun _ => done _

/-! ### Children side by side -/

omit he in
theorem savedBranches :
    G.Gives (σ := σ) G.Inner (fun previous => ∀ saved, previous = some saved → G.Saves saved)
      (Engine.savedBranches n.toSite) (Engine.savedBranches n.toSite) := by
  refine saved? hn fun found hfound => ?_
  split
  · exact pure nofun
  · rename_i saved
    split
    · refine pure fun _ heq s hs y hy => ?_
      cases heq
      exact hfound _ rfl y (List.mem_flatMap.mpr ⟨s, List.mem_filterMap.mpr ⟨_, hs, rfl⟩, hy⟩)
    · exact rejectPayload _
  · exact rejectPayload _

omit he in
theorem suspendBranches {left : List (Option Stack)} (hl : G.Saves left) :
    G.Keeps (σ := σ) G.Inner (TickM.suspend n.toSite (.branches left)) (TickM.suspend n.toSite (.branches left)) := by
  refine suspend hn fun y hy => ?_
  obtain ⟨s, hs, hy⟩ := List.mem_flatMap.mp hy
  obtain ⟨o, ho, rfl⟩ := List.mem_filterMap.mp hs
  exact hl s ho y hy

omit hn

/-- Steps a child afresh, or on the stack that is saved for it. -/
theorem stepEntry {fresh : Bool} {id : NodeId} {saved : Option Stack} {entries : List (NodeId × Option Stack)}
    (hids : ∀ entry ∈ (id, saved) :: entries, G.Under entry.1) (hs : G.Saves (((id, saved) :: entries).map (·.2))) :
    G.Gives G.Inner G.Left (e.stepBranch id (if fresh then none else saved))
      (e.stepBranch id (if fresh then none else saved)) := by
  refine he.stepBranch (hids _ List.mem_cons_self) fun s heq => ?_
  split at heq
  · cases heq
  · exact hs s (heq ▸ List.mem_cons_self)

theorem stepAll (fresh : Bool) {entries : List (NodeId × Option Stack)} (hids : ∀ entry ∈ entries, G.Under entry.1)
    (hs : G.Saves (entries.map (·.2))) :
    G.Gives G.Inner G.Saves (e.stepAll fresh entries) (e.stepAll fresh entries) := by
  induction entries with
  | nil => exact pure nofun
  | cons entry entries ih =>
    obtain ⟨id, saved⟩ := entry
    have hrest := ih (fun entry h => hids entry (List.mem_cons_of_mem _ h)) fun s h => hs s (List.mem_cons_of_mem _ h)
    rw [Engine.stepAll]
    refine ite (hrest.bind fun left hleft => pure hleft.none_cons) ?_
    refine (he.stepEntry hids hs).bind fun r hr => hrest.bind fun left hleft => pure (hleft.cons fun s heq => ?_)
    split at heq
    · cases heq
      exact hr
    · cases heq

theorem raceAll (fresh : Bool) {passed : List (Option Stack)} (hp : G.Saves passed)
    {entries : List (NodeId × Option Stack)} (hids : ∀ entry ∈ entries, G.Under entry.1)
    (hs : G.Saves (entries.map (·.2))) :
    G.Gives G.Inner (fun r => G.Saves r.2) (e.raceAll fresh passed entries) (e.raceAll fresh passed entries) := by
  induction entries generalizing passed with
  | nil => exact pure fun s h => hp s (List.mem_reverse.mp h)
  | cons entry entries ih =>
    obtain ⟨id, saved⟩ := entry
    have hsrest : G.Saves (entries.map (·.2)) := fun s h => hs s (List.mem_cons_of_mem _ h)
    have hrest : ∀ {passed : List (Option Stack)}, G.Saves passed →
        G.Gives G.Inner (fun r => G.Saves r.2) (e.raceAll fresh passed entries) (e.raceAll fresh passed entries) :=
      fun hp => ih hp (fun entry h => hids entry (List.mem_cons_of_mem _ h)) hsrest
    rw [Engine.raceAll]
    refine ite (hrest hp.none_cons) ((he.stepEntry hids hs).bind fun r hr => ?_)
    obtain ⟨status, left⟩ := r
    cases status with
    | running =>
      refine hrest (hp.cons fun s heq => ?_)
      cases heq
      exact hr
    | failure => exact hrest hp.none_cons
    | success =>
      refine pure fun s h => ?_
      rcases List.mem_append.mp h with h | h
      · exact hp s (List.mem_reverse.mp h)
      · exact hsrest.none_cons s h

omit he in
theorem under_entry (hn : G.Has n) (saved : List (Option Stack)) : ∀ entry ∈ n.children.zip saved, G.Under entry.1 :=
  fun _ h => hn.child (List.of_mem_zip h).1

omit he in
theorem saves_zip {ids : List NodeId} {saved : List (Option Stack)} (h : G.Saves saved) :
    G.Saves ((ids.zip saved).map (·.2)) := by
  intro s hs
  obtain ⟨entry, hentry, heq⟩ := List.mem_map.mp hs
  exact h s (heq ▸ (List.of_mem_zip hentry).2)

omit he in
theorem saves_getD {previous : Option (List (Option Stack))} (h : ∀ saved, previous = some saved → G.Saves saved)
    (first : List (Option Stack)) (hfirst : ∀ s, some s ∈ first → s = ∅) : G.Saves (previous.getD first) := by
  cases previous with
  | some saved => exact h saved rfl
  | none =>
    intro s hs y hy
    rw [hfirst s hs] at hy
    cases hy

include hn

theorem parallel : G.Keeps G.Inner (e.parallel n.toSite) (e.parallel n.toSite) := by
  refine (savedBranches hn).bind fun previous hprevious => ?_
  have hsaves := saves_getD hprevious (n.children.map fun _ => none) (by simp)
  refine (he.stepAll _ (under_entry hn _) (saves_zip hsaves)).bind fun left hleft => ?_
  exact ite (suspendBranches hn hleft) (done _)

omit hn in
theorem abandonAll {left : List (Option Stack)} (hl : G.Saves left) :
    G.Keeps (σ := σ) G.Inner (Engine.abandonAll left) (Engine.abandonAll left) := by
  refine forM fun s hs => abandon he.fits ?_
  obtain ⟨o, ho, rfl⟩ := List.mem_filterMap.mp hs
  exact hl s ho

theorem race : G.Keeps G.Inner (e.race n.toSite) (e.race n.toSite) := by
  refine (savedBranches hn).bind fun previous hprevious => ?_
  have hsaves := saves_getD hprevious (n.children.map fun _ => some ∅) (by simp)
  refine (he.raceAll _ (by simp [Saves]) (under_entry hn _) (saves_zip hsaves)).bind fun r hr => ?_
  refine ite ((he.abandonAll hr).andThen fun _ => done _) (ite (suspendBranches hn hr) (done _))

theorem cleanUp : G.Keeps G.Inner (e.cleanUp n.toSite) (e.cleanUp n.toSite) := by
  refine child hn fun k hk => (he.runCaptured hk).bind fun r hr => ite ?_ (done _)
  exact (report worldly_inner _).andThen fun _ => abandon he.fits hr

theorem guarded {saved : Option Stack} (hs : ∀ s, saved = some s → ∀ y ∈ s.frames, G.Under y) :
    G.Keeps G.Inner (e.guarded n.toSite saved) (e.guarded n.toSite saved) := by
  refine child hn fun k hk => (he.stepBranch hk hs).bind fun r hr => ?_
  obtain ⟨status, left⟩ := r
  cases status with
  | running => exact suspend hn fun y hy => hr y (by simpa [Payload.nestedFrames, Payload.nested] using hy)
  | success => exact done _
  | failure => exact done _

theorem guardFailed {saved : Stack} (hs : ∀ y ∈ saved.frames, G.Under y) :
    G.Keeps G.Inner (e.guardFailed n.toSite saved) (e.guardFailed n.toSite saved) :=
  (report worldly_inner _).andThen fun _ => (abandon he.fits hs).andThen fun _ =>
    (he.cleanUp hn).andThen fun _ => done _

theorem guard {saved : Option Stack} (hs : ∀ s, saved = some s → ∀ y ∈ s.frames, G.Under y) :
    G.Keeps G.Inner (e.guard n.toSite saved) (e.guard n.toSite saved) := by
  refine child hn fun k hk => (he.call hk).andThen fun status => ?_
  cases status with
  | running => exact rejectStatus _ _
  | success => exact he.guarded hn hs
  | failure =>
    cases saved with
    | none => exact done _
    | some saved => exact he.guardFailed hn (hs saved rfl)

theorem watchdog : G.Keeps G.Inner (e.watchdog n.toSite) (e.watchdog n.toSite) := by
  refine saved? hn fun found hfound => ?_
  split
  · exact he.guard hn nofun
  · rename_i saved
    refine he.guard hn fun s heq y hy => ?_
    cases heq
    exact hfound _ rfl y (by simpa [Payload.nestedFrames, Payload.nested] using hy)
  · exact rejectPayload _

theorem expire (expiry : Float) {r : Status × Stack} (hr : G.Left r) :
    G.Keeps G.Inner (Engine.expire (σ := σ) n.toSite expiry r) (Engine.expire n.toSite expiry r) := by
  obtain ⟨status, left⟩ := r
  cases status with
  | running =>
    refine (time worldly_inner).andThen fun now => ite ?_ ?_
    · exact (report worldly_inner _).andThen fun _ => (abandon he.fits hr).andThen fun _ => done _
    · exact suspend hn fun y hy => hr y (by simpa [Payload.nestedFrames, Payload.nested] using hy)
  | success => exact done _
  | failure => exact done _

theorem timeout (limit : Float) : G.Keeps G.Inner (e.timeout n.toSite limit) (e.timeout n.toSite limit) := by
  refine saved? hn fun found hfound => ?_
  split
  · exact child hn fun k hk => (he.runCaptured hk).bind fun r hr => (time worldly_inner).andThen fun _ =>
      he.expire hn _ hr
  · refine (he.resumeCaptured fun y hy => ?_).bind fun r hr => he.expire hn _ hr
    exact hfound _ rfl y (by simpa [Payload.nestedFrames, Payload.nested] using hy)
  · exact rejectPayload _

/-! ### One child -/

theorem onlyChild : G.Keeps G.Inner (e.onlyChild n.toSite) (e.onlyChild n.toSite) := by
  refine saved? hn fun saved _ => ?_
  split
  · exact child hn fun k hk => he.call hk
  · exact childStatus _
  · exact rejectPayload _

theorem wrap (result : Status → Status) : G.Keeps G.Inner (e.wrap n.toSite result) (e.wrap n.toSite result) := by
  refine (he.onlyChild hn).andThen fun status => ?_
  cases status with
  | running => exact suspendFlat hn rfl
  | success => exact done _
  | failure => exact done _

omit he hn in
theorem setPrivate (id : NodeId) (name : String) (v : Value) :
    G.Keeps (σ := σ) G.Inner (TickM.modifyEnv (·.setPrivate id name (some v)))
      (TickM.modifyEnv (·.setPrivate id name (some v))) :=
  fun _ _ ht => ⟨rfl, trivial,
    ht.toNear.edit (·.setPrivate id name (some v)) (·.setPrivate id name (some v))
      (fun _ _ _ _ input output => ⟨input, output, rfl⟩) rfl rfl rfl, ht.slots.input, ht.slots.output⟩

theorem once : G.Keeps G.Inner (e.once n.toSite) (e.once n.toSite) := by
  refine bindEnv fun env env' h _ => ?_
  rw [h.isSuspended hn.subtree, Env.getPrivate?, Env.getPrivate?, h.privates]
  refine ite (he.wrap hn _) (ite (done _) ?_)
  exact (setPrivate _ _ _).andThen fun _ => he.wrap hn _

omit he in
theorem countRun (limit : Option Nat) (policy : RepeatPolicy) (k : Nat) (status : Status) :
    G.Keeps (σ := σ) G.Inner (Engine.countRun n.toSite limit policy k status)
      (Engine.countRun n.toSite limit policy k status) :=
  ite (done _) (ite (done _) (suspendFlat hn rfl))

theorem startRun (limit : Option Nat) (policy : RepeatPolicy) (count : Nat) :
    G.Keeps G.Inner (e.startRun n.toSite limit policy count) (e.startRun n.toSite limit policy count) := by
  refine ite (done _) (child hn fun k hk => (he.call hk).andThen fun status => ?_)
  cases status with
  | running => exact suspendFlat hn rfl
  | success => exact countRun hn limit policy count _
  | failure => exact countRun hn limit policy count _

theorem repeated (limit : Option Nat) (policy : RepeatPolicy) :
    G.Keeps G.Inner (e.repeated n.toSite limit policy) (e.repeated n.toSite limit policy) := by
  refine saved? hn fun saved _ => ?_
  split
  · exact he.startRun hn limit policy 0
  · exact (childStatus _).andThen fun status => countRun hn limit policy _ status
  · exact he.startRun hn limit policy _
  · exact rejectPayload _

omit he hn in
theorem dispatchNode (e : Engine σ) (site : Site) (event : String) :
    G.Keeps G.Inner (e.dispatchNode site event) (e.dispatchNode site event) := by
  refine (keeps_target? _ _).andThen fun target => ?_
  cases target with
  | none => exact done _
  | some target =>
    refine bindEnv fun env env' _ hs => ?_
    rw [input?_eq hs]
    refine (onWorld worldly_inner _).andThen fun heard => ?_
    exact ite ((modifyWorld worldly_inner _).andThen fun _ => done _) (done _)

/-- Whatever a node of the subtree is there for, it does the same on both grounds. -/
theorem behave : G.Keeps G.Inner (e.behave n.toSite n.behavior) (e.behave n.toSite n.behavior) := by
  have hplain := he.fits.plain hn.get
  cases hb : n.behavior with
  | sequence => exact he.resumeChain hn _
  | selector => exact he.resumeChain hn _
  | parallel => exact he.parallel hn
  | race => exact he.race hn
  | switch => exact he.switch hn
  | case => exact tree (fail _)
  | ifElse => exact he.ifElse hn
  | forEach => exact he.forEach hn
  | loop count => exact he.loop hn count
  | watchdog => exact he.watchdog hn
  | repeated limit policy => exact he.repeated hn limit policy
  | invert => exact he.wrap hn _
  | always status => exact he.wrap hn _
  | once => exact he.once hn
  | timeout limit => exact he.timeout hn limit
  | delay span cache => exact keeps_putOff hn span cache
  | wait span => exact keeps_wait hn span
  | listen event => exact keeps_listen hn event
  | dispatch event => exact dispatchNode e _ event
  | check expr => exact keeps_check _ expr
  | calculate expr => exact keeps_calculate _ expr
  | copy => exact keeps_copy _
  | isNull => exact keeps_inputIsNull.andThen fun _ => done _
  | notNull => exact keeps_inputIsNull.andThen fun _ => done _
  | log level text => exact keeps_log _ level text
  | now => exact keeps_now
  | leaf react => exact keeps_leaf hn react
  | routine steps => exact (hb ▸ hplain : (Behavior.routine steps).Plain).elim

/-! ### The frame of a node -/

omit he hn

variable {F : Status → Tick σ → Tick σ → Prop}

theorem near_writeOutputs (names : List String) (values : List (Option Value)) {t u : Tick σ} (h : G.Near t u) :
    G.Near { t with env := Engine.writeOutputs t.env names values }
      { u with env := Engine.writeOutputs u.env names values } := by
  unfold Engine.writeOutputs
  generalize names.zip values = pairs
  induction pairs generalizing t u with
  | nil => exact h
  | cons pair pairs ih =>
    obtain ⟨name, value⟩ := pair
    rw [List.foldl_cons, List.foldl_cons]
    by_cases hname : name = ""
    · simp only [hname, if_true]
      exact ih h
    · simp only [hname, if_false]
      refine ih (t := { t with env := t.env.set name value }) (u := { u with env := u.env.set name value }) ?_
      exact h.edit (·.set name value) (·.set name value) (fun _ _ _ _ input output => ⟨input, output, rfl⟩) rfl rfl rfl

/-- A node under the root leaves its frame on both grounds, or is not on top on either. -/
theorem leaveFrame (hG : G.Fits) {k : NodeId} (hk : G.Under k) (status : Status) :
    G.Keeps (σ := σ) G.Near (Engine.leaveFrame k status) (Engine.leaveFrame k status) := by
  intro t t' ht
  rw [leaveFrame_apply, leaveFrame_apply, ht.env.stack.top?_eq]
  split
  · rename_i htop
    obtain ⟨rest, rest', hframes, hframes', hstands⟩ := ht.env.stack.pop hG hk htop
    have hpop : ∀ {env : Env} {below : List NodeId}, env.stack.frames = k :: below →
        env.popFrame = { env with stack := ⟨below⟩, temps := env.temps.erase k } := by
      intro env below h
      simp [Env.popFrame, Stack.pop, h]
    refine ⟨rfl, trivial, ?_⟩
    rw [hpop hframes, hpop hframes']
    refine ⟨(ht.env.setStack hstands).setTemps (ht.env.payloads.erase hk.subtree), ht.world, fun hr => ?_⟩
    have hroot := ht.root hr
    rw [Env.isSuspended_eq] at hroot ⊢
    rw [Temps.get_erase, if_neg fun heq : k = G.root => hG.root_not_under (heq ▸ hk)]
    exact hroot
  · exact ⟨rfl, ht⟩

/-- What the result of a node does, given what becomes of its frame. -/
theorem conclude (hn : G.Has n) (hrun : ∀ u u', G.Near u u' → u.env.isSuspended n.id → F .running u u')
    (hleave : ∀ status, status ≠ .running → ∀ u u', G.Near u u' → u.env.lastStatus = status →
      (Engine.leaveFrame n.id status G.activation u).Matches F G.Near (Engine.leaveFrame n.id status G.activation u'))
    (status : Status) (output : List (Option Value)) :
    G.Goes G.Near F (Engine.conclude n status output) (Engine.conclude n status output) := by
  intro t t' ht
  have hset : G.Near { t with env := { t.env with lastStatus := status } }
      { t' with env := { t'.env with lastStatus := status } } :=
    ht.edit (fun env => { env with lastStatus := status }) (fun env => { env with lastStatus := status })
      (fun _ _ _ _ input output => ⟨input, output, rfl⟩) rfl rfl rfl
  by_cases hs : status = .running
  · subst hs
    rw [conclude_running_eq, conclude_running_eq, hset.env.isSuspended hn.subtree]
    split
    · rename_i hsuspended
      exact ⟨rfl, hrun _ _ hset hsuspended⟩
    · refine ⟨rfl, hrun _ _ (hset.setPayload hn.subtree (by simp [Payload.nestedFrames, Payload.nested])) ?_⟩
      exact (Env.isSuspended_setPayload _ _ _ _).mpr (.inl rfl)
  · rw [conclude_ended_eq hs, conclude_ended_eq hs]
    obtain ⟨vars, hvars⟩ := exists_vars_writeOutputs { t.env with lastStatus := status } n.output output
    exact hleave status hs _ _ (near_writeOutputs _ _ hset) (congrArg Env.lastStatus hvars)

theorem unlessInterrupted {m m' : TickM σ Status}
    (hpause : ∀ u u', G.Near u u' → (u.world.instanceOf G.activation.owner).interrupted = true → F .running u u')
    (hm : G.Goes G.Near F m m') :
    G.Goes G.Near F (do if ← TickM.interrupted then return .running else m)
      (do if ← TickM.interrupted then return .running else m') := by
  intro t t' ht
  change ((if (t.world.instanceOf _).interrupted then _ else _ : TickM σ Status) G.activation t).Matches F G.Near
    ((if (t'.world.instanceOf _).interrupted then _ else _ : TickM σ Status) G.activation t')
  rw [ht.world]
  split
  · rename_i hflag
    exact ⟨rfl, hpause t t' ht hflag⟩
  · exact hm t t' ht

/-- The result of a node counts once its slot values have been given back, unless someone has asked for an
interruption. -/
theorem closeNode {resumed : Bool} {before before' : Env} (result : Except RunError Status)
    (hpause : ∀ u u', G.Near u u' → (u.world.instanceOf G.activation.owner).interrupted = true → F .running u u')
    (hconclude : ∀ status output, G.Goes G.Near F (Engine.conclude n status output) (Engine.conclude n status output))
    {t t' : Tick σ} (ht : G.Inner t t') :
    (Engine.closeNode n resumed before result G.activation t).Matches F G.Near
      (Engine.closeNode n resumed before' result G.activation t') := by
  have hback : G.Keeps (σ := σ) G.Near
      (TickM.modifyEnv fun env => { env with input := before.input, output := before.output })
      (TickM.modifyEnv fun env => { env with input := before'.input, output := before'.output }) := fun _ _ hu =>
    ⟨rfl, trivial, hu.edit (fun env => { env with input := before.input, output := before.output })
      (fun env => { env with input := before'.input, output := before'.output })
      (fun _ _ _ _ _ _ => ⟨before'.input, before'.output, rfl⟩) rfl rfl rfl⟩
  unfold Engine.closeNode
  rw [TickM.bind_apply, TickM.bind_apply]
  dsimp only [TickM.env]
  rw [ht.slots.output]
  refine (hback.andThen fun _ => (observe worldly_near _).andThen fun _ => ?_) t t' ht.toNear
  cases result with
  | error error => exact fail error
  | ok status =>
    exact unlessInterrupted hpause
      (ite ((report worldly_near _).andThen fun _ => hconclude status _) (hconclude status _))

include he hn

/-- A node that has its frame runs alike on both grounds, given what becomes of that frame. -/
theorem runFramed (hpause : ∀ u u', G.Near u u' → (u.world.instanceOf G.activation.owner).interrupted = true →
      F .running u u')
    (hrun : ∀ u u', G.Near u u' → u.env.isSuspended n.id → F .running u u')
    (hleave : ∀ status, status ≠ .running → ∀ u u', G.Near u u' → u.env.lastStatus = status →
      (Engine.leaveFrame n.id status G.activation u).Matches F G.Near (Engine.leaveFrame n.id status G.activation u'))
    (resumed : Bool) :
    G.Goes G.Near F (e.runFramed n resumed) (e.runFramed n resumed) := by
  intro t t' ht
  have hopened : G.Inner (t.opened G.activation n resumed) (t'.opened G.activation n resumed) := by
    refine ⟨⟨?_, ?_, ht.root⟩, ?_, rfl⟩
    · exact ht.env.edit (fun env => { env with input := n.input.map t.env.get?, output := [] })
        (fun env => { env with input := n.input.map t'.env.get?, output := [] })
        (fun _ _ _ _ _ _ => ⟨n.input.map t'.env.get?, [], rfl⟩) rfl rfl rfl
    · exact congrArg (fun w : World σ => w.observe G.activation.owner (.called n.id resumed)) ht.world
    · exact congrArg (n.input.map ·) ht.env.get?
  have hends := he.behave hn _ _ hopened
  have hclose : ∀ result {u u' : Tick σ}, G.Inner u u' →
      (Engine.closeNode n resumed t.env result G.activation u).Matches F G.Near
        (Engine.closeNode n resumed t'.env result G.activation u') := fun result _ _ =>
    closeNode result hpause (conclude hn hrun hleave)
  rw [runFramed_eq, runFramed_eq, TickM.bind_apply, TickM.bind_apply, TickM.attempt_apply, TickM.attempt_apply]
  generalize e.behave n.toSite n.behavior G.activation (t.opened G.activation n resumed) = o,
    e.behave n.toSite n.behavior G.activation (t'.opened G.activation n resumed) = o' at hends
  cases o <;> cases o'
  case ok.ok status u status' u' =>
    obtain ⟨rfl, -, hu⟩ := hends
    exact hclose (.ok status') hu
  case failed.failed error u error' u' =>
    obtain ⟨rfl, hu⟩ := hends
    exact hclose (.error error') hu
  case halted.halted => exact hends
  all_goals exact hends.elim

theorem runNode (hk : G.Under n.id) : G.Keeps G.Near (e.runNode n) (e.runNode n) := by
  have hframed : ∀ resumed, G.Keeps G.Near (e.runFramed n resumed) (e.runFramed n resumed) :=
    he.runFramed hn (fun _ _ hu _ => ⟨trivial, hu⟩) (fun _ _ hu _ => ⟨trivial, hu⟩) fun status _ u u' hu _ =>
      leaveFrame he.fits hk status u u' hu
  intro t t' ht
  rw [runNode_eq, runNode_eq, ht.env.isSuspended hn.subtree]
  split
  · exact hframed _ t t' ht
  · exact hframed _ _ _ (ht.setStack (ht.env.stack.push hk))

omit hn

/-- The frames above a level, of which none is the root's. -/
theorem resumeAbove {l l' : Nat} (hl : G.Levels l l') :
    G.Keeps G.Near (e.resumeAbove l) (e.resumeAbove l') := by
  intro t t' ht
  obtain ⟨above, habove, hframes, hframes'⟩ := ht.env.stack
  obtain ⟨k, rfl, rfl⟩ := hl
  by_cases hlevel : above.length ≤ k
  · rw [resumeAbove_of_le, resumeAbove_of_le, ht.env.lastStatus]
    · exact ⟨rfl, trivial, ht⟩
    · rw [Stack.size, hframes', List.length_append, List.length_cons, Stack.size]
      omega
    · rw [Stack.size, hframes, List.length_append, List.length_cons, Stack.size]
      omega
  · cases above with
    | nil => exact absurd (Nat.zero_le k) hlevel
    | cons top above =>
      have hbelow : ∀ base : Stack, k + (base.size + 1) ≤ (above ++ G.root :: base.frames).length := by
        intro base
        rw [List.length_append, List.length_cons, Stack.size]
        rw [List.length_cons] at hlevel
        omega
      rw [resumeAbove_of_lt hframes (hbelow _), resumeAbove_of_lt hframes' (hbelow _)]
      refine (he.run (habove top List.mem_cons_self)).andThen (fun status => ?_) t t' ht
      cases status with
      | running => exact done _
      | success => exact he.resume ⟨k, rfl, rfl⟩
      | failure => exact he.resume ⟨k, rfl, rfl⟩

end Engine.Grafts

/-- Nodes under the root run alike on both grounds, and so do the frames above the root. -/
theorem Engine.grafts_ofDepth (hG : G.Fits) (depth : Nat) : (Engine.ofDepth depth : Engine σ).Grafts G := by
  induction depth with
  | zero => exact ⟨hG, Engine.restoring_ofDepth 0, fun _ => Graft.Goes.halt _, fun _ => Graft.Goes.halt _⟩
  | succ depth ih =>
    refine ⟨hG, Engine.restoring_ofDepth _, fun {k} hk => ?_, fun hl => ih.resumeAbove hl⟩
    exact Graft.Goes.node hG hk.subtree fun n hid hn => ih.runNode hn (hid.symm ▸ hk)

end BehaviorTree
