import BehaviorTree.Proofs.World.Watch

/-!
What happens to an instance that is executing while others act: its variables may change, jobs are queued, and
interruptions and clearings are asked for, each of which the journal tells. Nothing else about it changes.
-/

namespace BehaviorTree
set_option autoImplicit false

variable {σ : Type}

namespace Activity

def job? : Activity → Option Job
  | queued job => some job
  | _ => none

def isRequest : Activity → Bool
  | requested _ => true
  | _ => false

def isClear : Activity → Bool
  | requested clear => clear
  | _ => false

theorem any_isClear {acts : List Activity} (h : acts.any isRequest = false) : acts.any isClear = false := by
  refine List.any_eq_false.mpr fun a ha hc => ?_
  have hreq := List.any_eq_false.mp h a ha
  cases a <;> simp_all [isClear, isRequest]

def node? : Activity → Option NodeId
  | called id _ | returned id _ => some id
  | _ => none

/-- What an executing instance is seen to do while others act, and besides while its own nodes run. -/
def Quiet (mine : Bool) : Activity → Prop
  | queued _ | requested _ | assigned .. => True
  | called .. | returned .. => mine = true
  | _ => False

/-- What an instance is seen to do while it is acted on, short of telling others and dropping everything. -/
def Inner : Activity → Prop
  | announced .. | unwound => False
  | _ => True

theorem Quiet.inner {a : Activity} {mine : Bool} (h : a.Quiet mine) : a.Inner := by
  cases a <;> simp_all [Quiet, Inner]

theorem Quiet.node? {a : Activity} (h : a.Quiet false) : a.node? = none := by
  cases a <;> simp_all [Quiet, Activity.node?]

theorem Quiet.mono {a : Activity} {mine : Bool} (h : a.Quiet false) : a.Quiet mine := by
  cases a <;> simp_all [Quiet]

end Activity

structure Instance.Carries (mine : Bool) (i i' : Instance) (acts : List Activity) : Prop where
  env : ∃ vars, i'.env = { i.env with vars }
  pending : i'.pending = i.pending ++ acts.filterMap Activity.job?
  interrupted : i'.interrupted = (i.interrupted || acts.any Activity.isRequest)
  clearRequested : i'.clearRequested = (i.clearRequested || acts.any Activity.isClear)
  quiet : ∀ a ∈ acts, a.Quiet mine

namespace Instance.Carries

variable {mine : Bool} {i i' i'' : Instance} {acts acts' : List Activity}

theorem refl (mine : Bool) (i : Instance) : i.Carries mine i [] := by
  refine ⟨⟨i.env.vars, rfl⟩, by simp, by simp, by simp, by simp⟩

theorem trans (h : i.Carries mine i' acts) (h' : i'.Carries mine i'' acts') :
    i.Carries mine i'' (acts ++ acts') := by
  obtain ⟨vars, hv⟩ := h.env
  obtain ⟨vars', hv'⟩ := h'.env
  refine ⟨⟨vars', by rw [hv', hv]⟩, ?_, ?_, ?_, ?_⟩
  · rw [h'.pending, h.pending, List.filterMap_append, List.append_assoc]
  · rw [h'.interrupted, h.interrupted, List.any_append, Bool.or_assoc]
  · rw [h'.clearRequested, h.clearRequested, List.any_append, Bool.or_assoc]
  · intro a ha
    rcases List.mem_append.mp ha with ha | ha
    · exact h.quiet a ha
    · exact h'.quiet a ha

theorem mono (h : i.Carries false i' acts) : i.Carries mine i' acts :=
  ⟨h.env, h.pending, h.interrupted, h.clearRequested, fun a ha => (h.quiet a ha).mono⟩

end Instance.Carries

/-- An instance that is worked on is asked for interruptions and clearings as the journal tells. -/
structure Instance.Works (i i' : Instance) (acts : List Activity) : Prop where
  interrupted : i'.interrupted = (i.interrupted || acts.any Activity.isRequest)
  clearRequested : i'.clearRequested = (i.clearRequested || acts.any Activity.isClear)
  inner : ∀ a ∈ acts, a.Inner

namespace Instance.Works

variable {i i' i'' : Instance} {acts acts' : List Activity}

theorem of_eq (hi : i'.interrupted = i.interrupted) (hc : i'.clearRequested = i.clearRequested) : i.Works i' [] :=
  ⟨by simp [hi], by simp [hc], by simp⟩

theorem of_activity {a : Activity} (ha : a.Inner) (hr : a.isRequest = false)
    (hi : i'.interrupted = i.interrupted) (hc : i'.clearRequested = i.clearRequested) : i.Works i' [a] := by
  refine ⟨?_, ?_, ?_⟩
  · rw [hi, List.any_cons, hr, List.any_nil, Bool.or_false, Bool.or_false]
  · have hclear : [a].any Activity.isClear = false := Activity.any_isClear (by rw [List.any_cons, hr]; rfl)
    rw [hc, hclear, Bool.or_false]
  · intro b hb
    rw [List.mem_singleton.mp hb]
    exact ha

theorem refl (i : Instance) : i.Works i [] := .of_eq rfl rfl

theorem trans (h : i.Works i' acts) (h' : i'.Works i'' acts') : i.Works i'' (acts ++ acts') := by
  refine ⟨?_, ?_, ?_⟩
  · rw [h'.interrupted, h.interrupted, List.any_append, Bool.or_assoc]
  · rw [h'.clearRequested, h.clearRequested, List.any_append, Bool.or_assoc]
  · intro a ha
    rcases List.mem_append.mp ha with ha | ha
    · exact h.inner a ha
    · exact h'.inner a ha

end Instance.Works

theorem Instance.Carries.works {mine : Bool} {i i' : Instance} {acts : List Activity} (h : i.Carries mine i' acts) :
    i.Works i' acts := ⟨h.interrupted, h.clearRequested, fun a ha => (h.quiet a ha).inner⟩

/-- The part of an instance in what happens: others act, its nodes run, its ticks and jobs are run, or it is acted
on as a whole. -/
inductive Part where
  | guest
  | ticking
  | working
  | acted
  deriving DecidableEq

def Part.Allows (part : Part) (i i' : Instance) (acts : List Activity) : Prop :=
  match part with
  | .guest => i.Carries false i' acts
  | .ticking => i.Carries true i' acts
  | .working => i.Works i' acts
  | .acted => True

namespace Part.Allows

variable {part : Part} {i i' i'' : Instance} {acts acts' : List Activity}

theorem refl (part : Part) (i : Instance) : part.Allows i i [] := by
  cases part with
  | guest => exact Instance.Carries.refl _ i
  | ticking => exact Instance.Carries.refl _ i
  | working => exact Instance.Works.refl i
  | acted => trivial

theorem trans (h : part.Allows i i' acts) (h' : part.Allows i' i'' acts') : part.Allows i i'' (acts ++ acts') := by
  cases part with
  | guest => exact Instance.Carries.trans h h'
  | ticking => exact Instance.Carries.trans h h'
  | working => exact Instance.Works.trans h h'
  | acted => trivial

theorem of_guest (h : Part.guest.Allows i i' acts) : part.Allows i i' acts := by
  cases part with
  | guest => exact h
  | ticking => exact Instance.Carries.mono h
  | working => exact Instance.Carries.works h
  | acted => trivial

end Part.Allows

theorem Part.Allows.works {part : Part} {i i' : Instance} {acts : List Activity} (h : part.Allows i i' acts)
    (hp : part ≠ .acted) : i.Works i' acts := by
  cases part with
  | guest => exact Instance.Carries.works h
  | ticking => exact Instance.Carries.works h
  | working => exact h
  | acted => exact absurd rfl hp

/-- The instances of one world go on in another, each in its part. Executing instances keep their trees; others do
if `keep` is set. Nothing of a new instance is under way. -/
structure World.Advances (keep : Bool) (part : Tag → Part) (w w' : World σ) : Prop where
  each (o : Tag) : ∃ acts, w'.acts o = w.acts o ++ acts ∧
    ∀ i, w.instances[o]? = some i → ∃ i', w'.instances[o]? = some i' ∧ i'.executing = i.executing ∧
      (keep = true ∨ i.executing = true → i'.tree = i.tree) ∧ (i.executing = true → (part o).Allows i i' acts)
  fresh {o : Tag} {i : Instance} : w.instances[o]? = none → w'.instances[o]? = some i → i.executing = false

/-- Everyone is a guest. -/
abbrev Part.none : Tag → Part := fun _ => .guest

/-- One instance has a part, the others are guests. -/
def Part.only (part : Part) (owner : Tag) : Tag → Part := fun o => if o = owner then part else .guest

@[simp] theorem Part.only_self (part : Part) (owner : Tag) : part.only owner owner = part := if_pos rfl

theorem Part.only_of_ne {part : Part} {owner o : Tag} (h : o ≠ owner) : part.only owner o = .guest := if_neg h

namespace World

variable {w w' w'' : World σ} {keep keep' : Bool} {part part' : Tag → Part} {p : Part} {owner : Tag} {i i' : Instance}

theorem instanceOf_eq (h : w.instances[owner]? = some i) : w.instanceOf owner = i := by
  rw [instanceOf, Std.ExtTreeMap.getD_eq_getD_getElem?, h]
  rfl

theorem getElem?_modifyInstance (h : w.instances[owner]? = some i) (f : Instance → Instance) (o : Tag) :
    (w.modifyInstance owner f).instances[o]? = if owner = o then some (f i) else w.instances[o]? := by
  simp [modifyInstance, setInstance, instanceOf_eq h, Std.ExtTreeMap.getElem?_insert]

/-- An instance while something of it is under way. -/
def lock (w : World σ) (owner : Tag) : World σ := w.modifyInstance owner fun i => { i with executing := true }

@[simp] theorem acts_modifyInstance (w : World σ) (f : Instance → Instance) (o o' : Tag) :
    (w.modifyInstance o f).acts o' = w.acts o' := rfl

@[simp] theorem instances_record (w : World σ) (e : Entry) : (w.record e).instances = w.instances := rfl

@[simp] theorem instances_report (w : World σ) (r : Report) : (w.report r).instances = w.instances := rfl

@[simp] theorem instances_observe (w : World σ) (o : Tag) (a : Activity) :
    (w.observe o a).instances = w.instances := rfl

/-- One instance changes and is seen to do something; nothing else in the world changes but its reports. -/
structure Changes (w w' : World σ) (owner : Tag) (i' : Instance) (acts : List Activity) : Prop where
  registry : w'.registry = w.registry
  host : w'.host = w.host
  subscriptions : w'.subscriptions = w.subscriptions
  delays : w'.delays = w.delays
  nextTag : w'.nextTag = w.nextTag
  instances (o : Tag) : w'.instances[o]? = if owner = o then some i' else w.instances[o]?
  acts (o : Tag) : w'.acts o = w.acts o ++ if owner = o then acts else []

namespace Changes

variable {acts : List Activity}

theorem refl (h : w.instances[owner]? = some i) : w.Changes w owner i [] := by
  refine ⟨rfl, rfl, rfl, rfl, rfl, ?_, by simp⟩
  intro o
  split
  · rename_i ho
    rw [← ho, h]
  · rfl

theorem self (h : w.Changes w' owner i' acts) : w'.instances[owner]? = some i' := by simp [h.instances]

theorem acts_self (h : w.Changes w' owner i' acts) : w'.acts owner = w.acts owner ++ acts := by simp [h.acts]

theorem modify (h : w.Changes w' owner i' acts) (f : Instance → Instance) :
    w.Changes (w'.modifyInstance owner f) owner (f i') acts := by
  refine ⟨h.registry, h.host, h.subscriptions, h.delays, h.nextTag, ?_, h.acts⟩
  intro o
  rw [getElem?_modifyInstance h.self, h.instances]
  split <;> rfl

theorem observe (h : w.Changes w' owner i' acts) (a : Activity) :
    w.Changes (w'.observe owner a) owner i' (acts ++ [a]) := by
  refine ⟨h.registry, h.host, h.subscriptions, h.delays, h.nextTag, h.instances, ?_⟩
  intro o
  rw [acts_observe, h.acts, List.append_assoc]
  split <;> simp

end Changes

namespace Advances

theorem refl (w : World σ) : w.Advances keep part w := by
  refine ⟨?_, ?_⟩
  · intro o
    exact ⟨[], by simp, fun i hi => ⟨i, hi, rfl, fun _ => rfl, fun _ => .refl _ i⟩⟩
  · intro o i hn hi
    rw [hn] at hi
    cases hi

theorem trans (h : w.Advances keep part w') (h' : w'.Advances keep part w'') : w.Advances keep part w'' := by
  refine ⟨?_, ?_⟩
  · intro o
    obtain ⟨acts, ha, hi⟩ := h.each o
    obtain ⟨acts', ha', hi'⟩ := h'.each o
    refine ⟨acts ++ acts', by rw [ha', ha, List.append_assoc], ?_⟩
    intro i hio
    obtain ⟨j, hj, hexec, htree, hallow⟩ := hi i hio
    obtain ⟨k, hk, hexec', htree', hallow'⟩ := hi' j hj
    refine ⟨k, hk, hexec'.trans hexec, ?_, ?_⟩
    · intro hkeep
      rw [htree' (by rwa [hexec]), htree hkeep]
    · intro he
      exact (hallow he).trans (hallow' (hexec.trans he))
  · intro o i hn hi
    cases hn' : w'.instances[o]? with
    | none => exact h'.fresh hn' hi
    | some j =>
      obtain ⟨_, _, hi'⟩ := h'.each o
      obtain ⟨k, hk, hexec, _⟩ := hi' j hn'
      obtain rfl : k = i := Option.some.inj (hk.symm.trans hi)
      rw [hexec]
      exact h.fresh hn hn'

theorem mono (h : w.Advances keep part w') (hkeep : keep' = true → keep = true)
    (hpart : ∀ (o : Tag) (i i' : Instance) (acts : List Activity), w.instances[o]? = some i → i.executing = true →
      (part o).Allows i i' acts → (part' o).Allows i i' acts) : w.Advances keep' part' w' := by
  refine ⟨?_, h.fresh⟩
  intro o
  obtain ⟨acts, ha, hi⟩ := h.each o
  refine ⟨acts, ha, ?_⟩
  intro i hio
  obtain ⟨j, hj, hexec, htree, hallow⟩ := hi i hio
  exact ⟨j, hj, hexec, fun hk => htree (hk.imp_left hkeep), fun he => hpart o i j acts hio he (hallow he)⟩

theorem of_guests (h : w.Advances keep Part.none w') (hkeep : keep' = true → keep = true) :
    w.Advances keep' part w' := h.mono hkeep fun _ _ _ _ _ _ ha => ha.of_guest

/-- What is done to an instance that is idle is nothing to those that execute. -/
theorem of_idle (h : w.Advances keep (Part.only p owner) w') (hi : w.instances[owner]? = some i)
    (he : i.executing = false) : w.Advances keep part w' := by
  refine h.mono id ?_
  intro o j j' acts hj hej ha
  by_cases ho : o = owner
  · subst ho
    obtain rfl : i = j := Option.some.inj (hi.symm.trans hj)
    rw [he] at hej
    cases hej
  · rw [Part.only_of_ne ho] at ha
    exact ha.of_guest

theorem of_eq (hacts : ∀ o, w'.acts o = w.acts o) (hinst : w'.instances = w.instances) :
    w.Advances keep part w' := by
  refine ⟨?_, ?_⟩
  · intro o
    exact ⟨[], by simp [hacts], fun i hi => ⟨i, by rw [hinst]; exact hi, rfl, fun _ => rfl, fun _ => .refl _ i⟩⟩
  · intro o i hn hi
    rw [hinst, hn] at hi
    cases hi

theorem of_changes {acts : List Activity} (h : w.Changes w' owner i' acts) (hi : w.instances[owner]? = some i)
    (hexec : i'.executing = i.executing) (htree : keep = true ∨ i.executing = true → i'.tree = i.tree)
    (hallow : i.executing = true → (part owner).Allows i i' acts) : w.Advances keep part w' := by
  refine ⟨?_, ?_⟩
  · intro o
    by_cases ho : owner = o
    · subst ho
      refine ⟨acts, by simp [h.acts], ?_⟩
      intro j hj
      obtain rfl : i = j := Option.some.inj (hi.symm.trans hj)
      exact ⟨i', by simp [h.instances], hexec, htree, hallow⟩
    · refine ⟨[], by simp [h.acts, ho], ?_⟩
      intro j hj
      exact ⟨j, by simp [h.instances, ho, hj], rfl, fun _ => rfl, fun _ => .refl _ j⟩
  · intro o j hn hj
    rw [h.instances] at hj
    split at hj
    · rename_i ho
      rw [← ho, hi] at hn
      cases hn
    · rw [hn] at hj
      cases hj

/-- An instance that is being acted on, and what others see of it. -/
theorem exists_instance (h : w.Advances keep part w') (hi : w.instances[owner]? = some i) :
    ∃ i', w'.instances[owner]? = some i' ∧ i'.executing = i.executing ∧
      (keep = true ∨ i.executing = true → i'.tree = i.tree) := by
  obtain ⟨_, _, hi'⟩ := h.each owner
  obtain ⟨i', hi', hexec, htree, _⟩ := hi' i hi
  exact ⟨i', hi', hexec, htree⟩

theorem exists_allowed (h : w.Advances keep part w') (hi : w.instances[owner]? = some i) (he : i.executing = true) :
    ∃ i' acts, w'.instances[owner]? = some i' ∧ i'.executing = true ∧ i'.tree = i.tree ∧
      w'.acts owner = w.acts owner ++ acts ∧ (part owner).Allows i i' acts := by
  obtain ⟨acts, ha, hi'⟩ := h.each owner
  obtain ⟨i', hi', hexec, htree, hallow⟩ := hi' i hi
  exact ⟨i', acts, hi', hexec.trans he, htree (.inr he), ha, hallow he⟩

end Advances

end World

end BehaviorTree
