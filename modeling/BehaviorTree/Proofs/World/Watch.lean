import BehaviorTree.World

/-!
Reading the journal of one instance. The calls and returns of its nodes tell which of them are under way, and which
of these hold suspended children in hand. A parallel or racing node that fails then loses them: they keep their
payloads, while no stack has their frames any more.
-/

namespace BehaviorTree
set_option autoImplicit false

variable {σ : Type}

def Entry.of? (owner : Tag) : Entry → Option Activity
  | .activity tag a => if tag = owner then some a else none
  | _ => none

/-- What an instance was seen to do. -/
def World.acts (w : World σ) (owner : Tag) : List Activity := w.journal.toList.filterMap (Entry.of? owner)

def Behavior.runsAbreast : Behavior → Bool
  | parallel | race => true
  | _ => false

def Tree.runsAbreast (t : Tree) (id : NodeId) : Bool := (t.get? id).any (·.behavior.runsAbreast)

/-- The nodes that are under way, the innermost first, each with whether a child of it is known to be suspended; and
whether suspended children were lost. -/
structure Watch where
  active : List (NodeId × Bool) := []
  spilled : Bool := false

namespace Watch

def mark (w : Watch) : Watch :=
  match w.active with
  | [] => w
  | (id, _) :: rest => { w with active := (id, true) :: rest }

/-- Notes how a child of the innermost node ended. -/
def after (w : Watch) (status : Status) : Watch := if status = .running then w.mark else w

def step (t : Tree) (w : Watch) : Activity → Watch
  | .called id _ => { w with active := (id, false) :: w.active }
  | .returned _ result =>
    match w.active with
    | [] => w
    | (id, holds) :: rest =>
      match result with
      | some status => { w with active := rest }.after status
      | none => { active := rest, spilled := w.spilled || (holds && t.runsAbreast id) }
  | .unwound => {}
  | _ => w

end Watch

def World.watch (w : World σ) (owner : Tag) (t : Tree) : Watch := (w.acts owner).foldl (Watch.step t) {}

/-- Whether a node of an instance has failed with suspended children in hand, and not everything was dropped since. -/
def World.spilled (w : World σ) (owner : Tag) (t : Tree) : Bool := (w.watch owner t).spilled

/-- No node of an instance has failed, and so no tick or job of it. -/
def World.Faultless (w : World σ) (owner : Tag) : Prop := ∀ id, Activity.returned id none ∉ w.acts owner

variable {w w' : World σ} {owner tag : Tag} {t : Tree}

theorem World.acts_record (w : World σ) (e : Entry) (owner : Tag) :
    (w.record e).acts owner = w.acts owner ++ (e.of? owner).toList := by
  simp only [acts, record, Array.toList_push, List.filterMap_append]
  cases h : e.of? owner <;> simp [h]

@[simp] theorem World.acts_report (w : World σ) (r : Report) (owner : Tag) :
    (w.report r).acts owner = w.acts owner := by
  simp [report, acts_record, Entry.of?]

@[simp] theorem World.acts_observe (w : World σ) (a : Activity) (tag owner : Tag) :
    (w.observe tag a).acts owner = w.acts owner ++ if tag = owner then [a] else [] := by
  rw [observe, acts_record, Entry.of?]
  split <;> rfl

theorem World.watch_of_acts {acts : List Activity} (h : w'.acts owner = w.acts owner ++ acts) :
    w'.watch owner t = acts.foldl (Watch.step t) (w.watch owner t) := by
  rw [watch, h, List.foldl_append, watch]

theorem Watch.spilled_step {w : Watch} {a : Activity} (ha : ∀ id, a ≠ .returned id none) (hw : w.spilled = false) :
    (w.step t a).spilled = false := by
  cases a with
  | returned id result =>
    cases result with
    | none => exact absurd rfl (ha id)
    | some status =>
      obtain ⟨active, spilled⟩ := w
      cases active with
      | nil => exact hw
      | cons top rest =>
        simp only [step, after]
        split
        · rw [mark]
          split <;> exact hw
        · exact hw
  | unwound => rfl
  | called | entered | left | queued | started | announced | requested | assigned => exact hw

namespace World.Faultless

/-- What has not failed by now had not failed before. -/
theorem of_acts {acts : List Activity} (h : w'.Faultless owner) (ha : w'.acts owner = w.acts owner ++ acts) :
    w.Faultless owner := fun id hm => h id (ha ▸ List.mem_append_left _ hm)

theorem spilled (h : w.Faultless owner) (t : Tree) : w.spilled owner t = false := by
  have hfold : ∀ (acts : List Activity) (v : Watch), (∀ id, Activity.returned id none ∉ acts) → v.spilled = false →
      (acts.foldl (Watch.step t) v).spilled = false := by
    intro acts
    induction acts with
    | nil => exact fun _ _ hv => hv
    | cons a acts ih =>
      intro v hacts hv
      refine ih _ (fun id hm => hacts id (List.mem_cons_of_mem _ hm)) (Watch.spilled_step (fun id ha => ?_) hv)
      exact hacts id (ha ▸ List.mem_cons_self)
  exact hfold _ _ h rfl

end World.Faultless

end BehaviorTree
