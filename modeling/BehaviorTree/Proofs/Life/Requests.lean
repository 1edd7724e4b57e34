import BehaviorTree.Proofs.Life.Exclusion

/-!
What becomes of requests to interrupt an instance or to clear it. A request made before the tick of a run is settled
makes the run fail, and leaves nothing of the instance. A request to clear stays until the clearing is told. Of the
jobs that wait when an interruption is asked for at most one still starts, and none if a tick or job was under way.
-/

namespace BehaviorTree
set_option autoImplicit false

variable {σ : Type} {w w' : World σ} {o : Tag} {c d f : Course} {n : Nat}

namespace Activity

/-- The waiting jobs are dropped, or the instance is cleared. -/
def Drops : Activity → Prop
  | announced name _ => name = Lifecycle.cleaned.name
  | unwound => True
  | _ => False

def opens (opening : Bool) : Activity → Bool
  | announced name _ => name == Lifecycle.beforeRun.name
  | entered | unwound => false
  | _ => opening

/-- Whether a run was about to begin after these things were seen. -/
def beginning (acts : List Activity) : Bool := acts.foldl opens false

/-- An event of the life of an instance is told. -/
def tells (event : Lifecycle) : Activity → Bool
  | announced name _ => name == event.name
  | _ => false

theorem Within.not_drops {a : Activity} (h : a.Within .beforeRun) : ¬ a.Drops := by
  cases a with
  | announced name args => exact fun hd => absurd (Lifecycle.name_inj.mp (h.symm.trans hd)) (by simp)
  | unwound => exact h.elim
  | _ => exact id

theorem Mute.tells {a : Activity} (h : a.Mute) (event : Lifecycle) : a.tells event = false := by
  cases a with
  | announced => exact h.elim
  | _ => rfl

theorem Within.tells {a : Activity} {event : Lifecycle} (h : a.Within event) (other : Lifecycle)
    (hne : event ≠ other) : a.tells other = false := by
  cases a with
  | announced name args => exact beq_eq_false_iff_ne.mpr fun hn => hne (Lifecycle.name_inj.mp (h.symm.trans hn))
  | _ => rfl

end Activity

namespace Course

variable {a : Activity} {acts : List Activity}

theorem Next.opening (h : Next c a d) : d.opening = a.opens c.opening := by
  cases h with
  | cleaned =>
    change false = (Lifecycle.cleaned.name == Lifecycle.beforeRun.name)
    decide
  | _ => rfl

theorem Path.opening (h : Path c acts d) : d.opening = acts.foldl Activity.opens c.opening := by
  induction h with
  | nil => rfl
  | cons hn _ ih => rw [ih, hn.opening, List.foldl_cons]

/-- Until the jobs are dropped an interruption stays asked for, and the queue closed. -/
theorem Next.keeps (h : Next c a d) (hd : ¬ a.Drops) (ha : c.asked = true) :
    d.asked = true ∧ (c.closed = true → d.closed = true) := by
  cases h with
  | cleaned => exact absurd rfl hd
  | unwound => exact absurd trivial hd
  | requested clear => exact ⟨rfl, fun hc => by rw [hc]; rfl⟩
  | started => exact ⟨ha, fun _ => ha⟩
  | _ => exact ⟨ha, id⟩

theorem Path.keeps (h : Path c acts d) (hd : ∀ a ∈ acts, ¬ a.Drops) (ha : c.asked = true) :
    d.asked = true ∧ (c.closed = true → d.closed = true) := by
  induction h with
  | nil => exact ⟨ha, id⟩
  | cons hn _ ih =>
    obtain ⟨ha', hc'⟩ := hn.keeps (hd _ List.mem_cons_self) ha
    obtain ⟨ha'', hc''⟩ := ih (fun a ha => hd a (List.mem_cons_of_mem _ ha)) ha'
    exact ⟨ha'', fun hc => hc'' (hc' hc)⟩

/-- Until the jobs are dropped an interruption is asked for if it was, or is. -/
theorem Next.asked_eq (h : Next c a d) (hd : ¬ a.Drops) : d.asked = (c.asked || a.isRequest) := by
  cases h with
  | cleaned => exact absurd rfl hd
  | unwound => exact absurd trivial hd
  | requested => exact (Bool.or_true _).symm
  | _ => exact (Bool.or_false _).symm

theorem Path.asked_eq (h : Path c acts d) (hd : ∀ a ∈ acts, ¬ a.Drops) :
    d.asked = (c.asked || acts.any Activity.isRequest) := by
  induction h with
  | nil => exact (Bool.or_false _).symm
  | cons hn _ ih =>
    rw [ih fun a ha => hd a (List.mem_cons_of_mem _ ha), hn.asked_eq (hd _ List.mem_cons_self), List.any_cons,
      Bool.or_assoc]

theorem Path.asked {clear : Bool} (h : Path c acts d) (hd : ∀ a ∈ acts, ¬ a.Drops)
    (hr : Activity.requested clear ∈ acts) : d.asked = true := by
  have hany : acts.any Activity.isRequest = true := List.any_eq_true.mpr ⟨_, hr, rfl⟩
  rw [h.asked_eq hd, hany, Bool.or_true]

theorem Path.not_started {job : Job} (h : Path c acts d) (hd : ∀ a ∈ acts, ¬ a.Drops) (hs : .started job ∈ acts)
    (ha : c.asked = true) : d.closed = true := by
  obtain ⟨pre, post, rfl⟩ := List.append_of_mem hs
  obtain ⟨m, hpre, hrest⟩ := h.split
  have hasked := (hpre.keeps (fun a ha => hd a (List.mem_append_left _ ha)) ha).1
  cases hrest with
  | cons hn hp =>
    have hpost : ∀ a ∈ post, ¬ a.Drops := fun a ha => hd a (List.mem_append_right _ (List.mem_cons_of_mem _ ha))
    cases hn with
    | started => exact (hp.keeps hpost hasked).2 hasked

end Course

/-- Once an interruption is asked for, at most one waiting job starts before all are dropped, and none if a tick or
job was under way or a run was about to begin when it was asked for. -/
theorem World.Coherent.start_after_request (h : w.Coherent) {pre mid post : List Activity} {clear : Bool} {job : Job}
    (ha : w.acts o = pre ++ .requested clear :: (mid ++ .started job :: post)) (hmid : ∀ a ∈ mid, ¬ a.Drops) :
    Activity.underWay pre = false ∧ Activity.beginning pre = false ∧ ∀ job', .started job' ∉ mid := by
  obtain ⟨f, hpath, _⟩ := h.stands o
  rw [ha] at hpath
  obtain ⟨c, hpre, hrest⟩ := hpath.split
  cases hrest with
  | cons hn hp =>
    cases hn with
    | requested =>
      obtain ⟨d, hd, hend⟩ := hp.split
      cases hend with
      | cons hn _ =>
        cases hn with
        | started _ _ hopen =>
          -- the queue would be closed
          have hkeep := (hd.keeps hmid rfl).2
          have hfirst : (c.closed || c.active || c.opening) = false := by
            cases hc : c.closed || c.active || c.opening with
            | false => rfl
            | true => exact (hkeep hc).symm.trans hopen
          rw [Bool.or_eq_false_iff, Bool.or_eq_false_iff] at hfirst
          refine ⟨hpre.active.symm.trans hfirst.1.2, hpre.opening.symm.trans hfirst.2, fun job' hs => ?_⟩
          exact absurd ((hd.not_started hmid hs rfl).symm.trans hopen) (by decide)

def bareNode (id : UInt32) (name : String) (behavior : Behavior) (children : List NodeId) : Node :=
  { id := ⟨id⟩, name, args := [], input := [], output := [], children
    kind := { name, category := .action }, debug := false, behavior }

/-- A tree of some nodes, with the root first. -/
def treeOf (nodes : List Node) : Tree := { nodes := nodes.foldl (fun filed n => filed.insert n.id n) ∅ }

theorem mem_of_get?_treeOf {nodes : List Node} {id : NodeId} {n : Node} (h : (treeOf nodes).get? id = some n) :
    n ∈ nodes := by
  have hfiled : ∀ (nodes : List Node) (filed : Std.ExtTreeMap NodeId Node),
      (nodes.foldl (fun filed n => filed.insert n.id n) filed)[id]? = some n → n ∈ nodes ∨ filed[id]? = some n := by
    intro nodes
    induction nodes with
    | nil => exact fun _ => .inr
    | cons m nodes ih =>
      intro filed hn
      rcases ih _ hn with hmem | hn
      · exact .inl (List.mem_cons_of_mem m hmem)
      · rw [Std.ExtTreeMap.getElem?_insert] at hn
        split at hn
        · exact .inl (Option.some.inj hn ▸ List.mem_cons_self)
        · exact .inr hn
  rcases hfiled nodes ∅ h with hmem | hnone
  · exact hmem
  · rw [Std.ExtTreeMap.getElem?_empty] at hnone
    cases hnone

def hearer : Tree :=
  treeOf [bareNode 0 "Listen" (.listen "go") [⟨1⟩],
    bareNode 1 "Step" (.leaf fun _ => { ending := .finish .success }) []]

/-- A host that dispatches the event when it is told that a run has ended well, and then interrupts the instance. -/
def lateInterrupter : Program Unit :=
  .create hearer ∅ fun owner =>
    .subscribe ⟨Lifecycle.afterRunSuccess.name, some owner.text⟩ owner
      (fun _ => .dispatch ⟨"go", none⟩ [] fun _ => .interrupt owner .done) fun _ => .run owner fun _ => .done

def startsLate (acts : List Activity) : Bool :=
  match acts.dropWhile fun a => !a.isRequest with
  | .requested _ :: .entered :: .started _ :: _ => true
  | _ => false

theorem exists_of_startsLate {acts : List Activity} (h : startsLate acts = true) :
    ∃ pre clear job post, acts = pre ++ .requested clear :: ([.entered] ++ .started job :: post) := by
  unfold startsLate at h
  split at h
  · rename_i clear job post heq
    refine ⟨acts.takeWhile fun a => !a.isRequest, clear, job, post, ?_⟩
    rw [List.singleton_append, ← heq, List.takeWhile_append_dropWhile]
  · cases h

theorem start_after_request_late : ∃ (w : World Unit) (pre post : List Activity) (clear : Bool) (job : Job),
    w.Reached ∧ w.acts ⟨0⟩ = pre ++ .requested clear :: ([.entered] ++ .started job :: post) ∧
      Activity.underWay pre = false := by
  let start : World Unit := { registry := ∅, host := () }
  have hlate : (World.perform 4 lateInterrupter start).toOption.any (fun w => startsLate (w.acts ⟨0⟩)) = true := by
    decide +kernel
  cases hp : World.perform 4 lateInterrupter start with
  | error e =>
    rw [hp] at hlate
    cases hlate
  | ok w =>
    rw [hp] at hlate
    have hw : w.Reached := ⟨_, _, _, _, hp⟩
    obtain ⟨pre, clear, job, post, hacts⟩ := exists_of_startsLate hlate
    have hmid : ∀ a ∈ [Activity.entered], ¬ a.Drops := List.forall_mem_singleton.mpr id
    exact ⟨w, pre, post, clear, job, hw, hacts, (hw.continues.1.start_after_request hacts hmid).1⟩

/-- The part of two lists in which an element lies that is told from the head of the second. -/
theorem mem_of_append_eq {α : Type} {pre post as : List α} {a b : α} {P : α → Prop} (bs : List α)
    (h : pre ++ a :: post = as ++ b :: bs) (hpre : ∀ x ∈ pre, P x) (ha : P a) (hb : ¬ P b) : a ∈ as := by
  obtain ⟨rest, rfl, hrest⟩ | ⟨rest, rfl, hrest⟩ := List.append_eq_append_iff.mp h
  · cases rest with
    | nil =>
      rw [List.nil_append] at hrest
      exact absurd ((List.cons.inj hrest).1 ▸ ha) hb
    | cons x rest =>
      rw [(List.cons.inj hrest).1]
      exact List.mem_append_right _ List.mem_cons_self
  · cases rest with
    | nil =>
      rw [List.nil_append] at hrest
      exact absurd ((List.cons.inj hrest).1 ▸ ha) hb
    | cons x rest =>
      have hx : b = x := (List.cons.inj hrest).1
      exact absurd (hx ▸ hpre x (List.mem_append_right _ List.mem_cons_self)) hb

def quitter : Tree :=
  treeOf [bareNode 0 "Quit" (.leaf fun _ => { interrupt := true, ending := .finish .success }) []]

section Runs

variable (hw : w.Coherent) (ho : o.index < w.nextTag) (hb : (w.instanceOf o).executing = false)
include hw ho hb

/-- A run that is asked to be interrupted before its tick is settled leaves nothing of the instance. Unless the tick
itself fails with an error, the run returns failure, and the interruption is told exactly once. -/
theorem World.Coherent.run_interrupted {r : Except RunError Status} {pre post : List Activity} {clear : Bool}
    (hr : ((Engine.ofDepth n).runTree o).run w = .ok (r, w'))
    (ha : w'.acts o = w.acts o ++ (pre ++ .requested clear :: post)) (hpre : ∀ a ∈ pre, a.Within .beforeRun) :
    w'.Bare o (w'.instanceOf o) ∧ ((∃ err, r = .error err) ∨
      r = .ok .failure ∧ (pre ++ .requested clear :: post).countP (Activity.tells .interrupted) = 1) := by
  obtain ⟨c, hc⟩ := hw.stands o
  obtain ⟨d, hd, hstill, hresult⟩ := (Engine.civil_ofDepth n).runTree ⟨hw, ho, hb, hc⟩ r w' hr
  cases r with
  | error err => exact ⟨hresult, .inl ⟨err, rfl⟩⟩
  | ok status =>
    obtain ⟨w₁, c₁, acts, acts', h₁, hsettles⟩ := hresult
    obtain ⟨first, hfirst, hpath, hwithin⟩ := h₁.path
    have hall : pre ++ .requested clear :: post = first ++ (acts ++ acts') := by
      refine List.append_cancel_left (ha.symm.trans ?_)
      rw [hsettles.seen, hfirst, List.append_assoc]
    -- what settles the tick begins with the drop or with the end of the run, so the request came before
    have hhead : ∃ b rest, acts = b :: rest ∧ ¬ b.Within .beforeRun := by
      cases hasked : c₁.asked with
      | true =>
        obtain ⟨_, _, rest, _, hrest⟩ := hsettles.interrupted hasked
        exact ⟨_, _, hrest, id⟩
      | false =>
        obtain ⟨args, rest, hrest⟩ := hsettles.finished hasked
        exact ⟨_, rest, hrest, fun h => absurd (Lifecycle.name_inj.mp h) (by simp)⟩
    obtain ⟨b, rest, hrest, hnot⟩ := hhead
    have hmem : .requested clear ∈ first := by
      refine mem_of_append_eq (P := Activity.Within .beforeRun) (rest ++ acts') (hall.trans ?_) hpre trivial hnot
      rw [hrest, List.cons_append]
    have hasked := hpath.asked (fun a ha => (hwithin a ha).not_drops) hmem
    obtain ⟨rfl, hbare, rest', hmute, hrest'⟩ := hsettles.interrupted hasked
    refine ⟨hbare, .inr ⟨rfl, ?_⟩⟩
    have hnone : ∀ {as : List Activity}, (∀ a ∈ as, a.tells .interrupted = false) →
        as.countP (Activity.tells .interrupted) = 0 := fun h =>
      List.countP_eq_zero.mpr fun a ha => by rw [h a ha]; exact Bool.false_ne_true
    have hlast : acts'.countP (Activity.tells .interrupted) = 0 := by
      obtain ⟨rfl, _⟩ | ⟨last, rfl, hlast, _⟩ := hsettles.cleared
      · rfl
      · refine hnone fun a ha => ?_
        cases ha with
        | head => decide
        | tail _ ha => exact (hlast a ha).tells _
    rw [hall, List.countP_append, List.countP_append, hlast, hrest',
      hnone fun a ha => (hwithin a ha).tells .interrupted (by simp), List.countP_cons_of_neg Bool.false_ne_true,
      List.countP_cons_of_pos rfl, hnone fun a ha => (hmute a ha).tells _]

omit hw ho hb in
theorem run_interrupted_quitter : ∃ (w w' : World Unit) (r : Except RunError Status) (acts : List Activity),
    w.Reached ∧ ((Engine.ofDepth 3).runTree ⟨0⟩).run w = .ok (r, w') ∧ w'.acts ⟨0⟩ = w.acts ⟨0⟩ ++ acts ∧
      w'.Bare ⟨0⟩ (w'.instanceOf ⟨0⟩) ∧ r = .ok .failure ∧ acts.countP (Activity.tells .interrupted) = 1 := by
  let post : List Activity :=
    [.returned ⟨0⟩ (some .success), .left, .unwound, .announced "interrupted" [], .unwound]
  have hrun : ∃ (w w' : World Unit) (r : Except RunError Status), w.Reached ∧
      (w.instanceOf ⟨0⟩).executing = false ∧ 0 < w.nextTag ∧
      ((Engine.ofDepth 3).runTree ⟨0⟩).run w = .ok (r, w') ∧ r.toBool = true ∧ w'.acts ⟨0⟩ =
        w.acts ⟨0⟩ ++ ([.announced "before_run" [], .entered, .called ⟨0⟩ false] ++ .requested false :: post) :=
    ⟨_, _, _, ⟨∅, (), 1, .create quitter ∅ fun _ => .done, rfl⟩, rfl, Nat.one_pos, rfl, rfl, rfl⟩
  obtain ⟨w, w', r, hw, hb, ho, hr, hok, hacts⟩ := hrun
  have hpre : ∀ a ∈ [Activity.announced "before_run" [], .entered, .called ⟨0⟩ false], a.Within .beforeRun := by
    simp only [List.mem_cons, List.not_mem_nil, or_false, forall_eq_or_imp, forall_eq]
    exact ⟨rfl, trivial, trivial⟩
  obtain ⟨hbare, ⟨err, rfl⟩ | ⟨hfail, hone⟩⟩ := hw.continues.1.run_interrupted (o := ⟨0⟩) ho hb hr hacts hpre
  · cases hok
  · exact ⟨w, w', r, _, hw, hr, hacts, hbare, hfail, hone⟩

/-- A run that returns a status serves every clear request that was outstanding or is made before it comes to the
clearing: the clearing is told after all of them, and the whole state is forgotten. Without a request nothing is
cleared. What is asked for while the clearing is told stays outstanding. -/
theorem World.Coherent.run_cleared {status : Status}
    (hr : ((Engine.ofDepth n).runTree o).run w = .ok (.ok status, w')) :
    ∃ acts acts', w'.acts o = w.acts o ++ (acts ++ acts') ∧ (∀ a ∈ acts, a.Spares) ∧
      (acts' = [] ∨ ∃ rest, acts' = .announced Lifecycle.cleaned.name [] :: rest) ∧
      ((w.instanceOf o).clearRequested = true ∨ acts.any Activity.isClear = true →
        (w'.instanceOf o).env = {} ∧
          ∃ rest, acts' = .announced Lifecycle.cleaned.name [] :: rest ∧ ∀ a ∈ rest, a.Mute) ∧
      ((w'.instanceOf o).clearRequested = true → acts'.any Activity.isClear = true) := by
  obtain ⟨c, hc⟩ := hw.stands o
  obtain ⟨d, hd, hstill, w₁, c₁, acts, acts', h₁, hsettles⟩ :=
    (Engine.civil_ofDepth n).runTree ⟨hw, ho, hb, hc⟩ (.ok status) w' hr
  obtain ⟨first, hfirst, _, hwithin⟩ := h₁.path
  have hseen : w'.acts o = w.acts o ++ (first ++ acts ++ acts') := by
    rw [hsettles.seen, hfirst, List.append_assoc, List.append_assoc]
  have hspares : ∀ a ∈ first ++ acts, a.Spares := by
    intro a ha
    obtain ha | ha := List.mem_append.mp ha
    · exact (hwithin a ha).spares (by simp)
    · exact hsettles.spares a ha
  refine ⟨first ++ acts, acts', hseen, hspares, ?_⟩
  obtain ⟨rfl, hflag⟩ | ⟨rest, rfl, hmute, henv, hlate⟩ := hsettles.cleared
  · refine ⟨.inl rfl, fun hdue => ?_, fun hf => absurd (hf.symm.trans hflag) (by decide)⟩
    -- without a clearing none was asked for
    obtain ⟨all, hall, hpath, _⟩ := hd.path
    obtain rfl : all = first ++ acts := by
      rw [List.append_nil] at hseen
      exact List.append_cancel_left (hall.symm.trans hseen)
    have hlast : d.due = false := hd.held.stands.here.clearRequested.symm.trans hflag
    obtain ⟨pre, args, post, hsplit, _⟩ := hpath.due hlast (hdue.imp_left fun h => hc.here.clearRequested.symm.trans h)
    have hcleaned : Activity.announced Lifecycle.cleaned.name args ∈ first ++ acts :=
      hsplit ▸ List.mem_append_right _ List.mem_cons_self
    exact absurd rfl (hspares _ hcleaned)
  · refine ⟨.inr ⟨rest, rfl⟩, fun _ => ⟨henv, rest, rfl, hmute⟩, fun hf => ?_⟩
    exact (List.any_cons).trans (Bool.or_eq_true_iff.mpr (.inr (hlate hf)))

omit hw ho hb in
theorem run_cleared_early : ∃ (w w' : World Unit) (acts rest : List Activity), w.Reached ∧
    (w.instanceOf ⟨0⟩).env.vars.contains "hp" = true ∧
      ((Engine.ofDepth 4).runTree ⟨0⟩).run w = .ok (.ok .failure, w') ∧
        w'.acts ⟨0⟩ = w.acts ⟨0⟩ ++ (acts ++ .announced Lifecycle.cleaned.name [] :: rest) ∧
          .requested true ∈ acts ∧ (w'.instanceOf ⟨0⟩).env = {} := by
  let clearing : Program Unit := .create {} ((∅ : Variables).assign "hp" (some (.int 3))) fun owner =>
    .subscribe ⟨Lifecycle.beforeRun.name, some owner.text⟩ owner (fun _ => .clear owner .done) fun _ => .done
  let post : List Activity :=
    [.unwound, .announced "interrupted" [], .unwound, .announced "cleaned" [], .unwound]
  have hrun : ∃ w w' : World Unit, w.Reached ∧ (w.instanceOf ⟨0⟩).executing = false ∧ 0 < w.nextTag ∧
      (w.instanceOf ⟨0⟩).env.vars.contains "hp" = true ∧
      ((Engine.ofDepth 4).runTree ⟨0⟩).run w = .ok (.ok .failure, w') ∧
      w'.acts ⟨0⟩ = w.acts ⟨0⟩ ++ ([.announced "before_run" []] ++ .requested true :: post) :=
    ⟨_, _, ⟨∅, (), 1, clearing, rfl⟩, rfl, Nat.one_pos, rfl, rfl, rfl⟩
  obtain ⟨w, w', hw, hb, ho, hhas, hr, hseen⟩ := hrun
  obtain ⟨acts, acts', hacts, hspares, hsplit, hserved, _⟩ := hw.continues.1.run_cleared (o := ⟨0⟩) ho hb hr
  have hall : [.announced "before_run" []] ++ .requested true :: post = acts ++ acts' :=
    List.append_cancel_left (hseen.symm.trans hacts)
  obtain rfl | ⟨rest, rfl⟩ := hsplit
  · have hcleaned : Activity.announced "cleaned" [] ∈ acts := by
      rw [List.append_nil] at hall
      simp [← hall, post]
    exact absurd rfl (hspares _ hcleaned)
  · have hpre : ∀ a ∈ [Activity.announced "before_run" []], a.Spares :=
      List.forall_mem_singleton.mpr (show "before_run" ≠ Lifecycle.cleaned.name by decide)
    have hasked : Activity.requested true ∈ acts := mem_of_append_eq rest hall hpre trivial fun h => h rfl
    have hclear : acts.any Activity.isClear = true := List.any_eq_true.mpr ⟨_, hasked, rfl⟩
    exact ⟨w, w', acts, rest, hw, hhas, hr, hacts, hasked, (hserved (.inr hclear)).1⟩

end Runs

end BehaviorTree
