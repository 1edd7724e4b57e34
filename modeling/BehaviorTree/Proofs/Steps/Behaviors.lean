import BehaviorTree.Proofs.Steps.Simulation

/-!
The nodes of a tree of steps play their readings: from the start, and from a payload on when the child that it names
has ended.
-/

namespace BehaviorTree
set_option autoImplicit false

open TickM

variable {σ : Type} {S : Script} {o : Tag} {e : Engine σ} {t u : Tick σ} {n : Node} {base : List NodeId}
  {p : Payload} {i : Nat} {ids : List NodeId}

/-- A node begins, or goes on with its payload because the child that this names has ended. -/
structure Tick.Called (S : Script) (o : Tag) (n : Node) (base : List NodeId) (t : Tick σ) : Prop
    extends t.Active S o n base where
  saves {p : Payload} : t.env.temps[n.id]? = some p → S.Saves n p
  ended {p : Payload} : t.env.temps[n.id]? = some p → t.env.lastStatus ≠ .running

structure Tick.Enters (S : Script) (o : Tag) (n : Node) (base : List NodeId) (t : Tick σ) : Prop
    extends t.Called S o n base where
  input : t.env.input = n.input.map t.env.get?

namespace Script

/-- What is to be read of a node: all of it, or what its payload leaves. -/
def due (S : Script) (n : Node) (own : Option Payload) (s : Status) : Reading :=
  match own with
  | none => S.reading n.id
  | some p => S.rest n p s

abbrev Acts (S : Script) (o : Tag) (n : Node) (base : List NodeId) (t : Tick σ) (r : Reading) :
    Status → Tick σ → Prop :=
  S.Plays o n.id t base r

theorem nth_readings {x : NodeId} (h : (S.tree.started n)[i]? = some x) :
    Reading.nth (S.readings n) i = S.reading x := by
  rw [Reading.nth, List.getD_eq_getElem?_getD, readings, List.getElem?_map, h]
  rfl

section Chains

theorem readings_of_started (h : S.tree.started n = n.children) : S.readings n = n.children.map S.reading := by
  rw [readings, h]

theorem drop_readings (h : S.tree.started n = n.children) {id : NodeId} (hids : id :: ids = n.children.drop i) :
    id ∈ S.tree.started n ∧ ids = n.children.drop (i + 1) ∧
      (S.readings n).drop i = S.reading id :: (S.readings n).drop (i + 1) := by
  have hnext : ids = n.children.drop (i + 1) := by
    rw [← List.tail_drop, ← hids]
    rfl
  refine ⟨?_, hnext, ?_⟩
  · rw [h]
    exact List.mem_of_mem_drop (hids ▸ List.mem_cons_self)
  · rw [readings_of_started h, ← List.map_drop, ← List.map_drop, ← hids, ← hnext]
    rfl

variable (hn : S.tree.get? n.id = some n) (he : ∀ x ∈ S.tree.started n, e.Performs S o x)
include hn he

theorem plays_chain {next : Status} (hstart : S.tree.started n = n.children)
    (hrest : ∀ i, S.rest n (.index i) = .goOn next ((S.readings n).drop (i + 1))) (hsaves : ∀ i, S.Saves n (.index i))
    (hids : ids = n.children.drop i) (h : t.Active S o n base) :
    (e.chain n.toSite next i ids ⟨o, S.tree⟩ t).Gives (S.Acts o n base t (.chain next ((S.readings n).drop i))) := by
  induction ids generalizing i t with
  | nil =>
    rw [readings_of_started hstart, ← List.map_drop, ← hids]
    exact Plays.finished t next
  | cons id ids ih =>
    obtain ⟨hmem, hnext, hcons⟩ := drop_readings hstart hids
    rw [hcons, Reading.chain_cons, ← hrest, Engine.chain]
    refine (he id hmem).then hn hmem h (hsaves i) (fun u => rfl) fun u hu hne => ?_
    have hgo : ∀ status, ((if status = next then e.chain n.toSite next (i + 1) ids else return status) ⟨o, S.tree⟩ u).Gives
        (S.Acts o n base u (S.rest n (.index i) status)) := by
      intro status
      rw [hrest, Reading.goOn]
      split
      · exact ih hnext hu
      · exact Plays.finished u status
    cases hs : (S.reading id).status with
    | running => exact absurd hs hne
    | success => exact hgo .success
    | failure => exact hgo .failure

theorem plays_resumeChain {next : Status} (hstart : S.tree.started n = n.children)
    (hreading : S.reading n.id = .chain next (S.readings n))
    (hrest : ∀ i, S.rest n (.index i) = .goOn next ((S.readings n).drop (i + 1))) (hsaves : ∀ i, S.Saves n (.index i))
    (hown : ∀ p, t.env.temps[n.id]? = some p → ∃ i, p = .index i) (h : t.Enters S o n base) :
    (e.resumeChain n.toSite next ⟨o, S.tree⟩ t).Gives
      (S.Acts o n base t (S.due n t.env.temps[n.id]? t.env.lastStatus)) := by
  rw [Engine.resumeChain, gives_bind, gives_saved]
  cases hp : t.env.temps[n.id]? with
  | none =>
    rw [due, hreading]
    exact plays_chain hn he hstart hrest hsaves (i := 0) rfl h.toActive
  | some p =>
    obtain ⟨i, rfl⟩ := hown p hp
    rw [due, hrest, Reading.goOn]
    simp only
    rw [gives_bind, gives_childStatus (h.ended hp)]
    split
    · exact plays_chain hn he hstart hrest hsaves rfl h.toActive
    · exact Plays.finished t _

theorem plays_sequence (hb : n.behavior = .sequence) (h : t.Enters S o n base) :
    (e.sequence n.toSite ⟨o, S.tree⟩ t).Gives (S.Acts o n base t (S.due n t.env.temps[n.id]? t.env.lastStatus)) := by
  have hsaves : ∀ {p : Payload}, S.Saves n p ↔ ∃ i, p = .index i := saves_chain (.inl hb)
  refine plays_resumeChain hn he ?_ ?_ ?_ (fun i => hsaves.mpr ⟨i, rfl⟩) (fun p hp => hsaves.mp (h.saves hp)) h
  · simp [Tree.started, hb]
  · rw [reading_eq hn, hb]
    rfl
  · exact fun i => rest_eq hb

theorem plays_selector (hb : n.behavior = .selector) (h : t.Enters S o n base) :
    (e.selector n.toSite ⟨o, S.tree⟩ t).Gives (S.Acts o n base t (S.due n t.env.temps[n.id]? t.env.lastStatus)) := by
  have hsaves : ∀ {p : Payload}, S.Saves n p ↔ ∃ i, p = .index i := saves_chain (.inr hb)
  refine plays_resumeChain hn he ?_ ?_ ?_ (fun i => hsaves.mpr ⟨i, rfl⟩) (fun p hp => hsaves.mp (h.saves hp)) h
  · simp [Tree.started, hb]
  · rw [reading_eq hn, hb]
    rfl
  · exact fun i => rest_eq hb

end Chains

section Wraps

variable (hn : S.tree.get? n.id = some n) (he : ∀ x ∈ S.tree.started n, e.Performs S o x)
include hn he

theorem plays_wrap {f : Status → Status} (hneeds : 1 ≤ n.children.length)
    (hstart : S.tree.started n = n.children.take 1)
    (hreading : S.reading n.id = (Reading.nth (S.readings n) 0).andThen fun s => .finished (f s))
    (hrest : S.rest n .marker = fun s => .finished (f s)) (hsaves : S.Saves n .marker)
    (hown : ∀ p, t.env.temps[n.id]? = some p → p = .marker) (h : t.Enters S o n base) :
    (e.wrap n.toSite f ⟨o, S.tree⟩ t).Gives (S.Acts o n base t (S.due n t.env.temps[n.id]? t.env.lastStatus)) := by
  have hwrapped : ∀ {u : Tick σ} {status : Status}, status ≠ .running →
      (Engine.wrapped n.toSite f status ⟨o, S.tree⟩ u).Gives (S.Acts o n base u (.finished (f status))) := by
    intro u status hne
    cases status with
    | running => exact absurd rfl hne
    | success => exact Plays.finished u _
    | failure => exact Plays.finished u _
  rw [Engine.wrap, Engine.onlyChild, bind_assoc, gives_bind, gives_saved]
  cases hp : t.env.temps[n.id]? with
  | none =>
    have hchild : n.children[0]? = some n.children[0] := List.getElem?_eq_getElem hneeds
    have hfirst : (S.tree.started n)[0]? = some n.children[0] := by
      rw [hstart, List.getElem?_take_of_lt Nat.one_pos, hchild]
    have hmem := List.mem_of_getElem? hfirst
    simp only
    rw [bind_assoc, gives_bind, gives_child hchild, due, hreading, nth_readings hfirst, ← hrest]
    refine (he _ hmem).then hn hmem h.toActive hsaves (fun u => rfl) fun u _ hne => ?_
    rw [hrest]
    exact hwrapped hne
  | some p =>
    obtain rfl := hown p hp
    simp only
    rw [gives_bind, gives_childStatus (h.ended hp), due, hrest]
    exact hwrapped (h.ended hp)

theorem plays_invert (hb : n.behavior = .invert) (h : t.Enters S o n base) :
    (e.invert n.toSite ⟨o, S.tree⟩ t).Gives (S.Acts o n base t (S.due n t.env.temps[n.id]? t.env.lastStatus)) := by
  have hneeds := S.orderly.supplied hn
  rw [hb, Behavior.needs] at hneeds
  have hsaves : ∀ {p : Payload}, S.Saves n p ↔ p = .marker := saves_wrap (.inl hb)
  refine plays_wrap hn he hneeds ?_ ?_ ?_ (hsaves.mpr rfl) (fun p hp => hsaves.mp (h.saves hp)) h
  · simp [Tree.started, hb, Behavior.needs]
  · rw [reading_eq hn, hb]
    rfl
  · exact rest_eq hb

theorem plays_always {status : Status} (hb : n.behavior = .always status) (h : t.Enters S o n base) :
    (e.always n.toSite status ⟨o, S.tree⟩ t).Gives
      (S.Acts o n base t (S.due n t.env.temps[n.id]? t.env.lastStatus)) := by
  have hneeds := S.orderly.supplied hn
  rw [hb, Behavior.needs] at hneeds
  have hsaves : ∀ {p : Payload}, S.Saves n p ↔ p = .marker := saves_wrap (.inr ⟨_, hb⟩)
  refine plays_wrap hn he hneeds ?_ ?_ ?_ (hsaves.mpr rfl) (fun p hp => hsaves.mp (h.saves hp)) h
  · simp [Tree.started, hb, Behavior.needs]
  · rw [reading_eq hn, hb]
    rfl
  · exact rest_eq hb

end Wraps

section Branches

variable (hn : S.tree.get? n.id = some n) (he : ∀ x ∈ S.tree.started n, e.Performs S o x) (hb : n.behavior = .ifElse)
include hn he hb

omit he in
theorem started_ifElse (hi : i < 3) : ∃ x, n.children[i]? = some x ∧ (S.tree.started n)[i]? = some x := by
  have hneeds := S.orderly.supplied hn
  rw [hb, Behavior.needs] at hneeds
  have hchild : n.children[i]? = some n.children[i] := List.getElem?_eq_getElem (by omega)
  refine ⟨_, hchild, ?_⟩
  rw [Tree.started, hb]
  exact (List.getElem?_take_of_lt hi).trans hchild

theorem plays_branchAt (hi : i + 1 < 3) (h : t.Active S o n base) :
    (e.branchAt n.toSite (i + 1) ⟨o, S.tree⟩ t).Gives (S.Acts o n base t (.nth (S.readings n) (i + 1))) := by
  obtain ⟨x, hchild, hstart⟩ := started_ifElse hn hb hi
  have hmem := List.mem_of_getElem? hstart
  have hrest : S.rest n (.step (i + 1)) = .finished := rest_eq hb
  have hsaves : S.Saves n (.step (i + 1)) := (saves_ifElse hb).mpr ⟨_, rfl⟩
  rw [Engine.branchAt, gives_bind, gives_child hchild, nth_readings hstart, ← (S.reading x).andThen_finished, ← hrest]
  refine (he x hmem).then hn hmem h hsaves (fun u => rfl) fun u hu hne => ?_
  rw [hrest]
  cases hs : (S.reading x).status with
  | running => exact absurd hs hne
  | success => exact Plays.finished u _
  | failure => exact Plays.finished u _

theorem plays_branch {status : Status} (hs : status ≠ .running) (h : t.Active S o n base) :
    (e.branch n.toSite status ⟨o, S.tree⟩ t).Gives (S.Acts o n base t (S.rest n (.step 0) status)) := by
  rw [Script.rest, hb]
  cases status with
  | running => exact absurd rfl hs
  | success => exact plays_branchAt hn he hb (show 0 + 1 < 3 by decide) h
  | failure => exact plays_branchAt hn he hb (show 1 + 1 < 3 by decide) h

theorem plays_ifElse (h : t.Enters S o n base) :
    (e.ifElse n.toSite ⟨o, S.tree⟩ t).Gives (S.Acts o n base t (S.due n t.env.temps[n.id]? t.env.lastStatus)) := by
  rw [Engine.ifElse, gives_bind, gives_saved]
  cases hp : t.env.temps[n.id]? with
  | none =>
    obtain ⟨x, hchild, hstart⟩ := started_ifElse hn hb (show 0 < 3 by decide)
    have hmem := List.mem_of_getElem? hstart
    have hsaves : S.Saves n (.step 0) := (saves_ifElse hb).mpr ⟨_, rfl⟩
    have hreading : S.reading n.id = (S.reading x).andThen (S.rest n (.step 0)) := by
      have hrest : S.rest n (.step 0) = fun s =>
          if s = .success then .nth (S.readings n) 1 else .nth (S.readings n) 2 := rest_eq hb
      rw [reading_eq hn, hb, hrest, ← nth_readings hstart]
      rfl
    simp only
    rw [gives_bind, gives_child hchild, due, hreading]
    exact (he x hmem).then hn hmem h.toActive hsaves (fun u => rfl) fun u hu hne => plays_branch hn he hb hne hu
  | some p =>
    obtain ⟨position, rfl⟩ := (saves_ifElse hb).mp (h.saves hp)
    cases position with
    | zero =>
      simp only
      rw [gives_bind, gives_childStatus (h.ended hp)]
      exact plays_branch hn he hb (h.ended hp) h.toActive
    | succ position =>
      simp only
      rw [gives_childStatus (h.ended hp), due, Script.rest, hb]
      exact Plays.finished t _

end Branches

section Cases

theorem drop_pairs {α β : Type} {f : α → List β} {xs : List α} (h : ∀ x ∈ xs, (f x).length = 2) (k : Nat) :
    (xs.flatMap f).drop (2 * k) = (xs.drop k).flatMap f := by
  induction k generalizing xs with
  | zero => rfl
  | succ k ih =>
    cases xs with
    | nil => rfl
    | cons x xs =>
      have hx : (f x).length = 2 := h x List.mem_cons_self
      rw [List.drop_succ_cons, ← ih fun y hy => h y (List.mem_cons_of_mem _ hy), List.flatMap_cons, List.drop_append,
        List.drop_eq_nil_of_le (by omega), List.nil_append, hx]
      rfl

/-- The case `m` at a position of a switch, with its condition `x` and its action `y`. -/
structure CaseAt (S : Script) (n : Node) (k : Nat) (ids : List NodeId) (m : Node) (x y : NodeId) : Prop where
  condition : m.children[0]? = some x
  action : m.children[1]? = some y
  startsCondition : x ∈ S.tree.started n
  startsAction : y ∈ S.tree.started n
  position : k < n.children.length
  next : ids = n.children.drop (k + 1)
  readings : (S.readings n).drop (2 * k) =
    S.reading x :: S.reading y :: (S.readings n).drop (2 * (k + 1))

theorem CaseAt.nth {k : Nat} {m : Node} {x y : NodeId} (h : S.CaseAt n k ids m x y) :
    Reading.nth (S.readings n) (2 * k + 1) = S.reading y := by
  have hget : ((S.readings n).drop (2 * k))[1]? = some (S.reading y) := by rw [h.readings]; rfl
  rw [List.getElem?_drop] at hget
  rw [Reading.nth, List.getD_eq_getElem?_getD, hget]
  rfl

variable (hn : S.tree.get? n.id = some n) (hb : n.behavior = .switch)
include hn hb

theorem drop_cases (k : Nat) :
    (S.readings n).drop (2 * k) = ((n.children.drop k).flatMap S.tree.pair).map S.reading := by
  rw [readings, ← List.map_drop, Tree.started, hb]
  refine congrArg _ (drop_pairs (fun c hc => ?_) k)
  obtain ⟨m, hm, hcase⟩ := S.orderly.cases hn hb hc
  have hneeds := S.orderly.supplied hm
  rw [hcase, Behavior.needs] at hneeds
  rw [Tree.pair, hm]
  exact List.length_take_of_le hneeds

theorem exists_case {k : Nat} {c : NodeId} (hids : c :: ids = n.children.drop k) :
    ∃ m x y, S.tree.get? c = some m ∧ S.CaseAt n k ids m x y := by
  have hc : c ∈ n.children := List.mem_of_mem_drop (hids ▸ List.mem_cons_self)
  obtain ⟨m, hm, hcase⟩ := S.orderly.cases hn hb hc
  have hneeds := S.orderly.supplied hm
  rw [hcase, Behavior.needs] at hneeds
  obtain ⟨x, y, rest, hcs⟩ : ∃ x y rest, m.children = x :: y :: rest := by
    match hcs : m.children, hneeds with
    | x :: y :: rest, _ => exact ⟨x, y, rest, rfl⟩
  have hpair : S.tree.pair c = [x, y] := by
    rw [Tree.pair, hm]
    simp [hcs]
  have hstarts : ∀ z ∈ [x, y], z ∈ S.tree.started n := fun z hz => by
    rw [Tree.started, hb]
    exact List.mem_flatMap.mpr ⟨c, hc, hpair ▸ hz⟩
  have hnext : ids = n.children.drop (k + 1) := by
    rw [← List.tail_drop, ← hids]
    rfl
  refine ⟨m, x, y, hm, by rw [hcs]; rfl, by rw [hcs]; rfl, hstarts x (by simp), hstarts y (by simp), ?_, hnext, ?_⟩
  · have := congrArg List.length hids
    simp only [List.length_cons, List.length_drop] at this
    omega
  · rw [drop_cases hn hb, drop_cases hn hb, ← hids, ← hnext, List.flatMap_cons, hpair]
    rfl

variable (he : ∀ x ∈ S.tree.started n, e.Performs S o x)
include he

theorem plays_caseAction {k : Nat} {m : Node} {x y : NodeId} (hcase : S.CaseAt n k ids m x y)
    (h : t.Active S o n base) :
    (e.caseAction n.toSite k m.children ⟨o, S.tree⟩ t).Gives (S.Acts o n base t (.nth (S.readings n) (2 * k + 1))) := by
  have hrest : S.rest n (.step (Engine.actionPhase k)) = .finished := by
    funext s
    rw [Script.rest, hb, Behavior.rest, Engine.actionPhase, if_pos (by omega)]
  have hsaves : S.Saves n (.step (Engine.actionPhase k)) := by
    have := hcase.position
    refine (saves_switch hb).mpr ⟨_, rfl, ?_⟩
    rw [Engine.actionPhase]
    omega
  rw [Engine.caseAction, gives_bind, gives_element hcase.action, hcase.nth, ← (S.reading y).andThen_finished, ← hrest]
  refine (he y hcase.startsAction).then hn hcase.startsAction h hsaves (fun u => rfl) fun u hu hne => ?_
  rw [hrest]
  cases hs : (S.reading y).status with
  | running => exact absurd hs hne
  | success => exact Plays.finished u _
  | failure => exact Plays.finished u _

theorem plays_tryCases {k : Nat} (hids : ids = n.children.drop k) (h : t.Active S o n base) :
    (e.tryCases n.toSite k ids ⟨o, S.tree⟩ t).Gives (S.Acts o n base t (.cases ((S.readings n).drop (2 * k)))) := by
  induction ids generalizing k t with
  | nil =>
    rw [drop_cases hn hb, ← hids]
    exact Plays.finished t _
  | cons c ids ih =>
    obtain ⟨m, x, y, hm, hcase⟩ := exists_case hn hb hids
    have hrest : S.rest n (.step (Engine.conditionPhase k)) = fun s =>
        if s = .success then .nth (S.readings n) (2 * k + 1) else .cases ((S.readings n).drop (2 * (k + 1))) := by
      funext s
      rw [Script.rest, hb, Behavior.rest, Engine.conditionPhase, if_neg (by omega), Nat.mul_comm k]
      rfl
    have hreading : Reading.cases ((S.readings n).drop (2 * k)) =
        (S.reading x).andThen (S.rest n (.step (Engine.conditionPhase k))) := by
      rw [hrest, hcase.nth, hcase.readings, Reading.cases]
    have hsaves : S.Saves n (.step (Engine.conditionPhase k)) := by
      have := hcase.position
      refine (saves_switch hb).mpr ⟨_, rfl, ?_⟩
      rw [Engine.conditionPhase]
      omega
    rw [Engine.tryCases, gives_bind, gives_node hm, gives_bind, gives_element hcase.condition, hreading]
    refine (he x hcase.startsCondition).then hn hcase.startsCondition h hsaves (fun u => rfl) fun u hu hne => ?_
    rw [hrest]
    cases hs : (S.reading x).status with
    | running => exact absurd hs hne
    | success => exact plays_caseAction hn hb he hcase hu
    | failure => exact ih hcase.next hu

theorem plays_switch (h : t.Enters S o n base) :
    (e.switch n.toSite ⟨o, S.tree⟩ t).Gives (S.Acts o n base t (S.due n t.env.temps[n.id]? t.env.lastStatus)) := by
  rw [Engine.switch, gives_bind, gives_saved]
  cases hp : t.env.temps[n.id]? with
  | none =>
    rw [due, reading_eq hn, hb]
    exact plays_tryCases hn hb he (k := 0) rfl h.toActive
  | some p =>
    obtain ⟨phase, rfl, hlt⟩ := (saves_switch hb).mp (h.saves hp)
    obtain ⟨k, hk⟩ : ∃ k, phase / 2 = k := ⟨_, rfl⟩
    rw [hk] at hlt
    obtain ⟨m, x, y, hm, hcase⟩ := exists_case hn hb (List.drop_eq_getElem_cons hlt).symm
    simp only [hk]
    rw [gives_bind, gives_childStatus (h.ended hp), due, Script.rest, hb, Behavior.rest]
    by_cases hodd : phase % 2 = 1
    · rw [if_pos hodd, if_pos (by rw [Engine.actionPhase]; omega)]
      exact Plays.finished t _
    · obtain rfl : phase = 2 * k := by omega
      rw [if_neg hodd, if_neg (by rw [Engine.actionPhase]; omega)]
      split
      · rw [gives_bind, gives_child (List.getElem?_eq_getElem hlt), gives_bind, gives_node hm]
        exact plays_caseAction hn hb he hcase h.toActive
      · exact plays_tryCases hn hb he hcase.next h.toActive

end Cases

end Script

end BehaviorTree
