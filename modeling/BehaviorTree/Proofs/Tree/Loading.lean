import Mathlib.Algebra.Order.BigOperators.Group.List
import Mathlib.Algebra.Order.Group.Nat
import BehaviorTree.BuiltIn
import BehaviorTree.Loader
import BehaviorTree.Proofs.Tree.Structure

/-!
Loading gives orderly trees: with the built-in types and any leaves, every node that is filed has the children that
its behavior reaches for, and the ids of its children are filed before its own, which is new.
-/

namespace BehaviorTree
set_option autoImplicit false

def NodeType.IsLeaf (ty : NodeType) : Prop :=
  ∀ compile spec b, ty.configure compile spec = .ok b → ∃ react, b = .leaf react

/-- The built-in types, and types of leaves under other names. -/
def Registry.Plain (r : Registry) : Prop :=
  ∀ name ty, r.get? name = some ty →
    Registry.builtIn.get? name = some ty ∨ (Registry.builtIn.get? name = none ∧ ty.IsLeaf)

def NodeType.OfHost (ty : NodeType) : Prop :=
  ∀ compile spec b, ty.configure compile spec = .ok b → (∃ react, b = .leaf react) ∨ ∃ steps, b = .routine steps

/-- The built-in types, and types of the host under other names. -/
def Registry.Standard (r : Registry) : Prop :=
  ∀ name ty, r.get? name = some ty →
    Registry.builtIn.get? name = some ty ∨ (Registry.builtIn.get? name = none ∧ ty.OfHost)

theorem Registry.Plain.standard {r : Registry} (hr : r.Plain) : r.Standard := fun name ty h =>
  (hr name ty h).imp_right fun hl => ⟨hl.1, fun compile spec b hb => .inl (hl.2 compile spec b hb)⟩

/-- A tree that a registry's types allow to load. -/
def Registry.Loads (r : Registry) (t : Tree) : Prop :=
  ∃ compile strict spec reports, Tree.load r compile strict spec = (.ok t, reports)

namespace BuiltIn

def Supplies (ty : NodeType) : Prop :=
  ∀ compile spec b, ty.configure compile spec = .ok b →
    b.Plain ∧
      (b.needs = 0 ∨ ty.kind.children = .exact b.needs) ∧
      (b = .switch → ∀ child ∈ spec.enabled, child.name = "Case")

theorem supplies_plain {kind : NodeKind} {b : Behavior} (hp : b.Plain)
    (hn : b.needs = 0 ∨ kind.children = .exact b.needs) (hs : b ≠ .switch) : Supplies (plain kind b) := by
  intro compile spec b' h
  obtain rfl : b = b' := by simpa [plain] using h
  exact ⟨hp, hn, fun h => absurd h hs⟩

theorem supplies_ofExpression {kind : NodeKind} {f : Expression → Behavior} (hp : ∀ x, (f x).Plain)
    (hn : ∀ x, (f x).needs = 0) (hs : ∀ x, f x ≠ .switch) : Supplies (ofExpression kind f) := by
  intro compile spec b h
  simp only [ofExpression] at h
  split at h
  · cases h
  · split at h
    · obtain rfl := by simpa using h
      exact ⟨hp _, .inl (hn _), fun h => absurd h (hs _)⟩
    · cases h

theorem supplies_ofNumber {kind : NodeKind} {key : String} {f : NodeSpec → Float → Behavior}
    (hp : ∀ s x, (f s x).Plain)
    (hn : ∀ s x, (f s x).needs = 0 ∨ kind.children = .exact (f s x).needs) (hs : ∀ s x, f s x ≠ .switch) :
    Supplies (ofNumber kind key f) := by
  intro compile spec b h
  simp only [ofNumber] at h
  split at h
  · cases h
  · obtain rfl := by simpa using h
    exact ⟨hp _ _, hn _ _, fun h => absurd h (hs _ _)⟩

theorem supplies_ofString {kind : NodeKind} {key : String} {f : String → Behavior} (hp : ∀ x, (f x).Plain)
    (hn : ∀ x, (f x).needs = 0 ∨ kind.children = .exact (f x).needs) (hs : ∀ x, f x ≠ .switch) :
    Supplies (ofString kind key f) := by
  intro compile spec b h
  simp only [ofString] at h
  split at h
  · cases h
  · obtain rfl := by simpa using h
    exact ⟨hp _, hn _, fun h => absurd h (hs _)⟩

theorem supplies_repeating {kind : NodeKind} {key : String} {policy : RepeatPolicy}
    (hk : kind.children = .exact 1) (hp : policy.exhausted ≠ .running) :
    Supplies (repeating kind key policy) := by
  intro compile spec b h
  simp only [repeating] at h
  split at h
  · cases h
  · obtain rfl := by simpa using h
    exact ⟨hp, .inr hk, fun h => by cases h⟩

theorem supplies_switch : Supplies switch := by
  intro compile spec b h
  simp only [switch] at h
  split at h
  · cases h
  · rename_i hf
    obtain rfl : Behavior.switch = b := by simpa using h
    refine ⟨trivial, .inl rfl, fun _ child hc => ?_⟩
    have hne := List.find?_eq_none.mp hf child hc
    by_contra hname
    exact hne (decide_eq_true hname)

theorem supplies_loop : Supplies loop := by
  intro compile spec b h
  simp only [loop] at h
  split at h
  · cases h
  · cases h
  · obtain rfl := by simpa using h
    exact ⟨trivial, .inl rfl, fun h => by cases h⟩

theorem supplies_log : Supplies log := by
  intro compile spec b h
  simp only [log] at h
  split at h
  · cases h
  · split at h
    · obtain rfl := by simpa using h
      exact ⟨trivial, .inl rfl, fun h => by cases h⟩
    · split at h
      · obtain rfl := by simpa using h
        exact ⟨trivial, .inl rfl, fun h => by cases h⟩
      · cases h

theorem supplies_of_mem {ty : NodeType} (h : ty ∈ all) : Supplies ty := by
  simp only [all, List.mem_cons, List.not_mem_nil, or_false] at h
  rcases h with rfl | rfl | rfl | rfl | rfl | rfl | rfl | rfl | rfl | rfl | rfl | rfl | rfl | rfl | rfl | rfl |
    rfl | rfl | rfl | rfl | rfl | rfl | rfl | rfl | rfl | rfl | rfl | rfl | rfl
  -- The three types that do more than read one argument have lemmas of their own.
  case inr.inr.inr.inr.inl => exact supplies_switch
  all_goals first
    | exact supplies_loop
    | exact supplies_log
    | exact supplies_plain (by simp [Behavior.Plain]) (by simp [Behavior.needs, Category.childCount]) nofun
    | exact supplies_repeating rfl nofun
    | exact supplies_ofExpression (fun _ => trivial) (fun _ => rfl) nofun
    | exact supplies_ofNumber (fun _ _ => trivial)
        (fun _ _ => by simp [Behavior.needs, Category.childCount]) nofun
    | exact supplies_ofString (fun _ => trivial)
        (fun _ => by simp [Behavior.needs, Category.childCount]) nofun

end BuiltIn

namespace Registry

theorem get?_register (r : Registry) (key : String) (ty : NodeType) :
    (r.register ty).get? key = if ty.kind.name = key then some ty else r.get? key :=
  get?_registerAs r ty.kind.name key ty

theorem mem_of_get?_foldl {types : List NodeType} {r : Registry} {key : String} {ty : NodeType}
    (h : (types.foldl register r).get? key = some ty) : ty ∈ types ∨ r.get? key = some ty := by
  induction types generalizing r with
  | nil => exact .inr h
  | cons t types ih =>
    rcases ih h with hm | hr
    · exact .inl (List.mem_cons_of_mem _ hm)
    · rw [get?_register] at hr
      split at hr
      · obtain rfl : t = ty := Option.some.inj hr
        exact .inl List.mem_cons_self
      · exact .inr hr

theorem mem_all_of_builtIn {key : String} {ty : NodeType} (h : builtIn.get? key = some ty) :
    ty ∈ BuiltIn.all := by
  rw [builtIn, get?_registerAs] at h
  split at h
  · obtain rfl : BuiltIn.invert = ty := Option.some.inj h
    simp [BuiltIn.all]
  · rcases mem_of_get?_foldl h with hm | h
    · exact hm
    · change (∅ : Std.ExtTreeMap String NodeType)[key]? = some ty at h
      simp at h

theorem builtIn_case : builtIn.get? "Case" = some BuiltIn.case := by
  simp [builtIn, BuiltIn.all, get?_registerAs, get?_register, BuiltIn.sequence, BuiltIn.selector, BuiltIn.parallel,
    BuiltIn.race, BuiltIn.case, BuiltIn.switch, BuiltIn.ifElse, BuiltIn.forEach, BuiltIn.loop, BuiltIn.repeated,
    BuiltIn.repeatUntilSuccess, BuiltIn.repeatUntilFailure, BuiltIn.invert, BuiltIn.alwaysSuccess,
    BuiltIn.alwaysFailure, BuiltIn.once, BuiltIn.timeout, BuiltIn.delay, BuiltIn.wait, BuiltIn.listen,
    BuiltIn.watchdog, BuiltIn.check, BuiltIn.calculate, BuiltIn.copy, BuiltIn.isNull, BuiltIn.notNull, BuiltIn.log,
    BuiltIn.dispatch, BuiltIn.now, BuiltIn.plain, BuiltIn.ofExpression, BuiltIn.ofNumber, BuiltIn.ofString,
    BuiltIn.repeating]

variable {r : Registry}

theorem plain_builtIn : builtIn.Plain := fun _ _ h => .inl h

/-- A type of leaves under a name of its own may be registered. -/
theorem Plain.register (hr : r.Plain) {ty : NodeType} (hn : builtIn.get? ty.kind.name = none) (hl : ty.IsLeaf) :
    (r.register ty).Plain := by
  intro name ty' hget
  rw [get?_register] at hget
  split at hget
  · rename_i hname
    obtain rfl : ty = ty' := Option.some.inj hget
    exact .inr ⟨hname ▸ hn, hl⟩
  · exact hr name ty' hget

theorem standard_builtIn : builtIn.Standard := plain_builtIn.standard

/-- Types of the host under names of their own may be registered. -/
theorem Standard.foldl_register (hr : r.Standard) {types : List NodeType}
    (h : ∀ ty ∈ types, builtIn.get? ty.kind.name = none ∧ ty.OfHost) : (types.foldl register r).Standard := by
  induction types generalizing r with
  | nil => exact hr
  | cons ty types ih =>
    obtain ⟨hty, htypes⟩ := List.forall_mem_cons.mp h
    refine ih (fun name ty' hget => ?_) htypes
    rw [get?_register] at hget
    split at hget
    · rename_i hname
      obtain rfl : ty = ty' := Option.some.inj hget
      exact .inr ⟨hname ▸ hty.1, hty.2⟩
    · exact hr name ty' hget

theorem Standard.supplies (hr : r.Standard) {name : String} {ty : NodeType} (h : r.get? name = some ty) :
    BuiltIn.Supplies ty ∨ ty.OfHost :=
  (hr name ty h).imp (fun hb => BuiltIn.supplies_of_mem (mem_all_of_builtIn hb)) And.right

theorem Standard.case (hr : r.Standard) {ty : NodeType} (h : r.get? "Case" = some ty) : ty = BuiltIn.case := by
  rcases hr "Case" ty h with hb | ⟨hn, _⟩
  · exact Option.some.inj (hb.symm.trans builtIn_case)
  · rw [builtIn_case] at hn
    cases hn

end Registry

namespace Loader

abbrev Nodes := Std.ExtTreeMap NodeId Node

/-- A node came from a document through its type, and its children are those that the document enables. -/
structure Filed (r : Registry) (N : Nodes) (n : Node) : Prop where
  made : ∃ compile spec ty, r.get? n.name = some ty ∧ ty.configure compile spec = .ok n.behavior ∧
    (∀ k, ty.kind.children = .exact k → k ≤ n.children.length) ∧
    List.Forall₂ (fun c (s : NodeSpec) => ∃ m, N[c]? = some m ∧ m.name = s.name) n.children spec.enabled

structure Sound (r : Registry) (N : Nodes) : Prop where
  id_eq {id : NodeId} {n : Node} : N[id]? = some n → n.id = id
  child {id c : NodeId} {n : Node} : N[id]? = some n → c ∈ n.children → ∃ m, N[c]? = some m
  nodup {id : NodeId} {n : Node} : N[id]? = some n → n.children.Nodup
  parent {a b c : NodeId} {n m : Node} :
    N[a]? = some n → N[b]? = some m → c ∈ n.children → c ∈ m.children → a = b
  ranked : ∃ rank : NodeId → Nat,
    ∀ (id c : NodeId) (n : Node), N[id]? = some n → c ∈ n.children → rank c < rank id
  filed {id : NodeId} {n : Node} : N[id]? = some n → Filed r N n

def Keeps (N N' : Nodes) : Prop := ∀ (id : NodeId) (n : Node), N[id]? = some n → N'[id]? = some n

/-- Loading more nodes, with `ids` at the top of what is new. -/
structure Grows (N N' : Nodes) (ids : List NodeId) : Prop where
  keeps : Keeps N N'
  /-- New nodes have new children. -/
  inward {id c : NodeId} {n : Node} : N[id]? = none → N'[id]? = some n → c ∈ n.children → N[c]? = none
  fresh : ∀ id ∈ ids, N[id]? = none
  nodup : ids.Nodup
  free {id p : NodeId} {n : Node} : id ∈ ids → N'[p]? = some n → id ∉ n.children

def Named (N : Nodes) : List NodeId → List NodeSpec → Prop :=
  List.Forall₂ fun c s => ∃ m, N[c]? = some m ∧ m.name = s.name

variable {r : Registry} {N N' N'' : Nodes} {n : Node} {id : NodeId} {ids : List NodeId} {specs : List NodeSpec}

theorem Named.mono (hk : Keeps N N') (h : Named N ids specs) :
    Named N' ids specs :=
  h.imp fun _ _ ⟨m, hm, he⟩ => ⟨m, hk _ _ hm, he⟩

theorem Filed.mono (hk : Keeps N N') (h : Filed r N n) : Filed r N' n := by
  obtain ⟨compile, spec, ty, hty, hb, hc, hn⟩ := h.made
  exact ⟨compile, spec, ty, hty, hb, hc, Named.mono hk hn⟩

theorem sound_empty : Sound r ∅ := by
  refine ⟨?_, ?_, ?_, ?_, ⟨fun _ => 0, ?_⟩, ?_⟩ <;> simp

theorem Grows.refl (N : Nodes) : Grows N N [] := by
  refine ⟨fun _ _ h => h, ?_, nofun, List.nodup_nil, nofun⟩
  intro id c n hn h
  rw [hn] at h
  cases h

theorem Grows.old_or_new (h : Grows N N' ids) {x : NodeId} {n : Node} (hx : N'[x]? = some n) :
    N[x]? = some n ∨ N[x]? = none := by
  rcases ho : N[x]? with _ | n'
  · exact .inr rfl
  · exact .inl ((h.keeps _ _ ho).symm.trans hx)

theorem Named.exists_of_mem (h : Named N ids specs) (hid : id ∈ ids) : ∃ n, N[id]? = some n := by
  induction h with
  | nil => simp at hid
  | cons hm _ ih =>
    rcases List.mem_cons.mp hid with rfl | hid
    · exact hm.imp fun _ h => h.1
    · exact ih hid

theorem Keeps.none (h : Keeps N N') {x : NodeId} (hx : N'[x]? = none) : N[x]? = none := by
  rcases ho : N[x]? with _ | n
  · rfl
  · rw [h _ _ ho] at hx
    cases hx

theorem Named.exists_spec (h : Named N ids specs) (hid : id ∈ ids) :
    ∃ s ∈ specs, ∃ n, N[id]? = some n ∧ n.name = s.name := by
  induction h with
  | nil => simp at hid
  | cons hm _ ih =>
    rcases List.mem_cons.mp hid with rfl | hid
    · exact ⟨_, List.mem_cons_self, hm⟩
    · obtain ⟨s, hs, hn⟩ := ih hid
      exact ⟨s, List.mem_cons_of_mem _ hs, hn⟩

/-- Loading a node and then others puts its id before theirs. -/
theorem Grows.cons (h : Grows N N' [id]) (h' : Grows N' N'' ids) (hid : ∃ n, N'[id]? = some n) :
    Grows N N'' (id :: ids) := by
  obtain ⟨m, hm⟩ := hid
  have hnotin : id ∉ ids := by
    intro hmem
    have := h'.fresh id hmem
    rw [hm] at this
    cases this
  refine ⟨fun _ _ hn => h'.keeps _ _ (h.keeps _ _ hn), ?_, ?_, List.nodup_cons.mpr ⟨hnotin, h'.nodup⟩, ?_⟩
  · intro x c n hx hn hc
    rcases h'.old_or_new hn with ho | ho
    · exact h.inward hx ho hc
    · exact h.keeps.none (h'.inward ho hn hc)
  · intro x hx
    rcases List.mem_cons.mp hx with rfl | hx
    · exact h.fresh x List.mem_cons_self
    · exact h.keeps.none (h'.fresh x hx)
  · intro x p n hx hn hc
    rcases List.mem_cons.mp hx with rfl | hx
    · rcases h'.old_or_new hn with ho | ho
      · exact h.free List.mem_cons_self ho hc
      · have := h'.inward ho hn hc
        rw [hm] at this
        cases this
    · exact h'.free hx hn hc

/-- Filing a node above those that were just loaded as its children. -/
theorem Grows.insert (h : Grows N N' n.children) (hs : Sound r N') (hid : N'[n.id]? = none)
    (hn : Named N' n.children specs) : Grows N (N'.insert n.id n) [n.id] := by
  have hback := h.keeps.none hid
  refine ⟨?_, ?_, ?_, List.nodup_singleton _, ?_⟩
  · intro x m hm
    have hne : n.id ≠ x := by
      rintro rfl
      rw [hback] at hm
      cases hm
    simpa [Std.ExtTreeMap.getElem?_insert, hne] using h.keeps _ _ hm
  · intro x c m hx hm hmem
    rw [Std.ExtTreeMap.getElem?_insert] at hm
    split at hm
    · obtain rfl : n = m := Option.some.inj hm
      exact h.fresh c hmem
    · exact h.inward hx hm hmem
  · simpa using hback
  · intro x p m hx hm hmem
    obtain rfl : x = n.id := by simpa using hx
    have hne : ∃ k, N'[n.id]? = some k := by
      rw [Std.ExtTreeMap.getElem?_insert] at hm
      split at hm
      · obtain rfl : n = m := Option.some.inj hm
        exact hn.exists_of_mem hmem
      · exact hs.child hm hmem
    obtain ⟨k, hk⟩ := hne
    rw [hid] at hk
    cases hk

theorem Sound.insert (hs : Sound r N') (h : Grows N N' n.children) (hid : N'[n.id]? = none)
    (hn : Named N' n.children specs) (hf : Filed r N' n) : Sound r (N'.insert n.id n) := by
  have hkeep : Keeps N' (N'.insert n.id n) := by
    intro x m hm
    have hne : n.id ≠ x := by
      rintro rfl
      rw [hid] at hm
      cases hm
    simpa [Std.ExtTreeMap.getElem?_insert, hne] using hm
  have hsplit : ∀ {x : NodeId} {m : Node}, (N'.insert n.id n)[x]? = some m →
      (x = n.id ∧ m = n) ∨ (x ≠ n.id ∧ N'[x]? = some m) := by
    intro x m hm
    by_cases hx : n.id = x
    · subst hx
      exact .inl ⟨rfl, by simpa using hm.symm⟩
    · exact .inr ⟨Ne.symm hx, by simpa [Std.ExtTreeMap.getElem?_insert, hx] using hm⟩
  have hchild : ∀ {x c : NodeId} {m : Node},
      (N'.insert n.id n)[x]? = some m → c ∈ m.children → ∃ k, N'[c]? = some k := by
    intro x c m hm hc
    rcases hsplit hm with ⟨_, rfl⟩ | ⟨_, hm⟩
    · exact hn.exists_of_mem hc
    · exact hs.child hm hc
  refine ⟨?_, ?_, ?_, ?_, ?_, ?_⟩
  · intro x m hm
    rcases hsplit hm with ⟨rfl, rfl⟩ | ⟨_, hm⟩
    · rfl
    · exact hs.id_eq hm
  · intro x c m hm hc
    exact (hchild hm hc).imp fun _ hk => hkeep _ _ hk
  · intro x m hm
    rcases hsplit hm with ⟨_, rfl⟩ | ⟨_, hm⟩
    · exact h.nodup
    · exact hs.nodup hm
  · intro a b c m m' ha hb hc hc'
    rcases hsplit ha with ⟨ha, rfl⟩ | ⟨_, ha⟩ <;> rcases hsplit hb with ⟨hb, he⟩ | ⟨_, hb⟩
    · rw [ha, hb]
    · exact absurd hc' (h.free hc hb)
    · rw [he] at hc'
      exact absurd hc (h.free hc' ha)
    · exact hs.parent ha hb hc hc'
  · obtain ⟨rank, hr⟩ := hs.ranked
    refine ⟨fun x => if x = n.id then (n.children.map rank).sum + 1 else rank x, ?_⟩
    intro x c m hm hc
    have hcne : c ≠ n.id := by
      rintro rfl
      obtain ⟨k, hk⟩ := hchild hm hc
      rw [hid] at hk
      cases hk
    simp only [hcne, if_false]
    rcases hsplit hm with ⟨rfl, rfl⟩ | ⟨hx, hm⟩
    · have hle : rank c ≤ (m.children.map rank).sum := List.le_sum_of_mem (List.mem_map_of_mem hc)
      simp only [if_true]
      omega
    · simpa [hx] using hr x c m hm hc
  · intro x m hm
    rcases hsplit hm with ⟨_, rfl⟩ | ⟨_, hm⟩
    · exact hf.mono hkeep
    · exact (hs.filed hm).mono hkeep

/-- A step of loading succeeds with a result. -/
def Ends {α : Type} (m : LoadM α) (s : State) (a : α) (s' : State) : Prop := m.run.run s = (.ok a, s')

section Steps

variable {α β : Type} {s s' s'' : State} {c : Setting} {spec : NodeSpec}

theorem run_bind (m : LoadM α) (f : α → LoadM β) (s : State) :
    (m >>= f).run.run s =
      match m.run.run s with
      | (.ok a, s') => (f a).run.run s'
      | (.error e, s') => (.error e, s') := by
  simp only [ExceptT.run_bind, StateT.run_bind]
  change (match m.run.run s with | (a, s') => _) = _
  rcases m.run.run s with ⟨_ | a, s'⟩ <;> rfl

theorem Ends.bind {m : LoadM α} {f : α → LoadM β} {b : β} (h : Ends (m >>= f) s b s'') :
    ∃ a s', Ends m s a s' ∧ Ends (f a) s' b s'' := by
  rw [Ends, run_bind] at h
  rcases hm : m.run.run s with ⟨_ | a, s'⟩
  · rw [hm] at h
    cases h
  · rw [hm] at h
    exact ⟨a, s', hm, h⟩

theorem Ends.pure {a b : α} (h : Ends (Pure.pure a) s b s') : a = b ∧ s = s' := by
  cases h
  exact ⟨rfl, rfl⟩

theorem not_ends_throw {e : LoadError} {a : α} : ¬ Ends (throw e) s a s' := nofun

theorem Ends.report {r : Report} {u : Unit} (h : Ends (report r) s u s') : s'.nodes = s.nodes := by
  cases h
  rfl

theorem ends_forM {f : β → LoadM PUnit} (hf : ∀ x s u s', Ends (f x) s u s' → s'.nodes = s.nodes) {xs : List β}
    {u : PUnit} (h : Ends (xs.forM f) s u s') : s'.nodes = s.nodes := by
  induction xs generalizing s with
  | nil => rw [← h.pure.2]
  | cons x xs ih =>
    obtain ⟨_, s₁, h₁, h₂⟩ := Ends.bind h
    exact (ih h₂).trans (hf _ _ _ _ h₁)

theorem ends_checkChildren {count : ChildCount} {u : Unit} (h : Ends (checkChildren c spec count) s u s') :
    s'.nodes = s.nodes ∧ ∀ k, count = .exact k → k ≤ spec.enabled.length := by
  rw [checkChildren.eq_def] at h
  split at h
  · exact ⟨by rw [h.pure.2], nofun⟩
  · rename_i k
    simp only at h
    split at h
    · exact absurd h not_ends_throw
    · rename_i hle
      have hk : ∀ j, ChildCount.exact k = .exact j → j ≤ spec.enabled.length := by
        rintro _ ⟨⟩
        omega
      split at h
      · split at h
        · exact absurd h not_ends_throw
        · exact ⟨h.report, hk⟩
      · exact ⟨by rw [h.pure.2], hk⟩

theorem ends_checkArgs {args : List ArgSpec} {u : Unit} (h : Ends (checkArgs c spec args) s u s') :
    s'.nodes = s.nodes := by
  refine ends_forM ?_ h
  intro arg s u s' h
  split at h
  · rw [h.pure.2]
  · exact absurd h not_ends_throw

theorem ends_checkSlots {slots : List String} {u : Unit} (h : Ends (checkSlots c spec slots) s u s') :
    s'.nodes = s.nodes := by
  refine ends_forM ?_ h
  intro slot s u s' h
  simp only at h
  split at h
  · exact h.report
  · rw [h.pure.2]

theorem ends_configure {result : NodeKind × Behavior} (h : Ends (configure c spec) s result s') :
    s'.nodes = s.nodes ∧ ∃ ty, c.registry.get? spec.name = some ty ∧
      ty.configure c.compile spec = .ok result.2 ∧
      ∀ k, ty.kind.children = .exact k → k ≤ spec.enabled.length := by
  rw [configure] at h
  split at h
  · exact absurd h not_ends_throw
  · rename_i ty hty
    obtain ⟨_, s₁, h₁, h⟩ := h.bind
    obtain ⟨_, s₂, h₂, h⟩ := h.bind
    obtain ⟨_, s₃, h₃, h⟩ := h.bind
    obtain ⟨hn₁, hk⟩ := ends_checkChildren h₁
    have hn₂ := ends_checkArgs h₂
    have hn₃ := ends_checkSlots h₃
    split at h
    · rename_i behavior hb
      obtain ⟨rfl, rfl⟩ := h.pure
      exact ⟨by rw [hn₃, hn₂, hn₁], ty, hty, hb, hk⟩
    · exact absurd h not_ends_throw

theorem ends_file {n : Node} {u : Unit} (h : Ends (file c n) s u s') :
    s.nodes[n.id]? = none ∧ s'.nodes = s.nodes.insert n.id n := by
  obtain ⟨st, s₁, hget, h⟩ := Ends.bind h
  cases hget
  split at h
  · exact absurd h not_ends_throw
  · rename_i hc
    cases h
    exact ⟨by simpa using hc, rfl⟩

end Steps

/-- What loading adds: sound nodes, with those of the documents at the top. -/
structure Adds (r : Registry) (N N' : Nodes) (ids : List NodeId) (specs : List NodeSpec) : Prop where
  sound : Sound r N'
  grows : Grows N N' ids
  named : Named N' ids specs

mutual
theorem ends_loadNode {c : Setting} {s s' : State} {id : NodeId} :
    ∀ {spec : NodeSpec}, Sound c.registry s.nodes → Ends (loadNode c spec) s id s' →
      Adds c.registry s.nodes s'.nodes [id] [spec]
  | ⟨sid, name, desc, args, debug, disabled, input, output, children⟩, hs, h => by
    rw [loadNode] at h
    obtain ⟨⟨kind, behavior⟩, s₁, h₁, h⟩ := h.bind
    obtain ⟨childIds, s₂, h₂, h⟩ := h.bind
    obtain ⟨_, s₃, h₃, h⟩ := h.bind
    obtain ⟨rfl, rfl⟩ := h.pure
    obtain ⟨hn₁, ty, hty, hb, hk⟩ := ends_configure h₁
    have hadds := ends_loadChildren (by rwa [hn₁]) h₂
    rw [hn₁] at hadds
    obtain ⟨hs₂, hg, hn⟩ := hadds
    obtain ⟨hid, hn₃⟩ := ends_file h₃
    rw [hn₃]
    refine ⟨hs₂.insert hg hid hn ⟨c.compile, _, ty, hty, hb, ?_, hn⟩, hg.insert hs₂ hid hn, ?_⟩
    · intro k hc
      exact hn.length_eq ▸ hk k hc
    · exact .cons ⟨_, Std.ExtTreeMap.getElem?_insert_self, rfl⟩ .nil

theorem ends_loadChildren {c : Setting} {s s' : State} {ids : List NodeId} :
    ∀ {specs : List NodeSpec}, Sound c.registry s.nodes → Ends (loadChildren c specs) s ids s' →
      Adds c.registry s.nodes s'.nodes ids (specs.filter (!·.disabled))
  | [], hs, h => by
    rw [loadChildren] at h
    obtain ⟨rfl, rfl⟩ := h.pure
    exact ⟨hs, .refl _, .nil⟩
  | spec :: rest, hs, h => by
    rw [loadChildren] at h
    split at h
    · rename_i hd
      simpa [hd] using ends_loadChildren hs h
    · rename_i hd
      obtain ⟨id, s₁, h₁, h⟩ := h.bind
      obtain ⟨ids', s₂, h₂, h⟩ := h.bind
      obtain ⟨rfl, rfl⟩ := h.pure
      obtain ⟨hs₁, hg₁, hn₁⟩ := ends_loadNode hs h₁
      obtain ⟨hs₂, hg₂, hn₂⟩ := ends_loadChildren hs₁ h₂
      have hid := hn₁.exists_of_mem List.mem_cons_self
      rw [List.filter_cons_of_pos (by simpa using hd)]
      exact ⟨hs₂, hg₁.cons hg₂ hid, .cons (List.forall₂_cons.mp (hn₁.mono hg₂.keeps)).1 hn₂⟩
end

end Loader

namespace Registry.Loads

variable {r : Registry} {t : Tree}

theorem sound (h : r.Loads t) : Loader.Sound r t.nodes ∧ (∃ n, t.get? t.root = some n) ∧
    ∀ {id : NodeId} {n : Node}, t.get? id = some n → t.root ∉ n.children := by
  obtain ⟨compile, strict, spec, reports, h⟩ := h
  rw [Tree.load] at h
  split at h
  case h_2 => cases h
  rename_i root s' hl
  obtain ⟨hs, hg, hn⟩ := Loader.ends_loadNode (s := {}) Loader.sound_empty hl
  cases h
  exact ⟨hs, hn.exists_of_mem List.mem_cons_self, fun hid => hg.free List.mem_cons_self hid⟩

/-- Trees without routines that are loaded with the built-in types are orderly. -/
theorem orderly_of_standard (hr : r.Standard) (h : r.Loads t)
    (hroutine : ∀ {id : NodeId} {n : Node} {steps : Site → Routine}, t.get? id = some n → n.behavior ≠ .routine steps) :
    t.Orderly := by
  obtain ⟨hs, hrooted, hroot⟩ := h.sound
  have hsupplied : ∀ {id : NodeId} {n : Node}, t.get? id = some n → ∃ (spec : NodeSpec),
      n.behavior.Plain ∧ n.behavior.needs ≤ n.children.length ∧
      (n.behavior = .switch → ∀ child ∈ spec.enabled, child.name = "Case") ∧
      Loader.Named t.nodes n.children spec.enabled := by
    intro id n hid
    obtain ⟨compile, spec, ty, hty, hb, hk, hnamed⟩ := (hs.filed hid).made
    rcases hr.supplies hty with hsupplies | hhost
    · obtain ⟨hplain, hneeds, hswitch⟩ := hsupplies compile spec _ hb
      refine ⟨spec, hplain, ?_, hswitch, hnamed⟩
      rcases hneeds with h0 | hex
      · omega
      · exact hk _ hex
    · rcases hhost compile spec _ hb with ⟨react, hleaf⟩ | ⟨steps, hsteps⟩
      · refine ⟨spec, ?_, ?_, fun hs => ?_, hnamed⟩
        · rw [hleaf]
          trivial
        · rw [hleaf]
          exact Nat.zero_le _
        · rw [hleaf] at hs
          cases hs
      · exact absurd hsteps (hroutine hid)
  refine ⟨hs.id_eq, hs.child, hs.nodup, hs.parent, hs.ranked, hrooted, hroot, ?_, ?_, ?_⟩
  · intro id n hid
    obtain ⟨_, _, hneeds, _⟩ := hsupplied hid
    exact hneeds
  · intro id c n hid hswitch hc
    obtain ⟨spec, _, _, hcases, hnamed⟩ := hsupplied hid
    obtain ⟨s, hs', m, hm, hname⟩ := hnamed.exists_spec hc
    obtain ⟨compile', spec', ty', hty', hb', _⟩ := (hs.filed hm).made
    rw [hname, hcases hswitch s hs'] at hty'
    rw [hr.case hty'] at hb'
    exact ⟨m, hm, (Except.ok.inj hb').symm⟩
  · intro id n hid
    obtain ⟨_, hplain, _⟩ := hsupplied hid
    exact hplain

theorem orderly (hr : r.Plain) (h : r.Loads t) : t.Orderly := by
  refine h.orderly_of_standard hr.standard fun {id n steps} hid hsteps => ?_
  obtain ⟨compile, spec, ty, hty, hb, _⟩ := (h.sound.1.filed hid).made
  rcases hr n.name ty hty with hbuiltIn | ⟨_, hl⟩
  · have hplain := (BuiltIn.supplies_of_mem (mem_all_of_builtIn hbuiltIn) compile spec _ hb).1
    rw [hsteps] at hplain
    exact hplain
  · obtain ⟨react, hleaf⟩ := hl compile spec _ hb
    rw [hsteps] at hleaf
    cases hleaf

end Registry.Loads

end BehaviorTree
