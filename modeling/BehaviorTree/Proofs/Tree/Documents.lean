import BehaviorTree.Proofs.Tree.Loading

/-!
Loading against the authored document. The nodes to load are the root and, below each of them, the children that
are not disabled; a tree loads if and only if each of these is accepted by its type and no two share an id, and
then its nodes are exactly what these documents stand for.
-/

namespace BehaviorTree
set_option autoImplicit false

namespace NodeSpec

def Encloses (d e : NodeSpec) : Prop := e ∈ d.enabled

mutual
/-- The documents of the nodes to load, each before those below it. -/
def loaded : NodeSpec → List NodeSpec
  | ⟨id, name, desc, args, debug, disabled, input, output, children⟩ =>
    ⟨id, name, desc, args, debug, disabled, input, output, children⟩ :: loadedAll children

def loadedAll : List NodeSpec → List NodeSpec
  | [] => []
  | d :: rest => if d.disabled then loadedAll rest else d.loaded ++ loadedAll rest
end

theorem loadedAll_eq (ds : List NodeSpec) : loadedAll ds = (ds.filter (!·.disabled)).flatMap loaded := by
  induction ds with
  | nil => rfl
  | cons d ds ih => cases hd : d.disabled <;> simp [loadedAll, hd, ih]

theorem loaded_eq (d : NodeSpec) : d.loaded = d :: d.enabled.flatMap loaded := by
  obtain ⟨id, name, desc, args, debug, disabled, input, output, children⟩ := d
  rw [loaded, loadedAll_eq]
  rfl

theorem mem_loaded_self (d : NodeSpec) : d ∈ d.loaded := by
  rw [loaded_eq]
  exact List.mem_cons_self

mutual
theorem encloses_of_mem_loaded {e : NodeSpec} :
    ∀ {d : NodeSpec}, e ∈ d.loaded → Relation.ReflTransGen Encloses d e
  | ⟨id, name, desc, args, debug, disabled, input, output, children⟩, h => by
    rw [loaded] at h
    rcases List.mem_cons.mp h with rfl | h
    · exact .refl
    · obtain ⟨c, hc, hd, hce⟩ := encloses_of_mem_loadedAll h
      exact .head (List.mem_filter.mpr ⟨hc, by simp [hd]⟩) hce

theorem encloses_of_mem_loadedAll {e : NodeSpec} :
    ∀ {ds : List NodeSpec}, e ∈ loadedAll ds →
      ∃ d ∈ ds, d.disabled = false ∧ Relation.ReflTransGen Encloses d e
  | [], h => by cases h
  | d :: rest, h => by
    rw [loadedAll] at h
    cases hd : d.disabled with
    | true =>
      rw [hd, if_pos rfl] at h
      obtain ⟨c, hc, hdis, hce⟩ := encloses_of_mem_loadedAll h
      exact ⟨c, List.mem_cons_of_mem _ hc, hdis, hce⟩
    | false =>
      rw [hd, if_neg Bool.false_ne_true] at h
      rcases List.mem_append.mp h with h | h
      · exact ⟨d, List.mem_cons_self, hd, encloses_of_mem_loaded h⟩
      · obtain ⟨c, hc, hdis, hce⟩ := encloses_of_mem_loadedAll h
        exact ⟨c, List.mem_cons_of_mem _ hc, hdis, hce⟩
end

/-- The nodes to load are the root and the enabled children of nodes to load. -/
theorem mem_loaded_iff {d e : NodeSpec} : e ∈ d.loaded ↔ Relation.ReflTransGen Encloses d e := by
  refine ⟨encloses_of_mem_loaded, fun h => ?_⟩
  induction h using Relation.ReflTransGen.head_induction_on with
  | refl => exact mem_loaded_self e
  | @head d c hdc _ ih =>
    rw [loaded_eq]
    exact List.mem_cons_of_mem _ (List.mem_flatMap.mpr ⟨c, hdc, ih⟩)

section Types

variable (registry : Registry) (compile : Compiler)

/-- Its type, of which it has enough children and accepted arguments, configures a document. A strict count leaves
no room for more. -/
def Accepted (strict : Bool) (d : NodeSpec) : Prop :=
  ∃ type, registry.get? d.name = some type ∧
    (∀ n, type.kind.children = .exact n → n ≤ d.enabled.length ∧ (strict = true → d.enabled.length = n)) ∧
    (∀ arg ∈ type.kind.args, arg.validate d.args = .ok ()) ∧
    ∃ behavior, type.configure compile d = .ok behavior

def StandsFor (d : NodeSpec) (n : Node) : Prop :=
  ∃ type behavior, registry.get? d.name = some type ∧ type.configure compile d = .ok behavior ∧
    n = { id := d.id, name := d.name, args := d.args, input := d.input, output := d.output
          children := d.enabled.map (·.id), kind := type.kind, debug := d.debug, behavior }

variable {registry : Registry} {compile : Compiler} {strict : Bool} {d : NodeSpec} {n m : Node}

theorem Accepted.lenient (h : d.Accepted registry compile true) : d.Accepted registry compile false := by
  obtain ⟨type, htype, count, args, configured⟩ := h
  exact ⟨type, htype, fun n hn => ⟨(count n hn).1, nofun⟩, args, configured⟩

theorem Accepted.exists_node (h : d.Accepted registry compile strict) : ∃ n, d.StandsFor registry compile n := by
  obtain ⟨type, htype, -, -, behavior, hbehavior⟩ := h
  exact ⟨_, type, behavior, htype, hbehavior, rfl⟩

theorem StandsFor.unique (h : d.StandsFor registry compile n) (h' : d.StandsFor registry compile m) : n = m := by
  obtain ⟨type, behavior, htype, hbehavior, rfl⟩ := h
  obtain ⟨type', behavior', htype', hbehavior', rfl⟩ := h'
  obtain rfl := Option.some.inj (htype.symm.trans htype')
  obtain rfl := Except.ok.inj (hbehavior.symm.trans hbehavior')
  rfl

theorem StandsFor.id_eq (h : d.StandsFor registry compile n) : n.id = d.id := by
  obtain ⟨type, behavior, -, -, rfl⟩ := h
  rfl

theorem StandsFor.children (h : d.StandsFor registry compile n) : n.children = d.enabled.map (·.id) := by
  obtain ⟨type, behavior, -, -, rfl⟩ := h
  rfl

end Types

end NodeSpec

namespace Loader

/-! ## When each step succeeds -/

section Steps

variable {α β : Type} {s : State} {c : Setting} {spec : NodeSpec}

def Succeeds (m : LoadM α) (s : State) : Prop := ∃ a s', Ends m s a s'

theorem Ends.of_bind {m : LoadM α} {f : α → LoadM β} {a : α} {b : β} {s' s'' : State} (h : Ends m s a s')
    (hf : Ends (f a) s' b s'') : Ends (m >>= f) s b s'' := by
  rw [Ends] at h
  rw [Ends, run_bind, h]
  exact hf

theorem Succeeds.of_bind {m : LoadM α} {f : α → LoadM β} {a : α} {s' : State} (h : Ends m s a s')
    (hf : Succeeds (f a) s') : Succeeds (m >>= f) s := by
  obtain ⟨b, s'', hb⟩ := hf
  exact ⟨b, s'', h.of_bind hb⟩

theorem succeeds_pure (a : α) : Succeeds (pure a) s := ⟨a, s, rfl⟩

theorem succeeds_report (r : Report) : Succeeds (report r) s := ⟨(), _, rfl⟩

theorem not_succeeds_throw {e : LoadError} : ¬ Succeeds (throw e : LoadM α) s :=
  fun ⟨_, _, h⟩ => not_ends_throw h

/-- Steps whose success does not depend on the state succeed one after the other if each of them does. -/
theorem succeeds_seq {m : LoadM Unit} {f : Unit → LoadM β} {P Q : Prop} (hm : ∀ s, Succeeds m s ↔ P)
    (hf : ∀ s, Succeeds (f ()) s ↔ Q) : Succeeds (m >>= f) s ↔ P ∧ Q := by
  constructor
  · rintro ⟨b, s'', h⟩
    obtain ⟨⟨⟩, s', h₁, h₂⟩ := h.bind
    exact ⟨(hm s).mp ⟨_, _, h₁⟩, (hf s').mp ⟨_, _, h₂⟩⟩
  · rintro ⟨hp, hq⟩
    obtain ⟨⟨⟩, s', h₁⟩ := (hm s).mpr hp
    exact .of_bind h₁ ((hf s').mpr hq)

theorem succeeds_forM {f : β → LoadM PUnit} {P : β → Prop} (hf : ∀ x s, Succeeds (f x) s ↔ P x) (xs : List β)
    (s : State) : Succeeds (xs.forM f) s ↔ ∀ x ∈ xs, P x := by
  induction xs generalizing s with
  | nil => simp [succeeds_pure]
  | cons x xs ih =>
    rw [List.forall_mem_cons]
    exact succeeds_seq (hf x) ih

theorem succeeds_checkChildren (count : ChildCount) (s : State) :
    Succeeds (checkChildren c spec count) s ↔
      ∀ n, count = .exact n → n ≤ spec.enabled.length ∧ (c.strict = true → spec.enabled.length = n) := by
  cases count with
  | unbounded => simp [checkChildren, succeeds_pure]
  | exact expected =>
    rw [checkChildren]
    by_cases few : spec.enabled.length < expected
    · simp [few, not_succeeds_throw, Nat.not_le.mpr few]
    · by_cases many : expected < spec.enabled.length
      · cases hstrict : c.strict with
        | true => simp [few, many, not_succeeds_throw]; omega
        | false => simp [few, many, succeeds_report]; omega
      · simp [few, many, succeeds_pure]; omega

theorem succeeds_checkArgs (args : List ArgSpec) (s : State) :
    Succeeds (checkArgs c spec args) s ↔ ∀ arg ∈ args, arg.validate spec.args = .ok () := by
  refine succeeds_forM (fun arg s => ?_) args s
  cases harg : arg.validate spec.args with
  | ok u => simp [succeeds_pure]
  | error e => simp [not_succeeds_throw]

theorem succeeds_checkSlots (slots : List String) (s : State) : Succeeds (checkSlots c spec slots) s ↔ True := by
  refine (succeeds_forM (P := fun _ => True) (fun x s => ?_) _ s).trans (by simp)
  simp only [iff_true]
  split
  · exact succeeds_report _
  · exact succeeds_pure _

theorem succeeds_configure :
    Succeeds (configure c spec) s ↔ spec.Accepted c.registry c.compile c.strict := by
  rw [configure, NodeSpec.Accepted]
  cases htype : c.registry.get? spec.name with
  | none => simp [not_succeeds_throw]
  | some type =>
    -- the last step is settled beforehand, so that none of the four depends on the state
    dsimp only
    cases hb : type.configure c.compile spec with
    | ok behavior =>
      dsimp only
      refine (succeeds_seq (succeeds_checkChildren _) fun s => succeeds_seq (succeeds_checkArgs _) fun s =>
        succeeds_seq (succeeds_checkSlots _) fun s => iff_true_intro (succeeds_pure (type.kind, behavior))).trans ?_
      simp [hb]
    | error e =>
      dsimp only
      refine (succeeds_seq (succeeds_checkChildren _) fun s => succeeds_seq (succeeds_checkArgs _) fun s =>
        succeeds_seq (succeeds_checkSlots _) fun s => iff_false_intro not_succeeds_throw).trans ?_
      simp [hb]

theorem ends_configure_kind {kind : NodeKind} {behavior : Behavior} {s' : State}
    (h : Ends (configure c spec) s (kind, behavior) s') : s'.nodes = s.nodes ∧
      ∃ type, c.registry.get? spec.name = some type ∧ type.configure c.compile spec = .ok behavior ∧
        kind = type.kind := by
  refine ⟨(ends_configure h).1, ?_⟩
  rw [configure] at h
  split at h
  · exact absurd h not_ends_throw
  · rename_i type htype
    obtain ⟨_, _, -, h⟩ := h.bind
    obtain ⟨_, _, -, h⟩ := h.bind
    obtain ⟨_, _, -, h⟩ := h.bind
    split at h
    · rename_i hb
      obtain ⟨heq, -⟩ := h.pure
      cases heq
      exact ⟨type, htype, hb, rfl⟩
    · exact absurd h not_ends_throw

theorem ends_file_of_fresh {n : Node} (h : s.nodes[n.id]? = none) :
    Ends (file c n) s () { s with nodes := s.nodes.insert n.id n } := by
  have absent : ¬ n.id ∈ s.nodes := by simpa using h
  have hget : Ends (get : LoadM State) s s s := rfl
  refine Ends.of_bind hget ?_
  simp only [Std.ExtTreeMap.contains_iff_mem, absent, if_false]
  rfl

end Steps

/-! ## What is filed -/

/-- Documents that were accepted, under ids that are new and distinct, and filed on top of what was there. -/
structure Fills (c : Setting) (N N' : Nodes) (docs : List NodeSpec) : Prop where
  accepted : ∀ d ∈ docs, d.Accepted c.registry c.compile c.strict
  fresh : ∀ d ∈ docs, N[d.id]? = none
  nodup : (docs.map (·.id)).Nodup
  nodes (x : NodeId) (n : Node) :
    N'[x]? = some n ↔ N[x]? = some n ∨ ∃ d ∈ docs, d.id = x ∧ d.StandsFor c.registry c.compile n

namespace Fills

variable {c : Setting} {N N₁ N₂ : Nodes} {docs docs₁ docs₂ : List NodeSpec} {d : NodeSpec} {x : NodeId} {n : Node}

theorem nil (N : Nodes) : Fills c N N [] :=
  ⟨nofun, nofun, List.nodup_nil, by simp⟩

theorem getElem?_eq_none_iff (h : Fills c N N₁ docs) : N₁[x]? = none ↔ N[x]? = none ∧ ∀ d ∈ docs, d.id ≠ x := by
  constructor
  · intro hx
    refine ⟨?_, ?_⟩
    · cases hN : N[x]? with
      | none => rfl
      | some n =>
        rw [(h.nodes x n).mpr (.inl hN)] at hx
        cases hx
    · rintro d hd rfl
      obtain ⟨n, hn⟩ := (h.accepted d hd).exists_node
      rw [(h.nodes d.id n).mpr (.inr ⟨d, hd, rfl, hn⟩)] at hx
      cases hx
  · rintro ⟨hN, hdocs⟩
    cases hx : N₁[x]? with
    | none => rfl
    | some n =>
      rcases (h.nodes x n).mp hx with hN' | ⟨d, hd, hid, -⟩
      · rw [hN] at hN'
        cases hN'
      · exact absurd hid (hdocs d hd)

theorem append (h₁ : Fills c N N₁ docs₁) (h₂ : Fills c N₁ N₂ docs₂) : Fills c N N₂ (docs₁ ++ docs₂) := by
  have apart (d : NodeSpec) (hd : d ∈ docs₂) := h₁.getElem?_eq_none_iff.mp (h₂.fresh d hd)
  refine ⟨?_, ?_, ?_, fun x n => ?_⟩
  · intro d hd
    exact (List.mem_append.mp hd).elim (h₁.accepted d) (h₂.accepted d)
  · intro d hd
    exact (List.mem_append.mp hd).elim (h₁.fresh d) fun hd => (apart d hd).1
  · rw [List.map_append, List.nodup_append]
    refine ⟨h₁.nodup, h₂.nodup, ?_⟩
    simp only [List.mem_map]
    rintro _ ⟨d₁, hd₁, rfl⟩ _ ⟨d₂, hd₂, rfl⟩
    exact (apart d₂ hd₂).2 d₁ hd₁
  · rw [h₂.nodes, h₁.nodes]
    simp only [List.mem_append, or_and_right, exists_or, or_assoc]

theorem cons (h : Fills c N N₁ docs) (accepted : d.Accepted c.registry c.compile c.strict)
    (hn : d.StandsFor c.registry c.compile n) (hnew : N₁[n.id]? = none) :
    Fills c N (N₁.insert n.id n) (d :: docs) := by
  rw [hn.id_eq] at hnew ⊢
  obtain ⟨hN, hdocs⟩ := h.getElem?_eq_none_iff.mp hnew
  refine ⟨List.forall_mem_cons.mpr ⟨accepted, h.accepted⟩, List.forall_mem_cons.mpr ⟨hN, h.fresh⟩, ?_, fun x m => ?_⟩
  · rw [List.map_cons, List.nodup_cons]
    refine ⟨fun hmem => ?_, h.nodup⟩
    obtain ⟨e, he, hid⟩ := List.mem_map.mp hmem
    exact hdocs e he hid
  · rw [Std.ExtTreeMap.getElem?_insert]
    by_cases hx : d.id = x
    · subst hx
      simp only [Std.compare_self, if_true, hN, List.exists_mem_cons_iff, true_and]
      constructor
      · intro heq
        exact .inr (.inl (Option.some.inj heq ▸ hn))
      · rintro (hm | hm | ⟨e, he, hid, -⟩)
        · cases hm
        · rw [hn.unique hm]
        · exact absurd hid (hdocs e he)
    · simp [hx, h.nodes]

end Fills

mutual
theorem fills_of_loadNode {c : Setting} {s s' : State} {id : NodeId} :
    ∀ {d : NodeSpec}, Ends (loadNode c d) s id s' → id = d.id ∧ Fills c s.nodes s'.nodes d.loaded
  | ⟨sid, name, desc, args, debug, disabled, input, output, children⟩, h => by
    rw [loadNode] at h
    obtain ⟨⟨kind, behavior⟩, s₁, h₁, h⟩ := h.bind
    obtain ⟨childIds, s₂, h₂, h⟩ := h.bind
    obtain ⟨_, s₃, h₃, h⟩ := h.bind
    obtain ⟨rfl, rfl⟩ := h.pure
    obtain ⟨hn₁, type, htype, hb, rfl⟩ := ends_configure_kind h₁
    obtain ⟨rfl, fills⟩ := fills_of_loadChildren h₂
    obtain ⟨hnew, hn₃⟩ := ends_file h₃
    rw [hn₁] at fills
    rw [hn₃, NodeSpec.loaded]
    exact ⟨rfl, fills.cons (succeeds_configure.mp ⟨_, _, h₁⟩) ⟨type, behavior, htype, hb, rfl⟩ hnew⟩

theorem fills_of_loadChildren {c : Setting} {s s' : State} {ids : List NodeId} :
    ∀ {ds : List NodeSpec}, Ends (loadChildren c ds) s ids s' →
      ids = (ds.filter (!·.disabled)).map (·.id) ∧ Fills c s.nodes s'.nodes (NodeSpec.loadedAll ds)
  | [], h => by
    rw [loadChildren] at h
    obtain ⟨rfl, rfl⟩ := h.pure
    exact ⟨rfl, .nil _⟩
  | d :: rest, h => by
    rw [loadChildren] at h
    cases hd : d.disabled with
    | true =>
      rw [hd, if_pos rfl] at h
      simpa [NodeSpec.loadedAll, hd] using fills_of_loadChildren h
    | false =>
      rw [hd, if_neg Bool.false_ne_true] at h
      obtain ⟨id, s₁, h₁, h⟩ := h.bind
      obtain ⟨ids', s₂, h₂, h⟩ := h.bind
      obtain ⟨rfl, rfl⟩ := h.pure
      obtain ⟨rfl, fills₁⟩ := fills_of_loadNode h₁
      obtain ⟨rfl, fills₂⟩ := fills_of_loadChildren h₂
      simpa [NodeSpec.loadedAll, hd] using fills₁.append fills₂
end

mutual
theorem loadNode_of_accepted {c : Setting} :
    ∀ {d : NodeSpec} {s : State}, (∀ e ∈ d.loaded, e.Accepted c.registry c.compile c.strict) →
      (∀ e ∈ d.loaded, s.nodes[e.id]? = none) → (d.loaded.map (·.id)).Nodup → Succeeds (loadNode c d) s
  | ⟨sid, name, desc, args, debug, disabled, input, output, children⟩, s, accepted, fresh, nodup => by
    rw [NodeSpec.loaded] at accepted fresh nodup
    obtain ⟨own, below⟩ := List.forall_mem_cons.mp accepted
    obtain ⟨new, free⟩ := List.forall_mem_cons.mp fresh
    obtain ⟨apart, nodup⟩ := List.nodup_cons.mp nodup
    obtain ⟨⟨kind, behavior⟩, s₁, h₁⟩ := (succeeds_configure (s := s)).mpr own
    have hn₁ := (ends_configure_kind h₁).1
    obtain ⟨ids, s₂, h₂⟩ := loadChildren_of_accepted (s := s₁) below (by rwa [hn₁]) nodup
    have hnew : s₂.nodes[sid]? = none := by
      refine (fills_of_loadChildren h₂).2.getElem?_eq_none_iff.mpr ⟨by rw [hn₁]; exact new, ?_⟩
      intro e he hid
      exact apart (List.mem_map.mpr ⟨e, he, hid⟩)
    rw [loadNode]
    refine .of_bind h₁ (.of_bind h₂ (.of_bind (ends_file_of_fresh ?_) (succeeds_pure sid)))
    exact hnew

theorem loadChildren_of_accepted {c : Setting} :
    ∀ {ds : List NodeSpec} {s : State}, (∀ e ∈ NodeSpec.loadedAll ds, e.Accepted c.registry c.compile c.strict) →
      (∀ e ∈ NodeSpec.loadedAll ds, s.nodes[e.id]? = none) → ((NodeSpec.loadedAll ds).map (·.id)).Nodup →
      Succeeds (loadChildren c ds) s
  | [], s, _, _, _ => by
    rw [loadChildren]
    exact succeeds_pure _
  | d :: rest, s, accepted, fresh, nodup => by
    rw [NodeSpec.loadedAll] at accepted fresh nodup
    rw [loadChildren]
    cases hd : d.disabled with
    | true =>
      simp only [hd, if_true] at accepted fresh nodup ⊢
      exact loadChildren_of_accepted accepted fresh nodup
    | false =>
      simp only [hd, Bool.false_eq_true, if_false, List.forall_mem_append, List.map_append, List.nodup_append]
        at accepted fresh nodup ⊢
      obtain ⟨id, s₁, h₁⟩ := loadNode_of_accepted accepted.1 fresh.1 nodup.1
      have free : ∀ e ∈ NodeSpec.loadedAll rest, s₁.nodes[e.id]? = none := fun e he =>
        (fills_of_loadNode h₁).2.getElem?_eq_none_iff.mpr ⟨fresh.2 e he, fun e' he' =>
          nodup.2.2 _ (List.mem_map_of_mem he') _ (List.mem_map_of_mem he)⟩
      obtain ⟨ids, s₂, h₂⟩ := loadChildren_of_accepted accepted.2 free nodup.2.1
      exact .of_bind h₁ (.of_bind h₂ (succeeds_pure _))
end

end Loader

/-! ## Whole trees -/

namespace Tree

variable {registry : Registry} {compile : Compiler} {strict : Bool} {spec : TreeSpec} {t t' : Tree}

def Parent (t : Tree) (p c : NodeId) : Prop := ∃ n, t.get? p = some n ∧ c ∈ n.children

/-- A tree has exactly the nodes that a document's nodes to load stand for. -/
structure Mirrors (registry : Registry) (compile : Compiler) (spec : TreeSpec) (t : Tree) : Prop where
  name : t.name = spec.name
  desc : t.desc = spec.desc
  root : t.root = spec.root.id
  /-- The ids are those of the nodes to load. -/
  keys (id : NodeId) : (∃ n, t.get? id = some n) ↔ ∃ d ∈ spec.root.loaded, d.id = id
  /-- Each id carries what its document says. -/
  nodes (d : NodeSpec) : d ∈ spec.root.loaded →
    ∃ n, t.get? d.id = some n ∧ d.StandsFor registry compile n

theorem load_fst : (load registry compile strict spec).1 =
    match (Loader.loadNode ⟨spec.name, registry, compile, strict⟩ spec.root).run.run {} with
    | (.ok root, state) => .ok { name := spec.name, desc := spec.desc, root, nodes := state.nodes }
    | (.error e, _) => .error e := by
  rw [load]
  rcases (Loader.loadNode ⟨spec.name, registry, compile, strict⟩ spec.root).run.run {} with ⟨e | root, state⟩ <;> rfl

theorem load_eq_ok_iff : (load registry compile strict spec).1 = .ok t ↔
    ∃ state, Loader.Ends (Loader.loadNode ⟨spec.name, registry, compile, strict⟩ spec.root) {} spec.root.id state ∧
      t = { name := spec.name, desc := spec.desc, root := spec.root.id, nodes := state.nodes } := by
  rw [load_fst]
  constructor
  · intro h
    split at h
    · rename_i root state hrun
      have hroot := (Loader.fills_of_loadNode hrun).1
      subst hroot
      exact ⟨state, hrun, (Except.ok.inj h).symm⟩
    · cases h
  · rintro ⟨state, hrun, rfl⟩
    rw [Loader.Ends] at hrun
    rw [hrun]

theorem load_succeeds_iff : (∃ t, (load registry compile strict spec).1 = .ok t) ↔
    (∀ d ∈ spec.root.loaded, d.Accepted registry compile strict) ∧ (spec.root.loaded.map (·.id)).Nodup := by
  constructor
  · rintro ⟨t, h⟩
    obtain ⟨state, hrun, -⟩ := load_eq_ok_iff.mp h
    have fills := (Loader.fills_of_loadNode hrun).2
    exact ⟨fills.accepted, fills.nodup⟩
  · rintro ⟨accepted, nodup⟩
    obtain ⟨id, state, hrun⟩ := Loader.loadNode_of_accepted (c := ⟨spec.name, registry, compile, strict⟩) (s := {})
      accepted (fun _ _ => by simp) nodup
    obtain rfl := (Loader.fills_of_loadNode hrun).1
    exact ⟨_, load_eq_ok_iff.mpr ⟨state, hrun, rfl⟩⟩

theorem mirrors_of_load (h : (load registry compile strict spec).1 = .ok t) : t.Mirrors registry compile spec := by
  obtain ⟨state, hrun, rfl⟩ := load_eq_ok_iff.mp h
  have fills := (Loader.fills_of_loadNode hrun).2
  have own (d : NodeSpec) (hd : d ∈ spec.root.loaded) :
      ∃ n, state.nodes[d.id]? = some n ∧ d.StandsFor registry compile n := by
    obtain ⟨n, hn⟩ := (fills.accepted d hd).exists_node
    exact ⟨n, (fills.nodes d.id n).mpr (.inr ⟨d, hd, rfl, hn⟩), hn⟩
  refine ⟨rfl, rfl, rfl, fun id => ⟨?_, ?_⟩, own⟩
  · rintro ⟨n, hn⟩
    rcases (fills.nodes id n).mp hn with hempty | ⟨d, hd, hid, -⟩
    · simp at hempty
    · exact ⟨d, hd, hid⟩
  · rintro ⟨d, hd, rfl⟩
    obtain ⟨n, hn, -⟩ := own d hd
    exact ⟨n, hn⟩

namespace Mirrors

theorem get? (h : t.Mirrors registry compile spec) {id : NodeId} {n : Node} (hn : t.get? id = some n) :
    ∃ d ∈ spec.root.loaded, d.id = id ∧ d.StandsFor registry compile n := by
  obtain ⟨d, hd, rfl⟩ := (h.keys id).mp ⟨n, hn⟩
  obtain ⟨m, hm, stands⟩ := h.nodes d hd
  obtain rfl := Option.some.inj (hm.symm.trans hn)
  exact ⟨d, hd, rfl, stands⟩

theorem get?_of_get? (h : t.Mirrors registry compile spec) (h' : t'.Mirrors registry compile spec) {id : NodeId}
    {n : Node} (hn : t.get? id = some n) : t'.get? id = some n := by
  obtain ⟨d, hd, rfl, stands⟩ := h.get? hn
  obtain ⟨m, hm, stands'⟩ := h'.nodes d hd
  rw [hm, stands.unique stands']

theorem unique (h : t.Mirrors registry compile spec) (h' : t'.Mirrors registry compile spec) : t = t' := by
  have nodes : t.nodes = t'.nodes := Std.ExtTreeMap.ext_getElem? fun {_} =>
    Option.ext fun _ => ⟨h.get?_of_get? h', h'.get?_of_get? h⟩
  obtain ⟨name, desc, root, N⟩ := t
  obtain ⟨name', desc', root', N'⟩ := t'
  obtain rfl := h.name.trans h'.name.symm
  obtain rfl := h.desc.trans h'.desc.symm
  obtain rfl := h.root.trans h'.root.symm
  obtain rfl := nodes
  rfl

theorem parent_of_encloses (h : t.Mirrors registry compile spec) {d e : NodeSpec} (hd : d ∈ spec.root.loaded)
    (hde : d.Encloses e) : t.Parent d.id e.id := by
  obtain ⟨n, hn, stands⟩ := h.nodes d hd
  exact ⟨n, hn, stands.children ▸ List.mem_map_of_mem hde⟩

theorem reached (h : t.Mirrors registry compile spec) {id : NodeId} {n : Node} (hn : t.get? id = some n) :
    Relation.ReflTransGen t.Parent t.root id := by
  obtain ⟨d, hd, rfl, -⟩ := h.get? hn
  rw [h.root]
  have path := NodeSpec.mem_loaded_iff.mp hd
  clear hd hn
  induction path with
  | refl => exact .refl
  | tail path hde ih => exact ih.tail (h.parent_of_encloses (NodeSpec.mem_loaded_iff.mpr path) hde)

end Mirrors

/-- Every node but the root is a child of exactly one node and there only once, the root of none, and every node is
reached from the root along a path without a cycle. -/
structure Rooted (t : Tree) : Prop where
  parent (id : NodeId) (n : Node) : t.get? id = some n → id ≠ t.root → ∃! p, t.Parent p id
  once (id : NodeId) (n : Node) : t.get? id = some n → n.children.Nodup
  root (p : NodeId) : ¬ t.Parent p t.root
  reached (id : NodeId) (n : Node) : t.get? id = some n → Relation.ReflTransGen t.Parent t.root id
  acyclic (id : NodeId) : ¬ Relation.TransGen t.Parent id id

/-- A rank that falls from each node to its children excludes cycles. -/
theorem acyclic_of_ranked {rank : NodeId → Nat}
    (h : ∀ (id c : NodeId) (n : Node), t.get? id = some n → c ∈ n.children → rank c < rank id) (id : NodeId) :
    ¬ Relation.TransGen t.Parent id id := by
  intro cycle
  have falls {a b : NodeId} (path : Relation.TransGen t.Parent a b) : rank b < rank a := by
    induction path with
    | single hab =>
      obtain ⟨n, hn, hc⟩ := hab
      exact h _ _ n hn hc
    | tail _ hbc ih =>
      obtain ⟨n, hn, hc⟩ := hbc
      exact Nat.lt_trans (h _ _ n hn hc) ih
  exact Nat.lt_irrefl _ (falls cycle)

theorem rooted_of_load (h : (load registry compile strict spec).1 = .ok t) : t.Rooted := by
  have loads : registry.Loads t := ⟨compile, strict, spec, _, Prod.ext h rfl⟩
  obtain ⟨sound, -, hroot⟩ := loads.sound
  have mirrors := mirrors_of_load h
  refine ⟨fun id n hn hne => ?_, fun id n => sound.nodup, fun p ⟨n, hn, hc⟩ => hroot hn hc,
    fun id n => mirrors.reached, ?_⟩
  · -- the last step of the path from the root is the parent; soundness has it unique
    rcases Relation.ReflTransGen.cases_tail (mirrors.reached hn) with heq | ⟨p, -, hp⟩
    · exact absurd heq hne
    · refine ⟨p, hp, fun q ⟨m, hm, hmem⟩ => ?_⟩
      obtain ⟨k, hk, hkmem⟩ := hp
      exact sound.parent hm hk hmem hkmem
  · obtain ⟨rank, hrank⟩ := sound.ranked
    exact acyclic_of_ranked hrank

theorem lenient_of_load (h : (load registry compile strict spec).1 = .ok t) :
    (load registry compile false spec).1 = .ok t := by
  obtain ⟨accepted, nodup⟩ := load_succeeds_iff.mp ⟨t, h⟩
  obtain ⟨t', h'⟩ : ∃ t', (load registry compile false spec).1 = .ok t' := by
    refine load_succeeds_iff.mpr ⟨fun d hd => ?_, nodup⟩
    cases strict with
    | true => exact (accepted d hd).lenient
    | false => exact accepted d hd
  rw [h', (mirrors_of_load h).unique (mirrors_of_load h')]

/-- A document loads if and only if every node to load is accepted by its type and no two share an id. The tree then
has exactly these nodes, each with what its document says, under one root; and strictness only decides whether it
loads. -/
theorem load_exact (registry : Registry) (compile : Compiler) (strict : Bool) (spec : TreeSpec) :
    ((∃ t, (load registry compile strict spec).1 = .ok t) ↔
      (∀ d ∈ spec.root.loaded, d.Accepted registry compile strict) ∧ (spec.root.loaded.map (·.id)).Nodup) ∧
    ∀ t, (load registry compile strict spec).1 = .ok t →
      t.Mirrors registry compile spec ∧ t.Rooted ∧ (load registry compile false spec).1 = .ok t :=
  ⟨load_succeeds_iff, fun _ h => ⟨mirrors_of_load h, rooted_of_load h, lenient_of_load h⟩⟩

end Tree

end BehaviorTree
