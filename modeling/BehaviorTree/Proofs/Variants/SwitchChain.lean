import Mathlib.Data.List.Perm.Basic
import BehaviorTree.Proofs.Tree.Documents
import BehaviorTree.Proofs.Variants.Unwinding
import BehaviorTree.Workbench.Nodes

/-!
A switch does what a chain does in its place that decides case by case: as long as both are run in between the same
programs of the host, the same nodes of the conditions and actions are seen to be called and to return the same, with
the same variables and the same result after each run.
-/

namespace BehaviorTree
set_option autoImplicit false

variable {σ : Type}

/-! ### Documents -/

/-- What is authored of a case: its condition and its action, and what else is said of the node of the case in a switch,
and of the one that decides by the same condition in a chain. -/
structure Arm where
  case : NodeSpec
  link : NodeSpec
  test : NodeSpec
  action : NodeSpec
  enabled : test.disabled = false ∧ action.disabled = false

namespace Arm

def caseSpec (a : Arm) : NodeSpec := { a.case with name := "Case", disabled := false, children := [a.test, a.action] }

def linkSpec (a : Arm) (rest : NodeSpec) : NodeSpec :=
  { a.link with name := "IfElse", disabled := false, children := [a.test, a.action, rest] }

/-- The documents to load of the condition and the action. -/
def loaded (a : Arm) : List NodeSpec := a.test.loaded ++ a.action.loaded

/-- The ids of the nodes in conditions and actions. -/
def ids (arms : List Arm) : List NodeId := (arms.flatMap loaded).map (·.id)

end Arm

namespace NodeSpec

def switch (head : NodeSpec) (arms : List Arm) : NodeSpec :=
  { head with name := "Switch", children := arms.map Arm.caseSpec }

/-- Conditions nested in one another, down to a last node. -/
def chain (last : NodeSpec) : List Arm → NodeSpec
  | [] => { last with disabled := false }
  | a :: arms => a.linkSpec (chain last arms)

def node (d : NodeSpec) (type : NodeType) (behavior : Behavior) : Node :=
  { id := d.id, name := d.name, args := d.args, input := d.input, output := d.output
    children := d.enabled.map (·.id), kind := type.kind, debug := d.debug, behavior }

end NodeSpec

/-- A type of leaves that fail at once, and do nothing else. -/
def NodeType.Fails (type : NodeType) : Prop :=
  ∀ compile spec b, type.configure compile spec = .ok b → b = .leaf fun _ => { ending := .finish .failure }

namespace NodeSpec

variable {head last : NodeSpec} {a : Arm} {arms before rest : List Arm}

theorem enabled_switch (head : NodeSpec) (arms : List Arm) : (switch head arms).enabled = arms.map Arm.caseSpec := by
  refine List.filter_eq_self.mpr fun d hd => ?_
  obtain ⟨a, -, rfl⟩ := List.mem_map.mp hd
  rfl

theorem enabled_case (a : Arm) : a.caseSpec.enabled = [a.test, a.action] := by
  change List.filter _ [a.test, a.action] = _
  simp [a.enabled.1, a.enabled.2]

theorem chain_enabled (last : NodeSpec) (arms : List Arm) : (chain last arms).disabled = false := by
  cases arms <;> rfl

theorem enabled_link (last : NodeSpec) (a : Arm) (arms : List Arm) :
    (chain last (a :: arms)).enabled = [a.test, a.action, chain last arms] := by
  change List.filter _ [a.test, a.action, chain last arms] = _
  simp [a.enabled.1, a.enabled.2, chain_enabled]

theorem loaded_switch (head : NodeSpec) (arms : List Arm) :
    (switch head arms).loaded = switch head arms :: arms.flatMap fun a => a.caseSpec :: a.loaded := by
  have hcase : ∀ a : Arm, a.caseSpec.loaded = a.caseSpec :: a.loaded := fun a => by
    rw [loaded_eq, enabled_case]
    simp [Arm.loaded]
  rw [loaded_eq, enabled_switch, List.flatMap_map]
  simp only [hcase]

theorem loaded_link (last : NodeSpec) (a : Arm) (arms : List Arm) :
    (chain last (a :: arms)).loaded = chain last (a :: arms) :: (a.loaded ++ (chain last arms).loaded) := by
  rw [loaded_eq, enabled_link]
  simp [Arm.loaded]

theorem mem_chain (last : NodeSpec) (before rest : List Arm) : chain last rest ∈ (chain last (before ++ rest)).loaded := by
  induction before with
  | nil => exact mem_loaded_self _
  | cons a before ih =>
    rw [List.cons_append, loaded_link]
    exact List.mem_cons_of_mem _ (List.mem_append_right _ ih)

theorem mem_chain_arm (ha : a ∈ arms) {d : NodeSpec} (hd : d ∈ a.loaded) : d ∈ (chain last arms).loaded := by
  induction arms with
  | nil => cases ha
  | cons b arms ih =>
    rw [loaded_link]
    rcases List.mem_cons.mp ha with rfl | ha
    · exact List.mem_cons_of_mem _ (List.mem_append_left _ hd)
    · exact List.mem_cons_of_mem _ (List.mem_append_right _ (ih ha))

theorem mem_switch_case (ha : a ∈ arms) : a.caseSpec ∈ (switch head arms).loaded := by
  rw [loaded_switch]
  exact List.mem_cons_of_mem _ (List.mem_flatMap.mpr ⟨a, ha, List.mem_cons_self⟩)

theorem mem_switch_arm (ha : a ∈ arms) {d : NodeSpec} (hd : d ∈ a.loaded) : d ∈ (switch head arms).loaded := by
  rw [loaded_switch]
  exact List.mem_cons_of_mem _ (List.mem_flatMap.mpr ⟨a, ha, List.mem_cons_of_mem _ hd⟩)

/-- The ids of a chain are those of its links, of its conditions and actions, and of what is last. -/
theorem perm_chain (last : NodeSpec) (arms : List Arm) : ((chain last arms).loaded.map (·.id)).Perm
    (arms.map (·.link.id) ++ (Arm.ids arms ++ (chain last []).loaded.map (·.id))) := by
  induction arms with
  | nil => rfl
  | cons a arms ih =>
    rw [loaded_link]
    simp only [Arm.ids, List.map_cons, List.map_append, List.flatMap_cons, List.cons_append, List.append_assoc]
    exact List.Perm.cons _ ((List.Perm.append_left _ ih).trans (List.perm_append_comm_assoc _ _ _))

end NodeSpec

/-! ### Nodes -/

namespace Arm

def rung (a : Arm) (rest : NodeSpec) : Rung where
  case := a.caseSpec.node BuiltIn.case .case
  link := (a.linkSpec rest).node BuiltIn.ifElse .ifElse
  test := a.test.id
  action := a.action.id

def rungs (last : NodeSpec) : List Arm → List Rung
  | [] => []
  | a :: arms => a.rung (.chain last arms) :: rungs last arms

def ladder (owner : Tag) (t t' : Tree) (head last : NodeSpec) (type : NodeType) (arms : List Arm) (early late : Prop) :
    Ladder where
  owner
  tree := t
  tree' := t'
  switch := (head.switch arms).node BuiltIn.switch .switch
  rungs := rungs last arms
  last := (NodeSpec.chain last []).node type (.leaf fun _ => { ending := .finish .failure })
  shared := fun id => decide (id ∈ ids arms)
  early
  late

variable {last : NodeSpec} {arms : List Arm} {before rest : List Rung} {r : Rung}

theorem rungs_links (last : NodeSpec) (arms : List Arm) :
    (rungs last arms).map (·.link.id) = arms.map (·.link.id) := by
  induction arms with
  | nil => rfl
  | cons a arms ih =>
    rw [rungs, List.map_cons, List.map_cons, ih]
    rfl

theorem rungs_cases (last : NodeSpec) (arms : List Arm) :
    (rungs last arms).map (·.case.id) = arms.map (·.caseSpec.id) := by
  induction arms with
  | nil => rfl
  | cons a arms ih =>
    rw [rungs, List.map_cons, List.map_cons, ih]
    rfl

theorem rungs_split (h : rungs last arms = before ++ r :: rest) :
    ∃ front a back, arms = front ++ a :: back ∧ r = a.rung (.chain last back) ∧ rest = rungs last back := by
  induction before generalizing arms with
  | nil =>
    cases arms with
    | nil => cases h
    | cons a arms =>
      obtain ⟨rfl, rfl⟩ := List.cons.inj h
      exact ⟨[], a, arms, rfl, rfl, rfl⟩
  | cons b before ih =>
    cases arms with
    | nil => cases h
    | cons a arms =>
      obtain ⟨front, c, back, rfl, hr, hrest⟩ := ih (List.cons.inj h).2
      exact ⟨a :: front, c, back, rfl, hr, hrest⟩

theorem mem_rungs (h : r ∈ rungs last arms) :
    ∃ front a back, arms = front ++ a :: back ∧ r = a.rung (.chain last back) := by
  obtain ⟨before, rest, hr⟩ := List.append_of_mem h
  obtain ⟨front, a, back, harms, hrung, -⟩ := rungs_split hr
  exact ⟨front, a, back, harms, hrung⟩

theorem mem_ids {id : NodeId} : id ∈ ids arms ↔ ∃ a ∈ arms, ∃ d ∈ a.loaded, d.id = id := by
  simp only [ids, List.mem_map, List.mem_flatMap]
  constructor
  · rintro ⟨d, ⟨a, ha, hd⟩, rfl⟩
    exact ⟨a, ha, d, hd, rfl⟩
  · rintro ⟨a, ha, d, hd, rfl⟩
    exact ⟨d, ⟨a, ha, hd⟩, rfl⟩

end Arm

theorem Registry.Plain.builtIn {r : Registry} (hr : r.Plain) {name : String} {ty ty' : NodeType}
    (hb : Registry.builtIn.get? name = some ty) (h : r.get? name = some ty') : ty' = ty := by
  rcases hr name ty' h with hb' | ⟨hnone, -⟩
  · exact Option.some.inj (hb'.symm.trans hb)
  · rw [hb] at hnone
    cases hnone

theorem Tree.Mirrors.node {registry : Registry} {compile : Compiler} {spec : TreeSpec} {t : Tree}
    (h : t.Mirrors registry compile spec) {d : NodeSpec} (hd : d ∈ spec.root.loaded) :
    ∃ type b, registry.get? d.name = some type ∧ type.configure compile d = .ok b ∧ t.get? d.id = some (d.node type b) := by
  obtain ⟨n, hn, type, b, htype, hb, rfl⟩ := h.nodes d hd
  exact ⟨type, b, htype, hb, hn⟩

section Built

variable {registry : Registry} {compile : Compiler} {strict strict' : Bool} {name name' desc desc' : String} {t t' : Tree}
  {head last : NodeSpec} {type : NodeType} {a : Arm} {arms front back : List Arm}

namespace Arm

section Nodes

variable (hr : registry.Plain) (hm : t.Mirrors registry compile ⟨name, desc, head.switch arms⟩)
  (hm' : t'.Mirrors registry compile ⟨name', desc', .chain last arms⟩)

include hr hm in
theorem switch_node : t.get? head.id = some ((head.switch arms).node BuiltIn.switch .switch) := by
  obtain ⟨type, b, htype, hb, hn⟩ := hm.node (NodeSpec.mem_loaded_self _)
  obtain rfl := hr.builtIn (show Registry.builtIn.get? "Switch" = some BuiltIn.switch from rfl) htype
  rw [BuiltIn.switch] at hb
  dsimp only at hb
  split at hb
  · cases hb
  · cases hb
    exact hn

include hr hm in
theorem case_node (ha : a ∈ arms) : t.get? a.case.id = some (a.caseSpec.node BuiltIn.case .case) := by
  obtain ⟨type, b, htype, hb, hn⟩ := hm.node (NodeSpec.mem_switch_case ha)
  obtain rfl := hr.builtIn Registry.builtIn_case htype
  cases hb
  exact hn

include hr hm' in
theorem link_node (harms : arms = front ++ a :: back) :
    t'.get? a.link.id = some ((a.linkSpec (.chain last back)).node BuiltIn.ifElse .ifElse) := by
  subst harms
  obtain ⟨type, b, htype, hb, hn⟩ := hm'.node (NodeSpec.mem_chain last front (a :: back))
  obtain rfl := hr.builtIn (show Registry.builtIn.get? "IfElse" = some BuiltIn.ifElse from rfl) htype
  cases hb
  exact hn

include hm' in
theorem last_node (htype : registry.get? last.name = some type) (hfails : type.Fails) :
    t'.get? last.id = some ((NodeSpec.chain last []).node type (.leaf fun _ => { ending := .finish .failure })) := by
  have hmem : NodeSpec.chain last [] ∈ (NodeSpec.chain last arms).loaded := by
    rw [← List.append_nil arms]
    exact NodeSpec.mem_chain last arms []
  obtain ⟨type', b, htype', hb, hn⟩ := hm'.node hmem
  obtain rfl := Option.some.inj (htype.symm.trans htype')
  obtain rfl := hfails _ _ _ hb
  exact hn

include hm hm' in
theorem node_both (ha : a ∈ arms) {d : NodeSpec} (hd : d ∈ a.loaded) :
    ∃ n, t.get? d.id = some n ∧ t'.get? d.id = some n ∧ d.StandsFor registry compile n := by
  obtain ⟨n, hn, hstands⟩ := hm.nodes d (NodeSpec.mem_switch_arm ha hd)
  obtain ⟨n', hn', hstands'⟩ := hm'.nodes d (NodeSpec.mem_chain_arm ha hd)
  obtain rfl := hstands.unique hstands'
  exact ⟨n, hn, hn', hstands⟩

theorem loaded_enabled {d e : NodeSpec} (hd : d ∈ a.loaded) (he : e ∈ d.enabled) : e ∈ a.loaded := by
  have hclosed : ∀ root : NodeSpec, d ∈ root.loaded → e ∈ root.loaded := fun root h =>
    NodeSpec.mem_loaded_iff.mpr ((NodeSpec.mem_loaded_iff.mp h).tail he)
  exact List.mem_append.mpr ((List.mem_append.mp hd).imp (hclosed _) (hclosed _))

end Nodes

theorem switch_apart (hnodup : ((head.switch arms).loaded.map (·.id)).Nodup) : head.id ∉ ids arms := by
  rw [NodeSpec.loaded_switch, List.map_cons] at hnodup
  intro hid
  obtain ⟨a, ha, d, hd, hsame⟩ := mem_ids.mp hid
  refine (List.nodup_cons.mp hnodup).1 (List.mem_map.mpr ⟨d, ?_, hsame⟩)
  exact List.mem_flatMap.mpr ⟨a, ha, List.mem_cons_of_mem _ hd⟩

theorem links_apart (hnodup : ((NodeSpec.chain last arms).loaded.map (·.id)).Nodup) :
    (arms.map (·.link.id)).Nodup ∧ (∀ a ∈ arms, a.link.id ∉ ids arms ∧ a.link.id ≠ last.id) ∧ last.id ∉ ids arms := by
  have hlast : last.id ∈ (NodeSpec.chain last []).loaded.map (·.id) :=
    List.mem_map.mpr ⟨_, NodeSpec.mem_loaded_self _, rfl⟩
  obtain ⟨hlinks, hrest, hdisjoint⟩ := List.nodup_append'.mp ((NodeSpec.perm_chain last arms).nodup_iff.mp hnodup)
  obtain ⟨-, -, hapart⟩ := List.nodup_append'.mp hrest
  refine ⟨hlinks, fun a ha => ⟨fun hid => ?_, fun heq => ?_⟩, fun hid => hapart hid hlast⟩
  · exact hdisjoint (List.mem_map.mpr ⟨a, ha, rfl⟩) (List.mem_append_left _ hid)
  · exact hdisjoint (List.mem_map.mpr ⟨a, ha, rfl⟩) (List.mem_append_right _ (heq ▸ hlast))

/-- The documents of a switch and of a chain over the same conditions and actions give trees as described. -/
theorem built (hr : registry.Plain) (hload : (Tree.load registry compile strict ⟨name, desc, head.switch arms⟩).1 = .ok t)
    (hload' : (Tree.load registry compile strict' ⟨name', desc', .chain last arms⟩).1 = .ok t')
    (htype : registry.get? last.name = some type) (hfails : type.Fails) (owner : Tag) (early late : Prop) :
    (ladder owner t t' head last type arms early late).Built := by
  have hm := Tree.mirrors_of_load hload
  have hm' := Tree.mirrors_of_load hload'
  obtain ⟨hlinks, hlink, hlast⟩ := links_apart (Tree.load_succeeds_iff.mp ⟨t', hload'⟩).2
  have hshared : ∀ {id : NodeId}, (ladder owner t t' head last type arms early late).shared id = true ↔ id ∈ ids arms :=
    decide_eq_true_iff
  have hend := last_node hm' htype hfails
  have hentry : ∀ back : List Arm, (ladder owner t t' head last type arms early late).entry (rungs last back) =
      (NodeSpec.chain last back).id := fun back => by cases back <;> rfl
  have hchildren : (head.switch arms).enabled.map (·.id) = arms.map (·.caseSpec.id) := by
    rw [NodeSpec.enabled_switch, List.map_map]
    rfl
  refine
    { orderly := Registry.Loads.orderly hr ⟨compile, strict, _, _, Prod.ext hload rfl⟩
      switch := switch_node hr hm
      behavior := rfl
      children := hchildren.trans (rungs_cases last arms).symm
      root := hm.root
      root' := hm'.root.trans (hentry arms).symm
      case := ?_
      link := ?_
      last := hend
      fails := ⟨_, rfl, fun _ => rfl⟩
      branch := ?_
      there := ?_
      child := ?_
      switch_apart := ?_
      last_apart := ?_
      link_apart := ?_
      distinct := ?_ }
  · intro r h
    obtain ⟨front, a, back, rfl, rfl⟩ := mem_rungs h
    refine ⟨case_node hr hm (List.mem_append_right _ List.mem_cons_self), ?_⟩
    exact congrArg (List.map (·.id)) (NodeSpec.enabled_case a)
  · intro before rest r h
    obtain ⟨front, a, back, harms, rfl, rfl⟩ := rungs_split h
    refine ⟨link_node hr hm' harms, rfl, ?_⟩
    rw [hentry]
    exact congrArg (List.map (·.id)) (NodeSpec.enabled_link last a back)
  · intro r h
    obtain ⟨front, a, back, harms, rfl⟩ := mem_rungs h
    have ha : a ∈ arms := harms ▸ List.mem_append_right _ List.mem_cons_self
    exact ⟨hshared.mpr (mem_ids.mpr ⟨a, ha, a.test, List.mem_append_left _ (NodeSpec.mem_loaded_self _), rfl⟩),
      hshared.mpr (mem_ids.mpr ⟨a, ha, a.action, List.mem_append_right _ (NodeSpec.mem_loaded_self _), rfl⟩)⟩
  · intro id hid
    obtain ⟨a, ha, d, hd, rfl⟩ := mem_ids.mp (hshared.mp hid)
    obtain ⟨n, hn, hn', -⟩ := node_both hm hm' ha hd
    exact ⟨n, hn, hn'⟩
  · intro id c n hid hn hc
    obtain ⟨a, ha, d, hd, rfl⟩ := mem_ids.mp (hshared.mp hid)
    obtain ⟨n', hn', -, hstands⟩ := node_both hm hm' ha hd
    obtain rfl := Option.some.inj (hn'.symm.trans hn)
    rw [hstands.children] at hc
    obtain ⟨e, he, rfl⟩ := List.mem_map.mp hc
    exact hshared.mpr (mem_ids.mpr ⟨a, ha, e, loaded_enabled hd he, rfl⟩)
  · exact fun h => switch_apart (Tree.load_succeeds_iff.mp ⟨t, hload⟩).2 (hshared.mp h)
  · exact fun h => hlast (hshared.mp h)
  · intro r h
    obtain ⟨front, a, back, harms, rfl⟩ := mem_rungs h
    obtain ⟨hid, hne⟩ := hlink a (harms ▸ List.mem_append_right _ List.mem_cons_self)
    exact ⟨fun hs => hid (hshared.mp hs), hne⟩
  · exact (rungs_links last arms).symm ▸ hlinks

end Arm

end Built

/-! ### Runs -/

/-- Whether an entry of the journal is about one of some nodes of an instance, or not about its nodes at all. What is
reported for reading is not looked at. -/
def Entry.concerns (owner : Tag) (ids : List NodeId) : Entry → Bool
  | .report _ => false
  | .note _ => true
  | .activity tag a => decide (tag ≠ owner) || a.node?.all fun id => decide (id ∈ ids)

/-- What a run of an instance has come to: its status unless it has failed, the variables that it has left, and what has
been seen so far. -/
structure Round where
  status : Option Status
  vars : Variables
  seen : List Entry

namespace Engine

/-- Runs an instance again and again, each time after a program of the host. -/
def rounds (e : Engine σ) (owner : Tag) (ids : List NodeId) : List (Program σ) → WorldM σ (List Round)
  | [] => return []
  | program :: programs => do
    e.perform program
    let result ← e.runTree owner
    let w ← get
    let later ← e.rounds owner ids programs
    return ⟨result.toOption, (w.instanceOf owner).env.vars, w.journal.toList.filter (Entry.concerns owner ids)⟩ :: later

end Engine

/-- The runs of an instance, with calls nested up to a depth. -/
def World.rounds (depth : Nat) (owner : Tag) (ids : List NodeId) (programs : List (Program σ)) (w : World σ) :
    Except Halt (List Round) := (((Engine.ofDepth depth).rounds owner ids programs).run w).map (·.1)

namespace Variants

variable {V : Variants} {e e' : Engine σ} {ids : List NodeId} {programs : List (Program σ)}

/-- Where the instance is created with one of the two trees, nothing else tells the worlds apart. -/
theorem Fits.create (hV : V.Fits) {w : World σ} (hs : w.subscriptions = ∅) (hd : w.delays = ∅) (ho : V.owner = w.newTag.1)
    (vars : Variables) : V.Worlds V.Rests (w.create V.tree vars).2 (w.create V.tree' vars).2 := by
  have hget : ∀ (tree : Tree) (p : Tag), (w.create tree vars).2.instances[p]? =
      if V.owner = p then some { tree, env := { vars } } else w.instances[p]? := by
    intro tree p
    change (w.instances.insert w.newTag.1 { tree, env := { vars } })[p]? = _
    rw [Std.ExtTreeMap.getElem?_insert, ← ho]
    simp only [Std.LawfulEqCmp.compare_eq_iff_eq]
  refine ⟨rfl, fun hp => ?_, ⟨_, _, by rw [hget, if_pos rfl], by rw [hget, if_pos rfl], ?_⟩, ?_, rfl, fun h => ?_, fun h => ?_⟩
  · rw [hget, hget, if_neg hp.symm, if_neg hp.symm]
  · exact ⟨rfl, ⟨∅, ∅, rfl⟩, List.forall_mem_nil _, hV.rests_bare rfl rfl rfl⟩
  · rw [ho]
    exact Nat.lt_succ_self _
  · change w.subscriptions.entries[_]? = _ at h
    rw [hs] at h
    exact absurd (h.symm.trans Std.ExtTreeMap.getElem?_empty) (Option.some_ne_none _)
  · change w.delays.pending[_]? = _ at h
    rw [hd] at h
    exact absurd (h.symm.trans Std.ExtTreeMap.getElem?_empty) (Option.some_ne_none _)

/-- Unless the second computation may halt first, it has the result of the first one. -/
theorem Along.of_here {α : Type} {r r' : Except Halt (α × World σ)} (h : V.Along (fun a b _ _ => a = b) r r') (hl : ¬ V.late)
    {a : α} (ha : r.map (·.1) = .ok a) : r'.map (·.1) = .ok a := by
  cases r with
  | error _ => cases ha
  | ok p =>
    cases r' with
    | error _ => exact absurd h hl
    | ok p' => exact (congrArg Except.ok (Eq.symm h)).trans ha

theorem Along.of_there {α : Type} {r r' : Except Halt (α × World σ)} (h : V.Along (fun a b _ _ => a = b) r r')
    (he : ¬ V.early) {a : α} (ha : r'.map (·.1) = .ok a) : r.map (·.1) = .ok a := by
  cases r' with
  | error _ => cases ha
  | ok p' =>
    cases r with
    | error _ => exact absurd h he
    | ok p => exact (congrArg Except.ok h).trans ha

theorem Engines.rounds (he : V.Engines e e') (hids : ∀ id, V.shared id = decide (id ∈ ids))
    (hp : ∀ p ∈ programs, p.Blind V.owner) : V.InStep (e.rounds V.owner ids programs) (e'.rounds V.owner ids programs) := by
  have hshows : V.shows = Entry.concerns V.owner ids := by
    funext entry
    cases entry with
    | report r => rfl
    | note v => rfl
    | activity tag a => rw [shows, Entry.concerns, funext hids]
  induction programs with
  | nil => exact .pure _
  | cons program programs ih =>
    obtain ⟨hprogram, hrest⟩ := List.forall_mem_cons.mp hp
    refine .bind (he.perform hprogram) fun _ => Agrees.bind (he.runTree V.owner) fun r r' hr => .get fun w w' hw => ?_
    have hstatus : r'.toOption = r.toOption := by
      cases hr <;> rfl
    have hvars : (w'.instanceOf V.owner).env.vars = (w.instanceOf V.owner).env.vars := by
      obtain ⟨stack, temps, hsame⟩ := hw.instanceOf.same
      rw [hsame]
    rw [← hshows, hstatus, hvars, hw.shown, hshows]
    exact InStep.bind (ih hrest) fun later => .pure _

end Variants

section Runs

variable {w : World σ} {strict strict' : Bool} {name name' desc desc' : String} {t t' : Tree} {head last : NodeSpec}
  {arms : List Arm}

/-- A switch over cases and a chain that decides case by case, down to a leaf that fails, do the same. Whatever the host
does in between that does not look into the tree, the runs of the two have the same results and leave the same
variables, and the nodes of the conditions and actions are seen to do the same, one after the other. For a call of the
switch there may be one of every link of the chain and of the leaf. -/
theorem World.switch_chain (hr : w.registry.Plain) (hs : w.subscriptions = ∅) (hd : w.delays = ∅)
    (hload : (w.load ⟨name, desc, .switch head arms⟩ strict).1 = .ok t)
    (hload' : (w.load ⟨name', desc', .chain last arms⟩ strict').1 = .ok t')
    (hlast : ∀ type, w.registry.get? last.name = some type → type.Fails) (vars : Variables) {programs : List (Program σ)}
    (hp : ∀ p ∈ programs, p.Blind w.newTag.1) (rounds : List Round) (depth : Nat) :
    ((w.create t vars).2.rounds depth w.newTag.1 (Arm.ids arms) programs = .ok rounds →
      ∀ depth' ≥ (arms.length + 1) * depth,
        (w.create t' vars).2.rounds depth' w.newTag.1 (Arm.ids arms) programs = .ok rounds) ∧
    ((w.create t' vars).2.rounds depth w.newTag.1 (Arm.ids arms) programs = .ok rounds →
      ∀ depth' ≥ depth, (w.create t vars).2.rounds depth' w.newTag.1 (Arm.ids arms) programs = .ok rounds) := by
  have hm' := Tree.mirrors_of_load hload'
  have hmem : NodeSpec.chain last [] ∈ (NodeSpec.chain last arms).loaded := by
    have hsuffix := NodeSpec.mem_chain last arms []
    rwa [List.append_nil] at hsuffix
  obtain ⟨type, -, htype, -⟩ := hm'.node hmem
  have hbuilt := fun early late => Arm.built hr hload hload' htype (hlast type htype) w.newTag.1 early late
  have hfactor : (Arm.rungs last arms).length = arms.length := by
    simpa only [List.length_map] using congrArg List.length (Arm.rungs_links last arms)
  have halong : ∀ (early late : Prop) (d d' : Nat), early ∨ d' ≤ d → late ∨ (arms.length + 1) * d ≤ d' →
      (Arm.ladder w.newTag.1 t t' head last type arms early late).both.Along (fun a b _ _ => a = b)
        (((Engine.ofDepth d).rounds w.newTag.1 (Arm.ids arms) programs).run (w.create t vars).2)
        (((Engine.ofDepth d').rounds w.newTag.1 (Arm.ids arms) programs).run (w.create t' vars).2) := by
    intro early late d d' hearly hlate
    have hL := hbuilt early late
    have hcalls : (Arm.ladder w.newTag.1 t t' head last type arms early late).both.factor = arms.length + 1 :=
      congrArg (· + 1) hfactor
    have hengines := hL.engines (σ := σ) ⟨hearly, by rw [hcalls]; exact hlate⟩
    exact (hengines.rounds (fun _ => rfl) hp _ _ (hL.fits.create hs hd rfl vars)).mono fun _ _ _ _ hu => hu.1
  refine ⟨fun h depth' hdepth => ?_, fun h depth' hdepth => ?_⟩
  · exact (halong True False depth depth' (.inl trivial) (.inr hdepth)).of_here id h
  · exact (halong False True depth' depth (.inr hdepth) (.inl trivial)).of_there id h

end Runs

namespace Menu

open Workbench

def never : NodeType := leafType { name := "Never", category := .condition } fun _ _ => { ending := .finish .failure }

theorem never_fails : never.Fails := fun _ _ _ hb => (Except.ok.inj hb).symm

def world : World Unit := { registry := (Registry.builtIn.register step).register never, host := () }

theorem plain : world.registry.Plain :=
  (Registry.plain_builtIn.register rfl fun _ _ _ hb => ⟨_, (Except.ok.inj hb).symm⟩).register rfl
    fun _ _ _ hb => ⟨_, (Except.ok.inj hb).symm⟩

def last : NodeSpec := { id := ⟨9⟩, name := "Never" }

def head : NodeSpec := { id := ⟨0⟩, name := "Switch" }

/-- The soup is off, which takes a tick to find out; the bread is there, and takes a tick to be eaten. -/
def arms : List Arm :=
  [{ case := { id := ⟨1⟩, name := "Case" }, link := { id := ⟨1⟩, name := "IfElse" }
     test :=
      { id := ⟨2⟩, name := "Step"
        args := [("label", .string "soup?"), ("ticks", .int 1), ("result", .string "failure")] }
     action := { id := ⟨3⟩, name := "Step", args := [("label", .string "soup")] }, enabled := ⟨rfl, rfl⟩ },
    { case := { id := ⟨4⟩, name := "Case" }, link := { id := ⟨4⟩, name := "IfElse" }
      test := { id := ⟨5⟩, name := "Step", args := [("label", .string "bread?")] }
      action := { id := ⟨6⟩, name := "Step", args := [("label", .string "bread"), ("ticks", .int 1)] }
      enabled := ⟨rfl, rfl⟩ }]

def switchTree : Tree := (world.load ⟨"menu", "", .switch head arms⟩ true).1.toOption.getD default

def chainTree : Tree := (world.load ⟨"menu", "", .chain last arms⟩ true).1.toOption.getD default

/-- The labels that runs have traced, and the nodes that have been seen to be called. -/
def shown (r : Round) : Option Status × List (Option String) × List UInt32 :=
  (r.status, (((r.vars["trace"]?).bind Value.asArray?).getD []).map Value.asString?, r.seen.filterMap fun entry =>
    match entry with
    | .activity _ (.called id _) => some id.val
    | _ => none)

end Menu

open Menu in
/-- The chain of the menu does what the switch does, suspended in one condition and one action in between. -/
theorem switch_chain_menu : ∃ rounds,
    (world.create switchTree ∅).2.rounds 8 world.newTag.1 (Arm.ids arms) [.done, .update 1 .done, .done] = .ok rounds ∧
      (world.create chainTree ∅).2.rounds 24 world.newTag.1 (Arm.ids arms) [.done, .update 1 .done, .done] = .ok rounds ∧
      rounds.map shown =
        [(some .running, [some "soup?"], [2]),
          (some .running, [some "soup?", some "soup?", some "bread?", some "bread"], [2, 2, 5, 6]),
          (some .success, [some "soup?", some "soup?", some "bread?", some "bread", some "bread"], [2, 2, 5, 6, 6])] := by
  obtain ⟨rounds, hok, hshown⟩ := exists_ok_of_any
    (show ((world.create switchTree ∅).2.rounds 8 world.newTag.1 (Arm.ids arms)
        [.done, .update 1 .done, .done]).toOption.any (fun rounds => decide (rounds.map shown =
          [(some .running, [some "soup?"], [2]),
            (some .running, [some "soup?", some "soup?", some "bread?", some "bread"], [2, 2, 5, 6]),
            (some .success, [some "soup?", some "soup?", some "bread?", some "bread", some "bread"], [2, 2, 5, 6, 6])])) =
        true by decide +kernel)
  have hblind : ∀ p ∈ ([.done, .update 1 .done, .done] : List (Program Unit)), p.Blind world.newTag.1 := by
    simp [Program.Blind]
  have hload : (world.load ⟨"menu", "", .switch head arms⟩ true).1 = .ok switchTree := rfl
  have hload' : (world.load ⟨"menu", "", .chain last arms⟩ true).1 = .ok chainTree := rfl
  refine ⟨rounds, hok, ?_, of_decide_eq_true hshown⟩
  exact (World.switch_chain plain rfl rfl hload hload' (fun _ htype => Option.some.inj htype ▸ never_fails) ∅ hblind
    rounds 8).1 hok 24 (Nat.le_refl 24)

end BehaviorTree
