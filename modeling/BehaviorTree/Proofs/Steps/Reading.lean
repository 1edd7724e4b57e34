import BehaviorTree.Proofs.Tree.Structure

/-!
Trees read recursively, as if no node ever had to wait. The reading of a node says how it ends and which leaves are
completed on the way; it is put together from the readings of the nodes that the node starts.
-/

namespace BehaviorTree
set_option autoImplicit false

/-- How a node ends, and the leaves that are completed until then, in order. -/
structure Reading where
  status : Status
  completed : List NodeId := []
  deriving DecidableEq

namespace Reading

def finished (status : Status) : Reading := { status }

def andThen (r : Reading) (next : Status → Reading) : Reading :=
  ⟨(next r.status).status, r.completed ++ (next r.status).completed⟩

@[simp] theorem finished_status (s : Status) : (finished s).status = s := rfl

@[simp] theorem finished_completed (s : Status) : (finished s).completed = [] := rfl

@[simp] theorem andThen_status (r : Reading) (next : Status → Reading) :
    (r.andThen next).status = (next r.status).status := rfl

@[simp] theorem andThen_completed (r : Reading) (next : Status → Reading) :
    (r.andThen next).completed = r.completed ++ (next r.status).completed := rfl

@[simp] theorem finished_andThen (s : Status) (next : Status → Reading) : (finished s).andThen next = next s := rfl

@[simp] theorem andThen_finished (r : Reading) : r.andThen finished = r := by
  rw [andThen, finished_completed, List.append_nil]
  rfl

theorem andThen_assoc (r : Reading) (f g : Status → Reading) :
    (r.andThen f).andThen g = r.andThen fun s => (f s).andThen g := by
  simp [andThen, List.append_assoc]

/-- One after the other, as long as they end with `next`. -/
def chain (next : Status) : List Reading → Reading
  | [] => finished next
  | r :: rs => r.andThen fun s => if s = next then chain next rs else finished s

/-- A chain goes on if the part before it ended with `next`. -/
def goOn (next : Status) (rs : List Reading) (s : Status) : Reading := if s = next then chain next rs else finished s

@[simp] theorem chain_nil (next : Status) : chain next [] = finished next := rfl

theorem chain_cons (next : Status) (r : Reading) (rs : List Reading) :
    chain next (r :: rs) = r.andThen (goOn next rs) := rfl

theorem goOn_self (next : Status) (rs : List Reading) : goOn next rs next = chain next rs := if_pos rfl

/-- The reading at a position; one that is not there fails. -/
def nth (rs : List Reading) (i : Nat) : Reading := rs.getD i (finished .failure)

def cases : List Reading → Reading
  | condition :: action :: rest => condition.andThen fun s => if s = .success then action else cases rest
  | _ => finished .failure

theorem chain_ne_running {next : Status} (hnext : next ≠ .running) {rs : List Reading}
    (h : ∀ r ∈ rs, r.status ≠ .running) : (chain next rs).status ≠ .running := by
  induction rs with
  | nil => exact hnext
  | cons r rs ih =>
    rw [chain_cons, andThen_status, goOn]
    split
    · exact ih fun r hr => h r (List.mem_cons_of_mem _ hr)
    · exact h r List.mem_cons_self

theorem nth_ne_running {rs : List Reading} (h : ∀ r ∈ rs, r.status ≠ .running) (i : Nat) :
    (nth rs i).status ≠ .running := by
  rw [nth, List.getD_eq_getElem?_getD]
  cases hi : rs[i]? with
  | none => simp
  | some r => exact h r (List.mem_of_getElem? hi)

theorem cases_ne_running {rs : List Reading} (h : ∀ r ∈ rs, r.status ≠ .running) : (cases rs).status ≠ .running := by
  induction rs using cases.induct with
  | case1 condition action rest ih =>
    rw [cases, andThen_status]
    split
    · exact h action (by simp)
    · exact ih fun r hr => h r (by simp [hr])
  | case2 rs hne =>
    rw [cases]
    · simp
    · exact hne

end Reading

/-- The elements that a node goes through: the array in the variable of its first input slot. -/
def Node.items (n : Node) (vars : Variables) : List Value :=
  ((n.input[0]?.bind fun name => vars[name]?).bind Value.asArray?).getD []

/-- How often a node goes through its children. -/
def Node.rounds (n : Node) (vars : Variables) : Nat :=
  match n.behavior with
  | .loop count => count
  | .forEach => (n.items vars).length
  | _ => 0

/-- The reading of a node from the readings `rs` of the nodes that it starts; `own` is that of a leaf. -/
def Behavior.reading (b : Behavior) (rounds : Nat) (own : Reading) (rs : List Reading) : Reading :=
  match b with
  | .sequence => .chain .success rs
  | .selector => .chain .failure rs
  | .switch => .cases rs
  | .ifElse => (Reading.nth rs 0).andThen fun s => if s = .success then .nth rs 1 else .nth rs 2
  | .loop _ | .forEach => .chain .success (List.replicate rounds rs).flatten
  | .invert => (Reading.nth rs 0).andThen fun s => .finished (if s = .success then .failure else .success)
  | .always status => (Reading.nth rs 0).andThen fun _ => .finished status
  | .leaf _ => own
  | _ => .finished .failure

/-- What is left of a node to be read when the child that its payload names has ended. -/
def Behavior.rest (b : Behavior) (rounds : Nat) (rs : List Reading) (p : Payload) (s : Status) : Reading :=
  match b, p with
  | .sequence, .index i => .goOn .success (rs.drop (i + 1)) s
  | .selector, .index i => .goOn .failure (rs.drop (i + 1)) s
  | .switch, .step phase =>
    if phase % 2 = 1 then .finished s else if s = .success then .nth rs (phase + 1) else .cases (rs.drop (phase + 2))
  | .ifElse, .step 0 => if s = .success then .nth rs 1 else .nth rs 2
  | .loop _, .cursor round i | .forEach, .cursor round i =>
    .goOn .success (rs.drop (i + 1) ++ (List.replicate (rounds - (round + 1)) rs).flatten) s
  | .invert, .marker => .finished (if s = .success then .failure else .success)
  | .always status, .marker => .finished status
  | _, _ => .finished s

namespace Tree

theorem Orderly.rank_lt {t : Tree} (ht : t.Orderly) {id c : NodeId} {n : Node} (h : t.get? id = some n)
    (hc : c ∈ t.started n) : ht.exists_rank.choose c < ht.exists_rank.choose id :=
  ht.exists_rank.choose_spec id c (starts_of_mem h hc)

/-- The reading of a node of a tree whose leaves end with `result`, with the arrays that `vars` holds. -/
def reading (t : Tree) (ht : t.Orderly) (result : NodeId → Status) (vars : Variables) (id : NodeId) : Reading :=
  match _h : t.get? id with
  | none => .finished .failure
  | some n =>
    n.behavior.reading (n.rounds vars) ⟨result id, [id]⟩
      ((t.started n).pmap (fun c _ => t.reading ht result vars c) fun _ hc => hc)
termination_by ht.exists_rank.choose id
decreasing_by exact ht.rank_lt _h (by assumption)

variable {t : Tree} {ht : t.Orderly} {result : NodeId → Status} {vars : Variables} {id : NodeId} {n : Node}

theorem reading_eq (h : t.get? id = some n) :
    t.reading ht result vars id = n.behavior.reading (n.rounds vars) ⟨result id, [id]⟩
      ((t.started n).map (t.reading ht result vars)) := by
  rw [reading]
  split
  · rename_i hnone
    rw [h] at hnone
    cases hnone
  · rename_i m hm
    obtain rfl : m = n := Option.some.inj (hm.symm.trans h)
    rw [List.pmap_eq_map]

theorem reading_ne_running
    (hleaf : ∀ {id n react}, t.get? id = some n → n.behavior = .leaf react → result id ≠ .running)
    (id : NodeId) : (t.reading ht result vars id).status ≠ .running := by
  induction id using (measure ht.exists_rank.choose).wf.induction with
  | h id ih =>
    cases hn : t.get? id with
    | none =>
      rw [reading]
      split
      · simp
      · simp_all
    | some n =>
      have hrs : ∀ r ∈ (t.started n).map (t.reading ht result vars), r.status ≠ .running := by
        intro r hr
        obtain ⟨c, hc, rfl⟩ := List.mem_map.mp hr
        exact ih c (ht.rank_lt hn hc)
      have hplain := ht.plain hn
      have hloop : (Reading.chain .success
          (List.replicate (n.rounds vars) ((t.started n).map (t.reading ht result vars))).flatten).status ≠ .running := by
        refine Reading.chain_ne_running (by simp) fun r hr => ?_
        obtain ⟨rs, hmem, hr⟩ := List.mem_flatten.mp hr
        exact hrs r (List.eq_of_mem_replicate hmem ▸ hr)
      rw [reading_eq hn]
      cases hb : n.behavior with
      | sequence => exact Reading.chain_ne_running (by simp) hrs
      | selector => exact Reading.chain_ne_running (by simp) hrs
      | switch => exact Reading.cases_ne_running hrs
      | ifElse =>
        rw [Behavior.reading, Reading.andThen_status]
        split
        · exact Reading.nth_ne_running hrs 1
        · exact Reading.nth_ne_running hrs 2
      | loop count => exact hloop
      | forEach => exact hloop
      | invert =>
        rw [Behavior.reading, Reading.andThen_status]
        split <;> simp
      | always status =>
        rw [hb] at hplain
        exact hplain
      | leaf react => exact hleaf hn hb
      | _ => simp [Behavior.reading]

end Tree

/-- Two nodes differ at most in their names and arguments, and in what they do as leaves. -/
structure Node.Alike (n m : Node) : Prop where
  behavior : n.behavior = m.behavior ∨ (∃ react, n.behavior = .leaf react) ∧ ∃ react, m.behavior = .leaf react
  input : n.input = m.input
  children : n.children = m.children

/-- Two trees have the same shape, while their leaves may differ. -/
structure Tree.Alike (t u : Tree) : Prop where
  root : t.root = u.root
  node (id : NodeId) : Option.Rel Node.Alike (t.get? id) (u.get? id)

namespace Tree

variable {t u : Tree} {ht : t.Orderly} {hu : u.Orderly} {result : NodeId → Status} {vars : Variables} {id : NodeId}
  {n m : Node}

theorem Alike.pair (h : t.Alike u) (id : NodeId) : t.pair id = u.pair id := by
  have hnode := h.node id
  rw [Tree.pair, Tree.pair]
  generalize t.get? id = n at hnode
  generalize u.get? id = m at hnode
  cases hnode with
  | none => rfl
  | some halike => simp only [halike.children]

theorem Alike.started (h : t.Alike u) (hn : n.Alike m) : t.started n = u.started m := by
  rcases hn.behavior with hb | ⟨⟨react, hb⟩, react', hb'⟩
  · rw [Tree.started, Tree.started, ← hb, hn.children, funext h.pair]
  · rw [Tree.started, Tree.started, hb, hb']

/-- The reading does not depend on what the leaves do before they end. -/
theorem Alike.reading (h : t.Alike u) (id : NodeId) : t.reading ht result vars id = u.reading hu result vars id := by
  induction id using (measure ht.exists_rank.choose).wf.induction with
  | h id ih =>
    have hnode := h.node id
    cases hn : t.get? id with
    | none =>
      cases hm : u.get? id with
      | some m => rw [hn, hm] at hnode; cases hnode
      | none =>
        rw [Tree.reading, Tree.reading]
        split
        · split
          · rfl
          · simp_all
        · simp_all
    | some n =>
      cases hm : u.get? id with
      | none => rw [hn, hm] at hnode; cases hnode
      | some m =>
        rw [hn, hm] at hnode
        cases hnode with
        | some halike =>
          rw [reading_eq hn, reading_eq hm, ← h.started halike,
            List.map_congr_left fun c hc => ih c (ht.rank_lt hn hc)]
          rcases halike.behavior with hb | ⟨⟨react, hb⟩, react', hb'⟩
          · rw [Node.rounds, Node.rounds, Node.items, Node.items, hb, halike.input]
          · rw [hb, hb']
            rfl

end Tree

end BehaviorTree
