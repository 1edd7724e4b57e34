import Mathlib.Logic.Function.Basic
import BehaviorTree.Engine.Knot
import BehaviorTree.Proofs.Stack.Clearing
import BehaviorTree.Proofs.World.Watch
import BehaviorTree.Workbench.Nodes

/-!
Two runs of one part of a tree: by itself, and inside a larger tree, on other frames and beside other nodes. The two
are alike in what the part has to do with, its own frames and payloads and the variables that its nodes read; what
else there is in the larger tree stays as it was. The rules follow the way in which computations are put together.
-/

namespace BehaviorTree
set_option autoImplicit false

variable {σ α β : Type}

def Expression.Reads (e : Expression) (name : String) : Prop :=
  ∃ (vars : Lookup) (v : Option Value), e.evaluate (Function.update vars name v) ≠ e.evaluate vars

/-- Whatever an expression is, it has the same value for variables that agree on those that it depends on. -/
theorem Expression.evaluate_congr {e : Expression} {vars vars' : Variables}
    (h : ∀ name : String, e.Reads name → vars'[name]? = vars[name]?) :
    e.evaluate (fun name => vars'[name]?) = e.evaluate fun name => vars[name]? := by
  -- the two differ at finitely many names, which are changed one after the other
  have hstep : ∀ (names : List String) (f g : Lookup), (∀ name, name ∉ names → f name = g name) →
      (∀ name, e.Reads name → f name = g name) → e.evaluate f = e.evaluate g := by
    intro names
    induction names with
    | nil =>
      intro f g hfg _
      rw [funext fun name => hfg name (List.not_mem_nil)]
    | cons name names ih =>
      intro f g hfg hreads
      have hupdate : e.evaluate (Function.update f name (g name)) = e.evaluate f := by
        by_cases hr : e.Reads name
        · rw [← hreads name hr, Function.update_eq_self]
        · exact Classical.byContradiction fun hne => hr ⟨f, g name, hne⟩
      rw [← hupdate]
      refine ih _ g (fun key hkey => ?_) fun key hr => ?_
      · by_cases he : key = name
        · rw [he, Function.update_self]
        · rw [Function.update_of_ne he]
          exact hfg key (by simp [he, hkey])
      · by_cases he : key = name
        · rw [he, Function.update_self]
        · rw [Function.update_of_ne he]
          exact hreads key hr
  refine hstep (vars.keys ++ vars'.keys) _ _ (fun name hname => ?_) h
  have hnone : ∀ vs : Variables, name ∉ vs.keys → vs[name]? = none := fun vs hvs => by
    rw [Std.ExtTreeMap.mem_keys] at hvs
    exact Std.ExtTreeMap.getElem?_eq_none hvs
  rw [List.mem_append, not_or] at hname
  rw [hnone vars hname.1, hnone vars' hname.2]

namespace Node

def Reads (n : Node) (name : String) : Prop :=
  name ∈ n.input ∨ ∃ e : Expression, (n.behavior = .check e ∨ n.behavior = .calculate e) ∧ e.Reads name

def Sets (n : Node) (name : String) : Prop := name ≠ "" ∧ name ∈ n.output

end Node

/-- A behavior that reaches for nothing beyond its tick, of a built-in type or of a step that leaves its label in the
variable `trace`. -/
def Behavior.Local : Behavior → Prop
  | listen _ | delay .. | dispatch _ | routine _ => False
  | leaf react => ∃ label ticks result, react = Workbench.stepLeaf label ticks result
  | _ => True

def Workbench.extendBy (trace : Option Value) (labels : List Value) : Option Value :=
  labels.foldl (fun trace label => some (extendTrace trace label)) trace

def Activity.call? : Activity → Option NodeId
  | called id _ => some id
  | _ => none

def World.calls (w : World σ) (owner : Tag) : List NodeId := (w.acts owner).filterMap Activity.call?

abbrev Slots := List (Option Value) × List (Option Value)

def Env.slots (env : Env) : Slots := (env.input, env.output)

/-- Two runs of one part of a tree, from the states in which they began. -/
structure Twin (σ : Type) where
  /-- The nodes of the part. -/
  nodes : NodeId → Prop
  /-- The instance that runs the part by itself. -/
  alone : Activation
  /-- The instance that runs it inside a larger tree. -/
  joined : Activation
  /-- The frames below those of the part. -/
  base : List NodeId
  base' : List NodeId
  start : Tick σ
  start' : Tick σ
  /-- Whether the run by itself may be the first to run out of depth. -/
  early : Prop
  /-- Whether the other may be the first. -/
  late : Prop

namespace Twin

/-- A node of the part: both trees have it, with all its children. -/
structure Has (T : Twin σ) (n : Node) : Prop where
  mem : T.nodes n.id
  alone : T.alone.tree.get? n.id = some n
  joined : T.joined.tree.get? n.id = some n
  child {c : NodeId} : c ∈ n.children → T.nodes c
  behavior : n.behavior.Local
  reads : ¬ n.Reads "trace"
  sets : ¬ n.Sets "trace"

def Reads (T : Twin σ) (name : String) : Prop := ∃ n, T.Has n ∧ n.Reads name

def Sets (T : Twin σ) (name : String) : Prop := ∃ n, T.Has n ∧ n.Sets name

/-- The part is one, on frames of others, and the two runs begin under the same conditions. -/
structure Fits (T : Twin σ) : Prop where
  has {id : NodeId} : T.nodes id → ∃ n, n.id = id ∧ T.Has n
  base {x : NodeId} : x ∈ T.base → ¬ T.nodes x
  base' {x : NodeId} : x ∈ T.base' → ¬ T.nodes x
  time : T.start'.world.time = T.start.world.time
  calm : (T.start.world.instanceOf T.alone.owner).interrupted = false
  calm' : (T.start'.world.instanceOf T.joined.owner).interrupted = false

/-- A failure for want of a status: a node, other than a watchdog, finds its child still running. -/
def Stale (T : Twin σ) (e : RunError) : Prop :=
  ∃ n, T.alone.tree.get? n.id = some n ∧ n.behavior ≠ .watchdog ∧
    e = .unexpectedStatus T.alone.tree.name n.name n.id .running

/-- The run by itself and the other end alike. Either may run out of depth first where that is allowed, and the first
may fail for want of a status. -/
def EndAlike (T : Twin σ) (Q : α → Tick σ → Tick σ → Prop) : Outcome σ α → Outcome σ α → Prop
  | .ok a t, .ok a' t' => a = a' ∧ Q a t t'
  | .ok _ _, .failed _ _ => False
  | .ok _ _, .halted _ => T.late
  | .failed e _, .ok _ _ => T.Stale e
  | .failed _ _, .failed _ _ => True
  | .failed e _, .halted _ => T.Stale e ∨ T.late
  | .halted _, .ok _ _ => T.early
  | .halted _, .failed _ _ => T.early
  | .halted _, .halted _ => True

/-- Two computations end alike, that of the run by itself and that of the other. -/
def Agree (T : Twin σ) (Q : α → Tick σ → Tick σ → Prop) (m m' : TickM σ α) (t t' : Tick σ) : Prop :=
  T.EndAlike Q (m T.alone t) (m' T.joined t')

variable {T : Twin σ} {Q Q' : α → Tick σ → Tick σ → Prop} {t t' : Tick σ}

theorem EndAlike.mono {o o' : Outcome σ α} (h : T.EndAlike Q o o') (hq : ∀ a u u', Q a u u' → Q' a u u') :
    T.EndAlike Q' o o' := by
  cases o with
  | ok a t =>
    cases o' with
    | ok a' t' => exact ⟨h.1, hq _ _ _ h.2⟩
    | failed _ _ => exact h
    | halted _ => exact h
  | failed _ _ => cases o' <;> exact h
  | halted _ => cases o' <;> exact h

/-- What two computations go on to do, when the outcomes so far are alike: a failure and a halt are passed on. -/
theorem EndAlike.andThen {P : β → Tick σ → Tick σ → Prop} {o o' : Outcome σ β} {r r' : Outcome σ α}
    (h : T.EndAlike P o o')
    (hok : ∀ b u u', o = .ok b u → o' = .ok b u' → P b u u' → T.EndAlike Q r r')
    (hfailed : ∀ e u, o = .failed e u → ∃ v, r = .failed e v)
    (hfailed' : ∀ e u, o' = .failed e u → ∃ v, r' = .failed e v)
    (hhalted : ∀ halt, o = .halted halt → r = .halted halt)
    (hhalted' : ∀ halt, o' = .halted halt → r' = .halted halt) : T.EndAlike Q r r' := by
  cases o with
  | ok b u =>
    cases o' with
    | ok b' u' =>
      obtain ⟨rfl, hp⟩ := h
      exact hok b u u' rfl rfl hp
    | failed _ _ => exact h.elim
    | halted halt =>
      -- the other has run out of depth, and this one goes on
      have hlate : T.late := h
      rw [hhalted' halt rfl]
      cases r
      · exact hlate
      · exact .inr hlate
      · trivial
  | failed e u =>
    obtain ⟨v, rfl⟩ := hfailed e u rfl
    cases o' with
    | ok b' u' =>
      -- this one has failed for want of a status, and the other goes on
      have hstale : T.Stale e := h
      cases r'
      · exact hstale
      · trivial
      · exact .inl hstale
    | failed e' u' =>
      obtain ⟨v', rfl⟩ := hfailed' e' u' rfl
      trivial
    | halted halt =>
      rw [hhalted' halt rfl]
      exact h
  | halted halt =>
    rw [hhalted halt rfl]
    cases o' with
    | ok b' u' =>
      have hearly : T.early := h
      cases r'
      · exact hearly
      · exact hearly
      · trivial
    | failed e' u' =>
      obtain ⟨v', rfl⟩ := hfailed' e' u' rfl
      exact h
    | halted halt =>
      rw [hhalted' halt rfl]
      trivial

namespace Agree

theorem mono {m m' : TickM σ α} (h : T.Agree Q m m' t t') (hq : ∀ a u u', Q a u u' → Q' a u u') :
    T.Agree Q' m m' t t' := EndAlike.mono h hq

theorem pure {a : α} (h : Q a t t') : T.Agree Q (pure a) (Pure.pure a) t t' := ⟨rfl, h⟩

theorem halt {h : Halt} : T.Agree Q (TickM.halt h) (TickM.halt h) t t' := trivial

theorem bind {m m' : TickM σ β} {f f' : β → TickM σ α} {P : β → Tick σ → Tick σ → Prop} (h : T.Agree P m m' t t')
    (hf : ∀ b u u', P b u u' → T.Agree Q (f b) (f' b) u u') : T.Agree Q (m >>= f) (m' >>= f') t t' := by
  unfold Agree
  rw [TickM.bind_apply, TickM.bind_apply]
  refine EndAlike.andThen h (fun b u u' ho ho' hp => ?_) (fun e u ho => ?_) (fun e u ho => ?_) (fun _ ho => ?_)
    fun _ ho => ?_
  · rw [ho, ho']
    exact hf b u u' hp
  · exact ⟨u, by rw [ho]⟩
  · exact ⟨u, by rw [ho]⟩
  · rw [ho]
  · rw [ho]

section Primitives

variable {f f' : Unit → TickM σ α}

theorem env {f f' : Env → TickM σ α} (h : T.Agree Q (f t.env) (f' t'.env) t t') :
    T.Agree Q (TickM.env >>= f) (TickM.env >>= f') t t' := h

theorem modifyEnv {g g' : Env → Env}
    (h : T.Agree Q (f ()) (f' ()) { t with env := g t.env } { t' with env := g' t'.env }) :
    T.Agree Q (TickM.modifyEnv g >>= f) (TickM.modifyEnv g' >>= f') t t' := h

theorem observe {a : Activity}
    (h : T.Agree Q (f ()) (f' ()) { t with world := t.world.observe T.alone.owner a }
      { t' with world := t'.world.observe T.joined.owner a }) :
    T.Agree Q (TickM.observe a >>= f) (TickM.observe a >>= f') t t' := h

theorem report {r : String → Report}
    (h : T.Agree Q (f ()) (f' ()) { t with world := t.world.report (r T.alone.tree.name) }
      { t' with world := t'.world.report (r T.joined.tree.name) }) :
    T.Agree Q (TickM.report r >>= f) (TickM.report r >>= f') t t' := h

theorem time {f f' : Float → TickM σ α} (h : T.Agree Q (f t.world.time) (f' t'.world.time) t t') :
    T.Agree Q (TickM.time >>= f) (TickM.time >>= f') t t' := h

theorem ofExcept_ok {b : β} {f f' : β → TickM σ α} (h : T.Agree Q (f b) (f' b) t t') :
    T.Agree Q (TickM.ofExcept (.ok b) >>= f) (TickM.ofExcept (.ok b) >>= f') t t' := h

theorem saved? {f f' : Option Payload → TickM σ α} {site : Site}
    (h : T.Agree Q (f t.env.temps[site.id]?) (f' t'.env.temps[site.id]?) t t') :
    T.Agree Q (TickM.saved? site >>= f) (TickM.saved? site >>= f') t t' := h

theorem element {items : List β} {i : Nat} {f f' : β → TickM σ α}
    (h : ∀ b ∈ items, T.Agree Q (f b) (f' b) t t') :
    T.Agree Q (TickM.element items i >>= f) (TickM.element items i >>= f') t t' := by
  unfold TickM.element
  split
  · rename_i b hb
    exact h b (List.mem_of_getElem? hb)
  · exact halt

theorem child {n : Node} {i : Nat} {f f' : NodeId → TickM σ α} (hn : T.Has n)
    (h : ∀ c, T.nodes c → T.Agree Q (f c) (f' c) t t') :
    T.Agree Q (TickM.child n.toSite i >>= f) (TickM.child n.toSite i >>= f') t t' :=
  element fun c hc => h c (hn.child hc)

theorem node {n : Node} {f f' : Node → TickM σ α} (hn : T.Has n) (h : T.Agree Q (f n) (f' n) t t') :
    T.Agree Q (TickM.node n.id >>= f) (TickM.node n.id >>= f') t t' := by
  unfold Agree at h ⊢
  simp only [TickM.node, TickM.bind_apply, TickM.tree, hn.alone, hn.joined, TickM.pure_apply]
  exact h

theorem rejectPayload {site : Site} :
    T.Agree Q (TickM.rejectPayload site) (TickM.rejectPayload site) t t' := trivial

theorem rejectStatus {site : Site} {s : Status} :
    T.Agree Q (TickM.rejectStatus site s) (TickM.rejectStatus site s) t t' := trivial

end Primitives

end Agree

def Stacked (T : Twin σ) (s s' : Stack) : Prop :=
  ∃ above, (∀ x ∈ above, T.nodes x) ∧ s.frames = above ++ T.base ∧ s'.frames = above ++ T.base'

def Levels (T : Twin σ) (l l' : Nat) : Prop := ∃ k, l = T.base.length + k ∧ l' = T.base'.length + k

/-- The payloads of the part are the same, and those of other nodes are as they were. -/
structure Parked (T : Twin σ) (temps temps' : Temps) : Prop where
  same {x : NodeId} : T.nodes x → temps'[x]? = temps[x]?
  nested {x y : NodeId} {p : Payload} : T.nodes x → temps[x]? = some p → y ∈ p.nestedFrames → T.nodes y
  others {x : NodeId} : ¬ T.nodes x → temps'[x]? = T.start'.env.temps[x]?

/-- Variables that the part reads are the same, both traces have got the same labels, and variables that the part does
not write are as they were. -/
structure Shared (T : Twin σ) (vars vars' : Variables) : Prop where
  read {name : String} : T.Reads name → vars'[name]? = vars[name]?
  trace : ∃ labels, vars["trace"]? = Workbench.extendBy T.start.env.vars["trace"]? labels ∧
    vars'["trace"]? = Workbench.extendBy T.start'.env.vars["trace"]? labels
  others {name : String} : ¬ T.Sets name → name ≠ "trace" → vars'[name]? = T.start'.env.vars[name]?

/-- The variables of the nodes of the part are the same, and those of other nodes are as they were. -/
structure Owned (T : Twin σ) (privates privates' : Std.ExtTreeMap PrivateKey Value) : Prop where
  same {key : PrivateKey} : T.nodes key.node → privates'[key]? = privates[key]?
  others {key : PrivateKey} : ¬ T.nodes key.node → privates'[key]? = T.start'.env.privates[key]?

/-- Nothing happens to the worlds but what the journals tell, and both tell of the same calls. -/
structure Seen (T : Twin σ) (w w' : World σ) : Prop where
  alone : ∃ journal, w = { T.start.world with journal }
  joined : ∃ journal, w' = { T.start'.world with journal }
  calls : ∃ ids, w.calls T.alone.owner = T.start.world.calls T.alone.owner ++ ids ∧
    w'.calls T.joined.owner = T.start'.world.calls T.joined.owner ++ ids

/-- The two runs are alike, with slots that are related by `P`. -/
structure Near (T : Twin σ) (P : Slots → Slots → Prop) (t t' : Tick σ) : Prop where
  stack : T.Stacked t.env.stack t'.env.stack
  temps : T.Parked t.env.temps t'.env.temps
  vars : T.Shared t.env.vars t'.env.vars
  privates : T.Owned t.env.privates t'.env.privates
  slots : P t.env.slots t'.env.slots
  world : T.Seen t.world t'.world

/-- The two runs are alike, and a node may go on. If the last status is not the same, nothing has returned yet; what is
suspended in the part then waits for no child. -/
structure Ready (T : Twin σ) (P : Slots → Slots → Prop) (t t' : Tick σ) : Prop extends T.Near P t t' where
  status : t.env.lastStatus = t'.env.lastStatus ∨ ∀ (x : NodeId) (p : Payload), T.nodes x → t.env.temps[x]? = some p →
    t.env.lastStatus = .running ∧ ∀ s ∈ p.nested, s.frames ≠ []

/-- The two runs are alike, and a node has just returned. -/
structure Done (T : Twin σ) (P : Slots → Slots → Prop) (s : Status) (t t' : Tick σ) : Prop extends T.Near P t t' where
  alone : t.env.lastStatus = s
  joined : t'.env.lastStatus = s

variable {P : Slots → Slots → Prop} {status : Status} {s s' : Stack} {temps temps' : Temps} {vars vars' : Variables}
  {id : NodeId}
  {n : Node} {p : Payload} {w w' : World σ} {l l' : Nat}

section Components

namespace Stacked

theorem size (h : T.Stacked s s') : T.Levels s.size s'.size := by
  obtain ⟨above, -, hs, hs'⟩ := h
  refine ⟨above.length, ?_, ?_⟩
  · rw [Stack.size, hs, List.length_append, Nat.add_comm]
  · rw [Stack.size, hs', List.length_append, Nat.add_comm]

theorem push (h : T.Stacked s s') (hid : T.nodes id) : T.Stacked (s.push id) (s'.push id) := by
  obtain ⟨above, ha, hs, hs'⟩ := h
  exact ⟨id :: above, List.forall_mem_cons.mpr ⟨hid, ha⟩, congrArg (id :: ·) hs, congrArg (id :: ·) hs'⟩

theorem append (h : T.Stacked s s') {saved : Stack} (hs : ∀ x ∈ saved.frames, T.nodes x) :
    T.Stacked (s ++ saved) (s' ++ saved) := by
  obtain ⟨above, ha, hs₁, hs₂⟩ := h
  refine ⟨saved.frames ++ above, fun x hx => (List.mem_append.mp hx).elim (hs x) (ha x), ?_, ?_⟩
  · rw [Stack.frames_append, hs₁, List.append_assoc]
  · rw [Stack.frames_append, hs₂, List.append_assoc]

/-- The same frames are cut off at levels that belong together. -/
theorem splitAt (h : T.Stacked s s') (hl : T.Levels l l') :
    (s.splitAt l).2 = (s'.splitAt l').2 ∧ (∀ x ∈ (s.splitAt l).2.frames, T.nodes x) ∧
      T.Stacked (s.splitAt l).1 (s'.splitAt l').1 := by
  obtain ⟨above, ha, hs, hs'⟩ := h
  obtain ⟨k, rfl, rfl⟩ := hl
  have hcut : ∀ base : List NodeId, (above ++ base).length - (base.length + k) = above.length - k := fun base => by
    rw [List.length_append]
    omega
  simp only [Stack.splitAt, Stack.size, hs, hs', hcut]
  rw [List.take_append_of_le_length (by omega), List.take_append_of_le_length (by omega)]
  refine ⟨rfl, fun x hx => ha x (List.mem_of_mem_take hx), above.drop (above.length - k),
    fun x hx => ha x (List.mem_of_mem_drop hx), ?_, ?_⟩
  · exact List.drop_append_of_le_length (by omega)
  · exact List.drop_append_of_le_length (by omega)

variable (hT : T.Fits)
include hT

/-- A node of the part is on top of both stacks or of neither. -/
theorem top?_eq (h : T.Stacked s s') (hid : T.nodes id) : s.top? = some id ↔ s'.top? = some id := by
  obtain ⟨above, ha, hs, hs'⟩ := h
  simp only [Stack.top?, hs, hs']
  cases above with
  | cons x above => rfl
  | nil =>
    refine iff_of_false (fun htop => ?_) fun htop => ?_
    · exact hT.base (List.mem_of_mem_head? htop) hid
    · exact hT.base' (List.mem_of_mem_head? htop) hid

theorem pop (h : T.Stacked s s') (hid : T.nodes id) (htop : s.top? = some id) :
    ∃ rest rest', s.frames = id :: rest ∧ s'.frames = id :: rest' ∧ T.Stacked ⟨rest⟩ ⟨rest'⟩ := by
  obtain ⟨above, ha, hs, hs'⟩ := h
  rw [Stack.top?, hs] at htop
  cases above with
  | nil => exact absurd hid (hT.base (List.mem_of_mem_head? htop))
  | cons x above =>
    obtain rfl : x = id := Option.some.inj htop
    exact ⟨_, _, hs, hs', above, fun y hy => ha y (List.mem_cons_of_mem _ hy), rfl, rfl⟩

end Stacked

namespace Parked

theorem insert (h : T.Parked temps temps') (hid : T.nodes id) (hp : ∀ x ∈ p.nestedFrames, T.nodes x) :
    T.Parked (temps.insert id p) (temps'.insert id p) := by
  refine ⟨fun {x} hx => ?_, fun {x y q} hx hq hy => ?_, fun {x} hx => ?_⟩
  · rw [Std.ExtTreeMap.getElem?_insert, Std.ExtTreeMap.getElem?_insert, h.same hx]
  · rw [Std.ExtTreeMap.getElem?_insert] at hq
    split at hq
    · obtain rfl := Option.some.inj hq
      exact hp y hy
    · exact h.nested hx hq hy
  · have hne : ¬ compare id x = .eq := fun he => hx (Std.LawfulEqCmp.eq_of_compare he ▸ hid)
    rw [Std.ExtTreeMap.getElem?_insert, if_neg hne]
    exact h.others hx

theorem erase (h : T.Parked temps temps') (hid : T.nodes id) : T.Parked (temps.erase id) (temps'.erase id) := by
  refine ⟨fun {x} hx => ?_, fun {x y q} hx hq hy => ?_, fun {x} hx => ?_⟩
  · rw [Std.ExtTreeMap.getElem?_erase, Std.ExtTreeMap.getElem?_erase, h.same hx]
  · rw [Std.ExtTreeMap.getElem?_erase] at hq
    split at hq
    · cases hq
    · exact h.nested hx hq hy
  · have hne : ¬ compare id x = .eq := fun he => hx (Std.LawfulEqCmp.eq_of_compare he ▸ hid)
    rw [Std.ExtTreeMap.getElem?_erase, if_neg hne]
    exact h.others hx

theorem nested' (h : T.Parked temps temps') {x y : NodeId} (hx : T.nodes x) (hp : temps'[x]? = some p)
    (hy : y ∈ p.nestedFrames) : T.nodes y := h.nested hx ((h.same hx).symm.trans hp) hy

/-- Frames of the part lead to the same nodes, and to nodes of the part only. -/
theorem leads (h : T.Parked temps temps') {frames : List NodeId} (hf : ∀ x ∈ frames, T.nodes x) {x : NodeId} :
    (temps.Leads frames x → T.nodes x) ∧ (temps'.Leads frames x ↔ temps.Leads frames x) := by
  have hin : ∀ {y}, temps.Leads frames y → T.nodes y := fun hy =>
    hy.closed hf fun _ _ hz hp _ hw => h.nested hz hp hw
  have hin' : ∀ {y}, temps'.Leads frames y → T.nodes y := fun hy =>
    hy.closed hf fun _ _ hz hp _ hw => h.nested' hz hp hw
  refine ⟨hin, fun hx => ?_, fun hx => ?_⟩
  · exact hx.mono (fun _ => .frame) fun y q hy hq => (h.same (hin' hy)).symm.trans hq
  · exact hx.mono (fun _ => .frame) fun y q hy hq => (h.same (hin hy)).trans hq

theorem clear (h : T.Parked temps temps') {saved : Stack} (hs : ∀ x ∈ saved.frames, T.nodes x) :
    T.Parked (saved.clear temps) (saved.clear temps') := by
  refine ⟨fun {x} hx => ?_, fun {x y q} hx hq hy => h.nested hx (Stack.getElem?_of_clear hq) hy, fun {x} hx => ?_⟩
  · by_cases hl : temps.Leads saved.frames x
    · rw [Stack.getElem?_clear_of_leads hl, Stack.getElem?_clear_of_leads ((h.leads hs).2.mpr hl)]
    · rw [Stack.getElem?_clear_of_not_leads hl,
        Stack.getElem?_clear_of_not_leads fun hl' => hl ((h.leads hs).2.mp hl')]
      exact h.same hx
  · rw [Stack.getElem?_clear_of_not_leads fun hl => hx ((h.leads hs).1 ((h.leads hs).2.mp hl))]
    exact h.others hx

end Parked

namespace Shared

theorem assign (h : T.Shared vars vars') (hn : T.Has n) {name : String} (hname : n.Sets name)
    (value : Option Value) : T.Shared (vars.assign name value) (vars'.assign name value) := by
  have htrace : name ≠ "trace" := fun he => hn.sets (he ▸ hname)
  refine ⟨fun {key} hkey => ?_, ?_, fun {key} hkey hne => ?_⟩
  · rw [Variables.getElem?_assign, Variables.getElem?_assign, h.read hkey]
  · rw [Variables.getElem?_assign, Variables.getElem?_assign, if_neg htrace, if_neg htrace]
    exact h.trace
  · rw [Variables.getElem?_assign, if_neg fun he : name = key => hkey ⟨n, hn, he ▸ hname⟩]
    exact h.others hkey hne

theorem not_reads_trace : ¬ T.Reads "trace" := fun ⟨_, hn, hr⟩ => hn.reads hr

theorem extend (h : T.Shared vars vars') (label : Value) :
    T.Shared (vars.assign "trace" (some (Workbench.extendTrace vars["trace"]? label)))
      (vars'.assign "trace" (some (Workbench.extendTrace vars'["trace"]? label))) := by
  refine ⟨fun {key} hkey => ?_, ?_, fun {key} hkey hne => ?_⟩
  · have hne : "trace" ≠ key := fun he => not_reads_trace (he ▸ hkey)
    rw [Variables.getElem?_assign, Variables.getElem?_assign, if_neg hne, if_neg hne]
    exact h.read hkey
  · obtain ⟨labels, hs, hs'⟩ := h.trace
    refine ⟨labels ++ [label], ?_, ?_⟩
    · rw [Variables.getElem?_assign, if_pos rfl, hs, Workbench.extendBy, Workbench.extendBy, List.foldl_append]
      rfl
    · rw [Variables.getElem?_assign, if_pos rfl, hs', Workbench.extendBy, Workbench.extendBy, List.foldl_append]
      rfl
  · rw [Variables.getElem?_assign, if_neg (Ne.symm hne)]
    exact h.others hkey hne

end Shared

theorem Owned.insert {privates privates' : Std.ExtTreeMap PrivateKey Value} (h : T.Owned privates privates')
    (hid : T.nodes id) (name : String) (v : Value) :
    T.Owned (privates.insert ⟨id, name⟩ v) (privates'.insert ⟨id, name⟩ v) := by
  refine ⟨fun {key} hkey => ?_, fun {key} hkey => ?_⟩
  · rw [Std.ExtTreeMap.getElem?_insert, Std.ExtTreeMap.getElem?_insert, h.same hkey]
  · have hne : ¬ compare (PrivateKey.mk id name) key = .eq := fun he => by
      rw [← Std.LawfulEqCmp.eq_of_compare he] at hkey
      exact hkey hid
    rw [Std.ExtTreeMap.getElem?_insert, if_neg hne]
    exact h.others hkey

namespace Seen

theorem record (h : T.Seen w w') {e e' : Entry} (he : e.of? T.alone.owner = none)
    (he' : e'.of? T.joined.owner = none) : T.Seen (w.record e) (w'.record e') := by
  obtain ⟨⟨j, rfl⟩, ⟨j', rfl⟩, ids, hids, hids'⟩ := h
  refine ⟨⟨_, rfl⟩, ⟨_, rfl⟩, ids, ?_, ?_⟩
  · rw [← hids, World.calls, World.acts_record, he]
    simp [World.calls]
  · rw [← hids', World.calls, World.acts_record, he']
    simp [World.calls]

theorem report (h : T.Seen w w') (r r' : Report) : T.Seen (w.report r) (w'.report r') := h.record rfl rfl

theorem observe (h : T.Seen w w') (a : Activity) :
    T.Seen (w.observe T.alone.owner a) (w'.observe T.joined.owner a) := by
  obtain ⟨⟨j, rfl⟩, ⟨j', rfl⟩, ids, hids, hids'⟩ := h
  refine ⟨⟨_, rfl⟩, ⟨_, rfl⟩, ids ++ a.call?.toList, ?_, ?_⟩
  · rw [World.calls, World.acts_observe, if_pos rfl, List.filterMap_append, ← List.append_assoc, ← hids]
    cases h : a.call? <;> simp [World.calls, h]
  · rw [World.calls, World.acts_observe, if_pos rfl, List.filterMap_append, ← List.append_assoc, ← hids']
    cases h : a.call? <;> simp [World.calls, h]

theorem time (h : T.Seen w w') (hT : T.Fits) : w'.time = w.time := by
  obtain ⟨⟨j, rfl⟩, ⟨j', rfl⟩, -⟩ := h
  exact hT.time

theorem calm (h : T.Seen w w') (hT : T.Fits) : (w.instanceOf T.alone.owner).interrupted = false := by
  obtain ⟨⟨j, rfl⟩, -⟩ := h
  exact hT.calm

theorem calm' (h : T.Seen w w') (hT : T.Fits) : (w'.instanceOf T.joined.owner).interrupted = false := by
  obtain ⟨-, ⟨j', rfl⟩, -⟩ := h
  exact hT.calm'

end Seen

end Components

variable {P' : Slots → Slots → Prop} {u u' : Tick σ}

namespace Near

variable (h : T.Near P t t')
include h

theorem setPayload (hid : T.nodes id) (hp : ∀ x ∈ p.nestedFrames, T.nodes x) :
    T.Near P { t with env := t.env.setPayload id p } { t' with env := t'.env.setPayload id p } :=
  { h with temps := h.temps.insert hid hp }

theorem abandon {saved : Stack} (hs : ∀ x ∈ saved.frames, T.nodes x) :
    T.Near P { t with env := t.env.abandon saved } { t' with env := t'.env.abandon saved } :=
  { h with temps := h.temps.clear hs }

theorem set (hn : T.Has n) {name : String} (hname : n.Sets name) (value : Option Value) :
    T.Near P { t with env := t.env.set name value } { t' with env := t'.env.set name value } :=
  { h with vars := h.vars.assign hn hname value }

theorem setPrivate (hid : T.nodes id) (name : String) (v : Value) :
    T.Near P { t with env := t.env.setPrivate id name (some v) } { t' with env := t'.env.setPrivate id name (some v) } :=
  { h with privates := h.privates.insert hid name v }

theorem report (r r' : Report) :
    T.Near P { t with world := t.world.report r } { t' with world := t'.world.report r' } :=
  { h with world := h.world.report r r' }

theorem observe (a : Activity) :
    T.Near P { t with world := t.world.observe T.alone.owner a }
      { t' with world := t'.world.observe T.joined.owner a } :=
  { h with world := h.world.observe a }

theorem setStack (hs : T.Stacked s s') :
    T.Near P { t with env := { t.env with stack := s } } { t' with env := { t'.env with stack := s' } } :=
  { h with stack := hs }

theorem setStatus (status : Status) :
    T.Near P { t with env := { t.env with lastStatus := status } }
      { t' with env := { t'.env with lastStatus := status } } :=
  { h with }

theorem setSlots (slots slots' : Slots) (hs : P' slots slots') :
    T.Near P' { t with env := { t.env with input := slots.1, output := slots.2 } }
      { t' with env := { t'.env with input := slots'.1, output := slots'.2 } } :=
  { h with slots := hs }

theorem payload (hn : T.Has n) : t'.env.temps[n.id]? = t.env.temps[n.id]? := h.temps.same hn.mem

theorem isSuspended (hn : T.Has n) : t'.env.isSuspended n.id = t.env.isSuspended n.id := by
  rw [Env.isSuspended_eq, Env.isSuspended_eq, h.payload hn]

theorem saved (hn : T.Has n) (hp : t.env.temps[n.id]? = some p) (hs : s ∈ p.nested) : ∀ x ∈ s.frames, T.nodes x :=
  fun _ hx => h.temps.nested hn.mem hp (List.mem_flatMap.mpr ⟨s, hs, hx⟩)

theorem get? (hn : T.Has n) {name : String} (hr : n.Reads name) : t'.env.get? name = t.env.get? name :=
  h.vars.read ⟨n, hn, hr⟩

theorem time (hT : T.Fits) : t'.world.time = t.world.time := h.world.time hT

end Near

theorem Done.ready (h : T.Done P status t t') : T.Ready P t t' := ⟨h.toNear, .inl (h.alone.trans h.joined.symm)⟩

namespace Ready

variable (h : T.Ready P t t')
include h

/-- A node may go on as long as neither the last status nor a payload changes. -/
theorem of_near (hn : T.Near P' u u') (ht : u.env.temps = t.env.temps) (hs : u.env.lastStatus = t.env.lastStatus)
    (hs' : u'.env.lastStatus = t'.env.lastStatus) : T.Ready P' u u' := by
  refine ⟨hn, ?_⟩
  rw [hs, hs', ht]
  exact h.status

theorem report (r r' : Report) :
    T.Ready P { t with world := t.world.report r } { t' with world := t'.world.report r' } :=
  h.of_near (h.toNear.report r r') rfl rfl rfl

theorem set (hn : T.Has n) {name : String} (hname : n.Sets name) (value : Option Value) :
    T.Ready P { t with env := t.env.set name value } { t' with env := t'.env.set name value } :=
  h.of_near (h.toNear.set hn hname value) rfl rfl rfl

/-- A stack in a payload has frames, unless the last status is the same. -/
theorem saved_or (hn : T.Has n) (hp : t.env.temps[n.id]? = some p) (hs : s ∈ p.nested) :
    t.env.lastStatus = t'.env.lastStatus ∨ s.frames ≠ [] :=
  h.status.imp_right fun hwait => (hwait n.id p hn.mem hp).2 s hs

/-- How the child of a resumed node ended. If the two disagree about that, the run by itself fails for want of a
status. -/
theorem childStatus (hn : T.Has n) (hb : n.behavior ≠ .watchdog) (hp : t.env.temps[n.id]? = some p) :
    T.Agree (fun _ => T.Ready P) (TickM.childStatus n.toSite) (TickM.childStatus n.toSite) t t' := by
  refine Agree.env ?_
  rcases h.status with heq | hwait
  · rw [← heq]
    cases t.env.lastStatus with
    | running => exact Agree.rejectStatus
    | success => exact Agree.pure h
    | failure => exact Agree.pure h
  · rw [(hwait n.id p hn.mem hp).1]
    have hstale : T.Stale (.unexpectedStatus T.alone.tree.name n.name n.id .running) := ⟨n, hn.alone, hb, rfl⟩
    cases t'.env.lastStatus with
    | running => exact Agree.rejectStatus
    | success => exact hstale
    | failure => exact hstale

end Ready

namespace Agree

theorem suspend (h : T.Near P t t') (hn : T.Has n) (hp : ∀ x ∈ p.nestedFrames, T.nodes x) :
    T.Agree (fun _ => T.Near P) (TickM.suspend n.toSite p) (TickM.suspend n.toSite p) t t' :=
  ⟨rfl, h.setPayload hn.mem hp⟩

theorem calm (hT : T.Fits) (h : T.Near P t t') {f f' : Bool → TickM σ α} (hf : T.Agree Q (f false) (f' false) t t') :
    T.Agree Q (TickM.interrupted >>= f) (TickM.interrupted >>= f') t t' := by
  change T.Agree Q (f (t.world.instanceOf T.alone.owner).interrupted)
    (f' (t'.world.instanceOf T.joined.owner).interrupted) t t'
  rw [h.world.calm hT, h.world.calm' hT]
  exact hf

theorem suspendFlat (h : T.Near P t t') (hn : T.Has n) (hp : p.nested = []) :
    T.Agree (fun _ => T.Near P) (TickM.suspend n.toSite p) (TickM.suspend n.toSite p) t t' :=
  suspend h hn fun x hx => by simp [Payload.nestedFrames, hp] at hx

end Agree

end Twin

end BehaviorTree
