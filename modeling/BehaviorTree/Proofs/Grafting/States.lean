import BehaviorTree.Proofs.Engine.Slots
import BehaviorTree.Proofs.Stack.Clearing
import BehaviorTree.Proofs.Tree.Documents

/-!
A subtree on two grounds. The frame of its root stands on other frames here than there, and beside other payloads.
While the subtree runs, the frame of its root stays where it is, so what stands below it is never looked at. The rules
say how computations go on alike on both grounds, whatever they are put together from.
-/

namespace BehaviorTree
set_option autoImplicit false

variable {σ α β : Type}

namespace Tree

/-- The nodes of the subtree of a node, with the node itself. -/
def Subtree (t : Tree) : NodeId → NodeId → Prop := Relation.ReflTransGen t.Parent

/-- The nodes of the subtree of a node, without the node itself. -/
def Under (t : Tree) : NodeId → NodeId → Prop := Relation.TransGen t.Parent

variable {t : Tree} {a b x : NodeId} {n : Node}

theorem Under.subtree (h : t.Under a x) : t.Subtree a x := h.to_reflTransGen

theorem Subtree.child (h : t.Subtree a n.id) (hn : t.get? n.id = some n) (hx : x ∈ n.children) : t.Under a x :=
  Relation.TransGen.tail' h ⟨n, hn, hx⟩

theorem Orderly.not_under_self (ht : t.Orderly) (a : NodeId) : ¬ t.Under a a := by
  obtain ⟨rank, hrank⟩ := ht.ranked
  exact acyclic_of_ranked hrank a

end Tree

/-- Two computations end in the same way: with one result, with one error, or halted for one reason. -/
def Outcome.Matches (Q : α → Tick σ → Tick σ → Prop) (E : Tick σ → Tick σ → Prop) : Outcome σ α → Outcome σ α → Prop
  | .ok a t, .ok a' t' => a' = a ∧ Q a t t'
  | .failed e t, .failed e' t' => e' = e ∧ E t t'
  | .halted h, .halted h' => h' = h
  | _, _ => False

namespace Outcome.Matches

variable {Q Q' : α → Tick σ → Tick σ → Prop} {E E' : Tick σ → Tick σ → Prop} {o o' : Outcome σ α}

theorem mono (h : o.Matches Q E o') (hq : ∀ a u u', o = .ok a u → Q a u u' → Q' a u u')
    (he : ∀ u u', E u u' → E' u u') : o.Matches Q' E' o' := by
  cases o <;> cases o'
  case ok.ok => exact ⟨h.1, hq _ _ _ rfl h.2⟩
  case failed.failed => exact ⟨h.1, he _ _ h.2⟩
  all_goals exact h

/-- If one computation gives a result, the other one gives the same. -/
theorem exists_ok {a : α} {t : Tick σ} (h : (Outcome.ok a t).Matches Q E o') : ∃ t', o' = .ok a t' ∧ Q a t t' := by
  cases o' with
  | ok a' t' =>
    obtain ⟨rfl, hq⟩ := h
    exact ⟨t', rfl, hq⟩
  | failed e t' => exact h.elim
  | halted h' => exact h.elim

theorem bind {m m' : TickM σ β} {f f' : β → TickM σ α} {P : β → Tick σ → Tick σ → Prop} {c : Activation}
    {t t' : Tick σ} (h : (m c t).Matches P E (m' c t')) (he : ∀ u u', E u u' → E' u u')
    (hf : ∀ b u u', P b u u' → (f b c u).Matches Q E' (f' b c u')) :
    ((m >>= f) c t).Matches Q E' ((m' >>= f') c t') := by
  rw [TickM.bind_apply, TickM.bind_apply]
  cases hm : m c t <;> cases hm' : m' c t' <;> rw [hm, hm'] at h
  case ok.ok b u b' u' =>
    obtain ⟨rfl, hp⟩ := h
    exact hf b' u u' hp
  case failed.failed => exact ⟨h.1, he _ _ h.2⟩
  case halted.halted => exact h
  all_goals exact h.elim

end Outcome.Matches

/-- A subtree that runs on two grounds: the states in which its run begins, where the frame of its root is not counted
in. -/
structure Graft where
  activation : Activation
  root : NodeId
  here : Env
  there : Env
  /-- Whether the root is suspended as long as it stands. -/
  resumed : Prop

namespace Graft

variable (G : Graft)

def Subtree (x : NodeId) : Prop := G.activation.tree.Subtree G.root x

def Under (x : NodeId) : Prop := G.activation.tree.Under G.root x

def Fits : Prop := G.activation.tree.Orderly

structure Has (n : Node) : Prop where
  get : G.activation.tree.get? n.id = some n
  subtree : G.Subtree n.id

/-- The root stands on both grounds, with the same frames of the subtree above it. -/
def Stands (s s' : Stack) : Prop :=
  ∃ above, (∀ x ∈ above, G.Under x) ∧ s.frames = above ++ G.root :: G.here.stack.frames ∧
    s'.frames = above ++ G.root :: G.there.stack.frames

/-- The ground is bare: no frame of the subtree is left. -/
def Bare (s s' : Stack) : Prop := s = G.here.stack ∧ s' = G.there.stack

def Levels (l l' : Nat) : Prop := ∃ k, l = k + (G.here.stack.size + 1) ∧ l' = k + (G.there.stack.size + 1)

/-- The payloads of the subtree are the same and name nodes under its root; those of other nodes are as they were. -/
structure Payloads (temps temps' : Temps) : Prop where
  same {x : NodeId} : G.Subtree x → temps'[x]? = temps[x]?
  inward {x y : NodeId} {p : Payload} : G.Subtree x → temps[x]? = some p → y ∈ p.nestedFrames → G.Under y
  here {x : NodeId} : ¬ G.Subtree x → temps[x]? = G.here.temps[x]?
  there {x : NodeId} : ¬ G.Subtree x → temps'[x]? = G.there.temps[x]?

/-- States that differ in frames, payloads, what is parked and slot values only. -/
structure Like (S : Stack → Stack → Prop) (env env' : Env) : Prop where
  stack : S env.stack env'.stack
  payloads : G.Payloads env.temps env'.temps
  detached : env.detached = G.here.detached
  detached' : env'.detached = G.there.detached
  same : ∃ stack temps detached input output, env' = { env with stack, temps, detached, input, output }

structure Near (t t' : Tick σ) : Prop where
  env : G.Like G.Stands t.env t'.env
  world : t'.world = t.world
  root : G.resumed → t.env.isSuspended G.root

/-- A node of the subtree is under way, with the same slot values on both grounds. -/
structure Inner (t t' : Tick σ) : Prop extends G.Near t t' where
  slots : t.env.SameSlots t'.env

def Goes (I : Tick σ → Tick σ → Prop) (Q : α → Tick σ → Tick σ → Prop) (m m' : TickM σ α) : Prop :=
  ∀ t t', I t t' → (m G.activation t).Matches Q I (m' G.activation t')

/-- Two computations keep a relation between states, and what they give is of a kind. -/
abbrev Gives (I : Tick σ → Tick σ → Prop) (R : α → Prop) (m m' : TickM σ α) : Prop :=
  G.Goes I (fun a u u' => R a ∧ I u u') m m'

abbrev Keeps (I : Tick σ → Tick σ → Prop) (m m' : TickM σ α) : Prop := G.Gives I (fun _ => True) m m'

variable {G} {S S' : Stack → Stack → Prop} {s s' : Stack} {temps temps' : Temps} {env env' : Env} {t t' : Tick σ}
  {x : NodeId} {n : Node} {p : Payload} {l l' : Nat} {I : Tick σ → Tick σ → Prop} {R : α → Prop}
  {Q : α → Tick σ → Tick σ → Prop} {m m' : TickM σ α}

theorem root_subtree : G.Subtree G.root := Relation.ReflTransGen.refl

theorem Fits.root_not_under (hG : G.Fits) : ¬ G.Under G.root := hG.not_under_self G.root

theorem Has.child (hn : G.Has n) (hx : x ∈ n.children) : G.Under x := hn.subtree.child hn.get hx

theorem Fits.has (hG : G.Fits) (hx : G.Subtree x) (hn : G.activation.tree.get? x = some n) : G.Has n := by
  obtain rfl := hG.id_eq hn
  exact ⟨hn, hx⟩

/-! ### Frames -/

namespace Stands

theorem levels (h : G.Stands s s') : G.Levels s.size s'.size := by
  obtain ⟨above, -, hs, hs'⟩ := h
  refine ⟨above.length, ?_, ?_⟩
  · rw [Stack.size, hs, List.length_append, List.length_cons, Stack.size]
  · rw [Stack.size, hs', List.length_append, List.length_cons, Stack.size]

theorem top?_eq (h : G.Stands s s') : s'.top? = s.top? := by
  obtain ⟨above, -, hs, hs'⟩ := h
  rw [Stack.top?, Stack.top?, hs, hs']
  cases above <;> rfl

theorem append (h : G.Stands s s') (saved : Stack) (hsaved : ∀ x ∈ saved.frames, G.Under x) :
    G.Stands (s ++ saved) (s' ++ saved) := by
  obtain ⟨above, habove, hs, hs'⟩ := h
  refine ⟨saved.frames ++ above, List.forall_mem_append.mpr ⟨hsaved, habove⟩, ?_, ?_⟩
  · rw [Stack.frames_append, hs, List.append_assoc]
  · rw [Stack.frames_append, hs', List.append_assoc]

theorem push (h : G.Stands s s') (hx : G.Under x) : G.Stands (s.push x) (s'.push x) :=
  h.append ⟨[x]⟩ (List.forall_mem_singleton.mpr hx)

/-- At levels that belong together the same frames are cut off, all under the root. -/
theorem splitAt (h : G.Stands s s') (hl : G.Levels l l') :
    (s'.splitAt l').2 = (s.splitAt l).2 ∧ (∀ x ∈ (s.splitAt l).2.frames, G.Under x) ∧
      G.Stands (s.splitAt l).1 (s'.splitAt l').1 := by
  obtain ⟨above, habove, hs, hs'⟩ := h
  obtain ⟨k, rfl, rfl⟩ := hl
  have hcut : ∀ base : List NodeId, (above ++ G.root :: base).length - (k + (base.length + 1)) = above.length - k := by
    intro base
    rw [List.length_append, List.length_cons]
    omega
  simp only [Stack.splitAt, Stack.size, hs, hs', hcut]
  rw [List.take_append_of_le_length (Nat.sub_le _ _), List.take_append_of_le_length (Nat.sub_le _ _)]
  refine ⟨rfl, fun x hx => habove x (List.mem_of_mem_take hx), above.drop (above.length - k),
    fun x hx => habove x (List.mem_of_mem_drop hx), ?_, ?_⟩
  · exact List.drop_append_of_le_length (Nat.sub_le _ _)
  · exact List.drop_append_of_le_length (Nat.sub_le _ _)

/-- A node under the root that is on top is above the root. -/
theorem pop (h : G.Stands s s') (hG : G.Fits) (hx : G.Under x) (htop : s.top? = some x) :
    ∃ rest rest', s.frames = x :: rest ∧ s'.frames = x :: rest' ∧ G.Stands ⟨rest⟩ ⟨rest'⟩ := by
  obtain ⟨above, habove, hs, hs'⟩ := h
  rw [Stack.top?, hs] at htop
  cases above with
  | nil =>
    obtain rfl : G.root = x := Option.some.inj htop
    exact absurd hx hG.root_not_under
  | cons y above =>
    obtain rfl : y = x := Option.some.inj htop
    exact ⟨_, _, hs, hs', above, fun z hz => habove z (List.mem_cons_of_mem _ hz), rfl, rfl⟩

/-- If the root is on top then no other frame of the subtree is left. -/
theorem pop_root (h : G.Stands s s') (hG : G.Fits) (htop : s.top? = some G.root) :
    s.frames = G.root :: G.here.stack.frames ∧ s'.frames = G.root :: G.there.stack.frames := by
  obtain ⟨above, habove, hs, hs'⟩ := h
  rw [Stack.top?, hs] at htop
  cases above with
  | nil => exact ⟨hs, hs'⟩
  | cons y above =>
    obtain rfl : y = G.root := Option.some.inj htop
    exact absurd (habove _ List.mem_cons_self) hG.root_not_under

end Stands

/-! ### Payloads -/

namespace Payloads

theorem insert (h : G.Payloads temps temps') (hx : G.Subtree x) (hp : ∀ y ∈ p.nestedFrames, G.Under y) :
    G.Payloads (temps.insert x p) (temps'.insert x p) := by
  refine ⟨fun {y} hy => ?_, fun {y z q} hy hq hz => ?_, fun {y} hy => ?_, fun {y} hy => ?_⟩
  · rw [Temps.get_insert, Temps.get_insert, h.same hy]
  · rw [Temps.get_insert] at hq
    split at hq
    · cases hq
      exact hp z hz
    · exact h.inward hy hq hz
  · rw [Temps.get_insert, if_neg fun he : x = y => hy (he ▸ hx)]
    exact h.here hy
  · rw [Temps.get_insert, if_neg fun he : x = y => hy (he ▸ hx)]
    exact h.there hy

theorem erase (h : G.Payloads temps temps') (hx : G.Subtree x) : G.Payloads (temps.erase x) (temps'.erase x) := by
  refine ⟨fun {y} hy => ?_, fun {y z q} hy hq hz => ?_, fun {y} hy => ?_, fun {y} hy => ?_⟩
  · rw [Temps.get_erase, Temps.get_erase, h.same hy]
  · rw [Temps.get_erase] at hq
    split at hq
    · cases hq
    · exact h.inward hy hq hz
  · rw [Temps.get_erase, if_neg fun he : x = y => hy (he ▸ hx)]
    exact h.here hy
  · rw [Temps.get_erase, if_neg fun he : x = y => hy (he ▸ hx)]
    exact h.there hy

/-- Frames under the root lead to nodes under the root, and to the same ones on both grounds. -/
theorem leads (h : G.Payloads temps temps') {frames : List NodeId} (hf : ∀ y ∈ frames, G.Under y) :
    (temps.Leads frames x → G.Under x) ∧ (temps'.Leads frames x ↔ temps.Leads frames x) := by
  have hin : ∀ {y}, temps.Leads frames y → G.Under y := fun hy =>
    hy.closed hf fun _ _ hz hp _ hw => h.inward hz.subtree hp hw
  have hin' : ∀ {y}, temps'.Leads frames y → G.Under y := fun hy =>
    hy.closed hf fun _ _ hz hp _ hw => h.inward hz.subtree ((h.same hz.subtree).symm.trans hp) hw
  refine ⟨hin, fun hx => ?_, fun hx => ?_⟩
  · exact hx.mono (fun _ => .frame) fun y q hy hq => (h.same (hin' hy).subtree).symm.trans hq
  · exact hx.mono (fun _ => .frame) fun y q hy hq => (h.same (hin hy).subtree).trans hq

theorem clear (h : G.Payloads temps temps') {saved : Stack} (hs : ∀ y ∈ saved.frames, G.Under y) :
    G.Payloads (saved.clear temps) (saved.clear temps') := by
  refine ⟨fun {x} hx => ?_, fun {x y q} hx hq hy => h.inward hx (Stack.getElem?_of_clear hq) hy, fun {x} hx => ?_,
    fun {x} hx => ?_⟩
  · by_cases hl : temps.Leads saved.frames x
    · rw [Stack.getElem?_clear_of_leads hl, Stack.getElem?_clear_of_leads ((h.leads hs).2.mpr hl)]
    · rw [Stack.getElem?_clear_of_not_leads hl,
        Stack.getElem?_clear_of_not_leads fun hl' => hl ((h.leads hs).2.mp hl')]
      exact h.same hx
  · rw [Stack.getElem?_clear_of_not_leads fun hl => hx ((h.leads hs).1 hl).subtree]
    exact h.here hx
  · rw [Stack.getElem?_clear_of_not_leads fun hl => hx ((h.leads hs).1 ((h.leads hs).2.mp hl)).subtree]
    exact h.there hx

theorem clear_root (h : G.Payloads temps temps') (hG : G.Fits) {saved : Stack} (hs : ∀ y ∈ saved.frames, G.Under y) :
    (saved.clear temps)[G.root]? = temps[G.root]? :=
  Stack.getElem?_clear_of_not_leads fun hl => hG.root_not_under ((h.leads hs).1 hl)

end Payloads

/-! ### States -/

namespace Like

variable (h : G.Like S env env')
include h

theorem vars : env'.vars = env.vars := by
  obtain ⟨_, _, _, _, _, rfl⟩ := h.same
  rfl

theorem get? : env'.get? = env.get? := by
  unfold Env.get?
  rw [h.vars]

theorem lastStatus : env'.lastStatus = env.lastStatus := by
  obtain ⟨_, _, _, _, _, rfl⟩ := h.same
  rfl

theorem privates : env'.privates = env.privates := by
  obtain ⟨_, _, _, _, _, rfl⟩ := h.same
  rfl

theorem listening : env'.listening = env.listening := by
  obtain ⟨_, _, _, _, _, rfl⟩ := h.same
  rfl

theorem isSuspended (hx : G.Subtree x) : env'.isSuspended x = env.isSuspended x := by
  rw [Env.isSuspended_eq, Env.isSuspended_eq, h.payloads.same hx]

/-- Something changes that is neither a frame nor a payload nor parked, and that does not depend on these. -/
theorem edit (g g' : Env → Env)
    (hg : ∀ env stack temps detached input output, ∃ input' output',
      g' { env with stack, temps, detached, input, output } =
        { g env with stack, temps, detached, input := input', output := output' })
    (hstack : (g env).stack = env.stack) (htemps : (g env).temps = env.temps)
    (hdetached : (g env).detached = env.detached) : G.Like S (g env) (g' env') := by
  obtain ⟨stack, temps, detached, input, output, rfl⟩ := h.same
  obtain ⟨input', output', heq⟩ := hg env stack temps detached input output
  refine ⟨?_, ?_, hdetached.trans h.detached, ?_, stack, temps, detached, input', output', heq⟩
  · rw [heq, hstack]
    exact h.stack
  · rw [heq, htemps]
    exact h.payloads
  · rw [heq]
    exact h.detached'

theorem setStack (hs : S' s s') : G.Like S' { env with stack := s } { env' with stack := s' } := by
  obtain ⟨stack, temps, detached, input, output, rfl⟩ := h.same
  exact ⟨hs, h.payloads, h.detached, h.detached', s', temps, detached, input, output, rfl⟩

theorem setTemps (htemps : G.Payloads temps temps') :
    G.Like S { env with temps } { env' with temps := temps' } := by
  obtain ⟨stack, _, detached, input, output, rfl⟩ := h.same
  exact ⟨h.stack, htemps, h.detached, h.detached', stack, temps', detached, input, output, rfl⟩

end Like

namespace Near

variable (h : G.Near t t')
include h

theorem setPayload (hx : G.Subtree x) (hp : ∀ y ∈ p.nestedFrames, G.Under y) :
    G.Near { t with env := t.env.setPayload x p } { t' with env := t'.env.setPayload x p } :=
  ⟨h.env.setTemps (h.env.payloads.insert hx hp), h.world,
    fun hr => (Env.isSuspended_setPayload t.env x G.root p).mpr (.inr (h.root hr))⟩

theorem setStack (hs : G.Stands s s') :
    G.Near { t with env := { t.env with stack := s } } { t' with env := { t'.env with stack := s' } } :=
  ⟨h.env.setStack hs, h.world, h.root⟩

/-- Something changes on both grounds that is neither a frame nor a payload nor parked. -/
theorem edit (g g' : Env → Env)
    (hg : ∀ env stack temps detached input output, ∃ input' output',
      g' { env with stack, temps, detached, input, output } =
        { g env with stack, temps, detached, input := input', output := output' })
    (hstack : (g t.env).stack = t.env.stack) (htemps : (g t.env).temps = t.env.temps)
    (hdetached : (g t.env).detached = t.env.detached) :
    G.Near { t with env := g t.env } { t' with env := g' t'.env } := by
  refine ⟨h.env.edit g g' hg hstack htemps hdetached, h.world, fun hr => ?_⟩
  have hroot := h.root hr
  unfold Env.isSuspended at hroot ⊢
  rwa [htemps]

theorem abandon (hG : G.Fits) (hs : ∀ y ∈ s.frames, G.Under y) :
    G.Near { t with env := t.env.abandon s } { t' with env := t'.env.abandon s } := by
  refine ⟨h.env.setTemps (h.env.payloads.clear hs), h.world, fun hr => ?_⟩
  have hroot := h.root hr
  rw [Env.isSuspended_eq] at hroot ⊢
  exact (congrArg Option.isSome (h.env.payloads.clear_root hG hs)).trans hroot

end Near

/-! ### Rules -/

/-- A relation between states with the same world, whatever that is. -/
structure Worldly (I : Tick σ → Tick σ → Prop) : Prop where
  same {t t' : Tick σ} : I t t' → t'.world = t.world
  set {t t' : Tick σ} : I t t' → ∀ w, I { t with world := w } { t' with world := w }

theorem worldly_near : Worldly (G.Near (σ := σ)) := ⟨Near.world, fun h _ => ⟨h.env, rfl, h.root⟩⟩

theorem worldly_inner : Worldly (G.Inner (σ := σ)) :=
  ⟨fun h => h.world, fun h w => ⟨worldly_near.set h.toNear w, h.slots⟩⟩

namespace Goes

variable {f f' : β → TickM σ α} {k k' : TickM σ β} {C : β → Prop}

theorem mono (h : G.Goes I Q m m') {Q' : α → Tick σ → Tick σ → Prop} (hq : ∀ a u u', Q a u u' → Q' a u u') :
    G.Goes I Q' m m' := fun t t' ht => (h t t' ht).mono (fun a u u' _ => hq a u u') fun _ _ => id

theorem keeps (h : G.Gives I R m m') : G.Keeps I m m' := h.mono fun _ _ _ hu => ⟨trivial, hu.2⟩

theorem pure {a : α} (h : R a) : G.Gives I R (pure a) (Pure.pure a) := fun _ _ ht => ⟨rfl, h, ht⟩

theorem done (a : α) : G.Keeps I (Pure.pure a) (Pure.pure a) := pure trivial

theorem fail (e : RunError) : G.Goes I Q (TickM.fail e) (TickM.fail e) := fun _ _ ht => ⟨rfl, ht⟩

theorem halt (h : Halt) : G.Goes I Q (TickM.halt h) (TickM.halt h) := fun _ _ _ => rfl

theorem bind (h : G.Gives I C k k') (hf : ∀ b, C b → G.Goes I Q (f b) (f' b)) :
    G.Goes I Q (k >>= f) (k' >>= f') := fun t t' ht =>
  (h t t' ht).bind (fun _ _ => id) fun b u u' hu => hf b hu.1 u u' hu.2

theorem andThen (h : G.Keeps I k k') (hf : ∀ b, G.Goes I Q (f b) (f' b)) : G.Goes I Q (k >>= f) (k' >>= f') :=
  bind h fun b _ => hf b

theorem ite {P : Prop} [Decidable P] {n n' : TickM σ α} (hm : G.Goes I Q m m') (hn : G.Goes I Q n n') :
    G.Goes I Q (if P then m else n) (if P then m' else n') := by
  split
  · exact hm
  · exact hn

theorem forM {xs : List β} {f : β → TickM σ PUnit} (hf : ∀ x ∈ xs, G.Keeps I (f x) (f x)) :
    G.Keeps I (xs.forM f) (xs.forM f) := by
  induction xs with
  | nil => exact done _
  | cons x xs ih => exact (hf x List.mem_cons_self).andThen fun _ => ih fun y hy => hf y (List.mem_cons_of_mem _ hy)

theorem tree {f g : Tree → TickM σ α} (hf : G.Goes I Q (f G.activation.tree) (g G.activation.tree)) :
    G.Goes I Q (TickM.tree >>= f) (TickM.tree >>= g) := fun t t' ht => hf t t' ht

theorem owner {f f' : Tag → TickM σ α} (hf : G.Goes I Q (f G.activation.owner) (f' G.activation.owner)) :
    G.Goes I Q (TickM.owner >>= f) (TickM.owner >>= f') := fun t t' ht => hf t t' ht

theorem rejectPayload (site : Site) : G.Goes I Q (TickM.rejectPayload site) (TickM.rejectPayload site) :=
  tree (fail _)

theorem rejectStatus (site : Site) (status : Status) :
    G.Goes I Q (TickM.rejectStatus site status) (TickM.rejectStatus site status) := tree (fail _)

theorem element {items : List β} {i : Nat} (hf : ∀ b ∈ items, G.Goes I Q (f b) (f' b)) :
    G.Goes I Q (TickM.element items i >>= f) (TickM.element items i >>= f') := by
  unfold TickM.element
  split
  · rename_i b hb
    exact hf b (List.mem_of_getElem? hb)
  · exact halt _

/-- A child of a node of the subtree is under the root. -/
theorem child {i : Nat} {f f' : NodeId → TickM σ α} (hn : G.Has n) (hf : ∀ k, G.Under k → G.Goes I Q (f k) (f' k)) :
    G.Goes I Q (TickM.child n.toSite i >>= f) (TickM.child n.toSite i >>= f') := element fun k hk => hf k (hn.child hk)

theorem node {f g : Node → TickM σ α} (hG : G.Fits) (hx : G.Subtree x)
    (hf : ∀ n, n.id = x → G.Has n → G.Goes I Q (f n) (g n)) :
    G.Goes I Q (TickM.node x >>= f) (TickM.node x >>= g) := by
  intro t t' ht
  unfold TickM.node
  rw [bind_assoc, bind_assoc]
  refine tree (f := fun tree => _ >>= f) (g := fun tree => _ >>= g) ?_ t t' ht
  cases hn : G.activation.tree.get? x with
  | some n => exact hf n (hG.id_eq hn) (hG.has hx hn)
  | none => exact fail _

/-- What is done to the world is done on both grounds. -/
theorem onWorld (hI : Worldly I) (m : WorldM σ α) : G.Keeps I (TickM.onWorld m) (TickM.onWorld m) := by
  intro t t' ht
  have hsame := hI.same ht
  unfold TickM.onWorld
  rw [hsame]
  cases m.run t.world with
  | ok r => exact ⟨rfl, trivial, hI.set ht r.2⟩
  | error h => rfl

theorem modifyWorld (hI : Worldly I) (g : World σ → World σ) :
    G.Keeps I (TickM.modifyWorld g) (TickM.modifyWorld g) := by
  intro t t' ht
  have hset := hI.set ht (g t.world)
  unfold TickM.modifyWorld
  rw [hI.same ht]
  exact ⟨rfl, trivial, hset⟩

theorem world (hI : Worldly I) : G.Keeps I TickM.world TickM.world := fun _ _ ht => ⟨hI.same ht, trivial, ht⟩

theorem report (hI : Worldly I) (r : String → Report) : G.Keeps I (TickM.report r) (TickM.report r) :=
  tree (modifyWorld hI _)

theorem observe (hI : Worldly I) (a : Activity) : G.Keeps I (TickM.observe a) (TickM.observe a) :=
  owner (modifyWorld hI _)

theorem time (hI : Worldly I) : G.Keeps I TickM.time TickM.time := (world hI).andThen fun _ => done _

theorem interrupted (hI : Worldly I) : G.Keeps I TickM.interrupted TickM.interrupted :=
  (world hI).andThen fun _ => owner (done _)

theorem interrupt (hI : Worldly I) : G.Keeps I TickM.interrupt TickM.interrupt :=
  owner ((observe hI _).andThen fun _ => modifyWorld hI _)

/-- What gives its caller's slot values back may be called by a node. -/
theorem inner (h : G.Keeps G.Near m m') (hm : m.Restores) (hm' : m'.Restores) : G.Keeps G.Inner m m' := by
  intro t t' ht
  have hends := h t t' ht.toNear
  have hslots := hm G.activation t
  have hslots' := hm' G.activation t'
  have hsame : ∀ {u u' : Tick σ}, G.Near u u' → t.env.SameSlots u.env → t'.env.SameSlots u'.env → G.Inner u u' :=
    fun hu hs hs' => ⟨hu, hs'.input.trans (ht.slots.input.trans hs.input.symm),
      hs'.output.trans (ht.slots.output.trans hs.output.symm)⟩
  cases ho : m G.activation t <;> cases ho' : m' G.activation t' <;> rw [ho, ho'] at hends <;> rw [ho] at hslots <;>
    rw [ho'] at hslots'
  case ok.ok => exact ⟨hends.1, trivial, hsame hends.2.2 hslots hslots'⟩
  case failed.failed => exact ⟨hends.1, hsame hends.2 hslots hslots'⟩
  case halted.halted => exact hends
  all_goals exact hends.elim

theorem bindEnv {f g : Env → TickM σ α}
    (hf : ∀ env env', G.Like G.Stands env env' → env.SameSlots env' → G.Goes G.Inner Q (f env) (g env')) :
    G.Goes G.Inner Q (TickM.env >>= f) (TickM.env >>= g) := fun t t' ht => hf _ _ ht.env ht.slots t t' ht

theorem setStack (hs : G.Stands s s') :
    G.Keeps (σ := σ) G.Inner (TickM.modifyEnv fun env => { env with stack := s })
      (TickM.modifyEnv fun env => { env with stack := s' }) :=
  fun _ _ ht => ⟨rfl, trivial, ht.toNear.setStack hs, ht.slots.input, ht.slots.output⟩

theorem set (name : String) (value : Option Value) :
    G.Keeps (σ := σ) G.Inner (TickM.modifyEnv (·.set name value)) (TickM.modifyEnv (·.set name value)) :=
  fun _ _ ht => ⟨rfl, trivial,
    ht.toNear.edit (·.set name value) (·.set name value) (fun _ _ _ _ input output => ⟨input, output, rfl⟩)
      rfl rfl rfl, ht.slots.input, ht.slots.output⟩

theorem pushOutput (value : Option Value) :
    G.Keeps (σ := σ) G.Inner (Engine.pushOutput value) (Engine.pushOutput value) :=
  fun _ _ ht => ⟨rfl, trivial,
    ht.toNear.edit (·.pushOutput value) (·.pushOutput value)
      (fun _ _ _ _ input output => ⟨input, output ++ [value], rfl⟩) rfl rfl rfl,
    ht.slots.input, congrArg (· ++ [value]) ht.slots.output⟩

theorem suspend (hn : G.Has n) (hp : ∀ y ∈ p.nestedFrames, G.Under y) :
    G.Keeps (σ := σ) G.Inner (TickM.suspend n.toSite p) (TickM.suspend n.toSite p) :=
  fun _ _ ht => ⟨rfl, trivial, ht.toNear.setPayload hn.subtree hp, ht.slots.input, ht.slots.output⟩

theorem suspendFlat (hn : G.Has n) (hp : p.nested = []) :
    G.Keeps (σ := σ) G.Inner (TickM.suspend n.toSite p) (TickM.suspend n.toSite p) :=
  suspend hn (by simp [Payload.nestedFrames, hp])

theorem abandon (hG : G.Fits) (hs : ∀ y ∈ s.frames, G.Under y) :
    G.Keeps (σ := σ) G.Inner (TickM.abandon s) (TickM.abandon s) :=
  fun _ _ ht => ⟨rfl, trivial, ht.toNear.abandon hG hs, ht.slots.input, ht.slots.output⟩

/-- The payload of a node is the same on both grounds and names nodes under the root. -/
theorem saved? (hn : G.Has n) {f g : Option Payload → TickM σ α}
    (hf : ∀ saved, (∀ p, saved = some p → ∀ y ∈ p.nestedFrames, G.Under y) → G.Goes G.Inner Q (f saved) (g saved)) :
    G.Goes G.Inner Q (TickM.saved? n.toSite >>= f) (TickM.saved? n.toSite >>= g) := by
  refine bindEnv (f := fun env => f env.temps[n.id]?) (g := fun env => g env.temps[n.id]?) fun env env' h _ => ?_
  rw [h.payloads.same hn.subtree]
  exact hf _ fun p hp y hy => h.payloads.inward hn.subtree hp hy

theorem childStatus (site : Site) : G.Keeps (σ := σ) G.Inner (TickM.childStatus site) (TickM.childStatus site) := by
  refine bindEnv fun env env' h _ => ?_
  rw [h.lastStatus]
  cases env.lastStatus with
  | running => exact rejectStatus _ _
  | success => exact done _
  | failure => exact done _

/-- The same frames are cut off on both grounds, all under the root. -/
theorem capture (status : Status) (hl : G.Levels l l') :
    G.Gives (σ := σ) G.Inner (fun left => ∀ y ∈ left.frames, G.Under y) (TickM.capture status l)
      (TickM.capture status l') := by
  cases status with
  | running =>
    refine bindEnv fun env env' h _ => ?_
    obtain ⟨hsame, hunder, hstands⟩ := h.stack.splitAt hl
    refine (setStack hstands).andThen fun _ => ?_
    change G.Goes _ _ (Pure.pure (env.stack.splitAt l).2) (Pure.pure (env'.stack.splitAt l').2)
    rw [hsame]
    exact pure hunder
  | success => exact pure (List.forall_mem_nil _)
  | failure => exact pure (List.forall_mem_nil _)

end Goes

end Graft

end BehaviorTree
