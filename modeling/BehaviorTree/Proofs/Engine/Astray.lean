import BehaviorTree.Proofs.Engine.Turns
import BehaviorTree.Proofs.World.Sharing

/-!
Where the calls of a node go. A node calls nodes below it only, and finds them in order: to be run afresh, or poised.
So it does the same if all other calls go astray, and what is known of calls in order of nodes below is known of all
that it calls.
-/

namespace BehaviorTree
set_option autoImplicit false

open TickM

variable {σ α β : Type} {R : Rules σ} {c : Activation} {t u : Tick σ} {e e' : Engine σ} {s : Stance}
  {P : NodeId → Prop} {id : NodeId} {level : Nat}

/-- A computation comes to an end: it gives a result or fails. -/
def Outcome.Ends (o : Outcome σ α) : Prop := o.Meets (fun _ _ => True) (fun _ _ => True) fun _ => False

theorem Outcome.Ends.ne_halted {o : Outcome σ α} (h : o.Ends) (halt : Halt) : o ≠ .halted halt := by
  rintro rfl
  exact h

/-- A computation that calls do not nest too deep for ends if it meets a description. -/
theorem Outcome.Meets.ends_of_ne {o : Outcome σ α} {Q : α → Tick σ → Prop} {E : RunError → Tick σ → Prop}
    (h : o.Meets Q E) (hn : o ≠ .halted .tooDeep) : o.Ends := by
  cases o with
  | ok a t => trivial
  | failed err t => trivial
  | halted halt =>
    obtain rfl : halt = .tooDeep := h
    exact absurd rfl hn

namespace Tick

/-- A node is called in order: it is about to be run afresh, or it is poised. -/
def Calls (R : Rules σ) (c : Activation) (id : NodeId) (t : Tick σ) : Prop :=
  t.Fresh R c id ∨ ∃ n p base, n.id = id ∧ t.Poised R c n p base

def Reenters (R : Rules σ) (c : Activation) (level : Nat) (t : Tick σ) : Prop :=
  ∃ id base, base.length = level ∧ t.Resumes R c id base

end Tick

namespace TickM

def astray : RunError := .unknownNode "" ⟨0⟩

theorem not_blames_astray (tree : Tree) : ¬ tree.Blames astray := by
  intro h
  cases h

open Classical in
noncomputable def demand (P : Activation → Tick σ → Prop) (m : TickM σ α) : TickM σ α := fun c t =>
  if P c t then m c t else fail astray c t

def trespass (id : NodeId) : TickM σ α := do
  observe (.returned id none)
  fail astray

/-- Two computations do the same, and halt for reasons of a kind only; but the second may go astray, into states of a
kind. -/
def Strays (c : Activation) (H : Halt → Prop) (B : Tick σ → Prop) : TickM.Relation σ := fun _ m m' =>
  ∀ t, (m' c t = m c t ∧ ∀ h, m c t = .halted h → H h) ∨ ∃ u, m' c t = .failed astray u ∧ B u

namespace Strays

variable {H : Halt → Prop} {B : Tick σ → Prop} {m m' : TickM σ α} {f f' : α → TickM σ β} {Fits : Node → Prop}

theorem gives (hm : ∀ t, ∃ a u, m c t = .ok a u) : (Strays c H B).Self m := by
  refine fun t => .inl ⟨rfl, fun h hh => ?_⟩
  obtain ⟨a, u, hu⟩ := hm t
  rw [hu] at hh
  cases hh

theorem bind (h : Strays c H B _ m m') (hf : ∀ a, Strays c H B _ (f a) (f' a)) :
    Strays c H B _ (m >>= f) (m' >>= f') := by
  intro t
  rw [bind_apply, bind_apply]
  rcases h t with ⟨heq, hh⟩ | ⟨u, hu, hb⟩
  · rw [heq]
    cases hm : m c t with
    | ok a u => exact hf a u
    | failed err u =>
      refine .inl ⟨rfl, fun halt hhalt => ?_⟩
      cases hhalt
    | halted halt =>
      refine .inl ⟨rfl, fun h hhalt => ?_⟩
      cases hhalt
      exact hh halt hm
  · rw [hu]
    exact .inr ⟨u, rfl, hb⟩

theorem composes (hH : H .outOfRange) (hfits : ∀ id n, c.tree.get? id = some n → Fits n) :
    TickM.Composes c.owner (fun _ => True) Fits (Strays (σ := σ) c H B) where
  pure a := gives fun t => ⟨a, t, rfl⟩
  bind := bind
  fail err := by
    refine fun t => .inl ⟨rfl, fun h hh => ?_⟩
    cases hh
  range := by
    refine fun t => .inl ⟨rfl, fun h hh => ?_⟩
    cases hh
    exact hH
  bindOwner h := h
  bindTree h := h c.tree hfits
  bindEnv h t := h t.env t.env (.refl _ _) t
  time := gives fun t => ⟨_, _, rfl⟩
  interrupted := gives fun t => ⟨_, _, rfl⟩
  edit hf := by
    rw [funext fun env => (hf.like (.refl _ env)).eq]
    exact gives fun t => ⟨_, _, rfl⟩
  remember _ _ _ _ := gives fun t => ⟨_, _, rfl⟩
  record _ := gives fun t => ⟨_, _, rfl⟩
  interrupt := gives fun t => ⟨_, _, rfl⟩
  delay _ _ _ := gives fun t => ⟨_, _, rfl⟩

/-- If calls stray only so, then so does every node that dispatches nothing. -/
theorem behave (hH : H .outOfRange) (hquiet : c.tree.Quiet)
    (hrun : ∀ id, Strays c H B _ (e.run id) (e'.run id))
    (hresume : ∀ level, Strays c H B _ (e.resume level) (e'.resume level)) {n : Node}
    (hn : c.tree.get? id = some n) :
    Strays c H B _ (e.behave n.toSite n.behavior) (e'.behave n.toSite n.behavior) := by
  have hcomposes := composes (B := B) hH hquiet
  by_cases hlisten : ∃ event, n.behavior = .listen event
  · obtain ⟨event, hb⟩ := hlisten
    rw [hb]
    refine hcomposes.listen _ fun target _ => hcomposes.bindOwner (hcomposes.bind (hcomposes.child _ _) fun only => ?_)
    refine bind (gives fun t => ⟨_, _, rfl⟩) fun _ => bind (gives fun t => ⟨_, _, rfl⟩) fun _ => ?_
    exact hcomposes.bind (hcomposes.report _) fun _ => hcomposes.pure _
  · have hcalls : Engine.Calls c.owner (fun _ => True) Node.Quiet (Strays c H B) e e' :=
      { hcomposes with
        heeds := fun _ => Node.heeds_all _
        run := hrun
        resume := hresume
        dispatch := fun hn hb => absurd hb (hn _) }
    exact hcalls.behave (hquiet id n hn) fun event hb => hlisten ⟨event, hb⟩

end Strays

end TickM

open Classical in
noncomputable def Stack.other? (s : Stack) (P : NodeId → Prop) : Option NodeId := s.frames.find? fun x => ¬ P x

theorem Stack.of_other? {s : Stack} {x : NodeId} (h : s.other? P = some x) : x ∈ s.frames ∧ ¬ P x :=
  ⟨List.mem_of_find?_eq_some h, by simpa using List.find?_some h⟩

theorem Stack.of_other?_eq_none {s : Stack} (h : s.other? P = none) : ∀ x ∈ s.frames, P x :=
  fun x hx => by simpa using List.find?_eq_none.mp h x hx

namespace Engine

noncomputable def wary (R : Rules σ) (e : Engine σ) : Engine σ :=
  { e with
    run := fun id => demand (fun c t => t.Calls R c id) (e.run id)
    resume := fun level => demand (fun c t => t.Reenters R c level) (e.resume level) }

open Classical in
noncomputable def fenced (P : NodeId → Prop) (e : Engine σ) : Engine σ :=
  { e with
    run := fun id => if P id then e.run id else trespass id
    resume := fun level => do
      let env ← env
      match (env.stack.splitAt level).2.other? P with
      | some x => trespass x
      | none => e.resume level }

end Engine

/-- Calls in order of nodes of a kind come to an end. -/
structure Engine.Lasts (e : Engine σ) (R : Rules σ) (c : Activation) (P : NodeId → Prop) : Prop where
  run {id : NodeId} {t : Tick σ} : P id → t.Calls R c id → (e.run id c t).Ends
  resume {level : Nat} {t : Tick σ} : t.Reenters R c level → (∀ x ∈ (t.env.stack.splitAt level).2.frames, P x) →
    (e.resume level c t).Ends

namespace Zone.Stays

variable {z : Zone c.tree} {frames : List NodeId} {m : TickM σ α} {Q : α → List NodeId → Prop}

theorem demand (h : z.Stays R frames m Q) (P : Activation → Tick σ → Prop) : z.Stays R frames (demand P m) Q := by
  intro t t' hf hs
  unfold TickM.demand
  split
  · exact h t t' hf hs
  · exact hf

theorem trespass (hz : z.calls id) : z.Stays R frames (trespass (σ := σ) id) Q := by
  intro t t' hf _
  refine hf.observe rfl rfl rfl rfl fun x hx => ?_
  obtain rfl : id = x := Option.some.inj hx
  exact hz

end Zone.Stays

namespace Engine

theorem Confined.wary (he : e.Confined R) : (e.wary R).Confined R :=
  ⟨fun hid hfl => (he.run hid hfl).demand _, fun hl hfl hr => (he.resume hl hfl hr).demand _⟩

theorem Sound.wary (he : e.Sound R) : (e.wary R).Sound R := by
  refine ⟨⟨he.honors.hear, he.honors.alarm⟩, he.confined.wary, ?_, ?_, ?_⟩
  · intro c id t h
    have hsame : (e.wary R).run id c t = e.run id c t := if_pos (.inl h)
    rw [hsame]
    exact he.fresh h
  · intro c n p base t h
    have hsame : (e.wary R).run n.id c t = e.run n.id c t := if_pos (.inr ⟨n, p, base, rfl, h⟩)
    rw [hsame]
    exact he.poised h
  · intro c id base t h
    have hsame : (e.wary R).resume base.length c t = e.resume base.length c t := if_pos ⟨id, base, rfl, h⟩
    rw [hsame]
    exact he.resumes h

/-- What is on the stack above the frames of a zone is of the zone. -/
theorem Confined.fenced (he : e.Confined R) (P : NodeId → Prop) : (e.fenced P).Confined R := by
  refine ⟨fun {c z id frames} hid hfl => ?_, fun {c z id frames frames'} hl hfl hr => ?_⟩
  · dsimp only [Engine.fenced]
    split
    · exact he.run hid hfl
    · exact .trespass hid
  · refine .bind .env ?_
    rintro env frames'' ⟨rfl, henv, hframes⟩
    split
    · rename_i x hx
      refine .trespass ?_
      obtain ⟨above, habove, hadmits⟩ := henv.frames
      have hmem : x ∈ (env.stack.splitAt frames.length).2.frames := (Stack.of_other? hx).1
      have htake : x ∈ (above ++ z.base).take ((above ++ z.base).length - frames.length) := by
        rw [← habove]
        exact hmem
      rw [List.take_append_of_le_length (by rw [List.length_append]; omega)] at htake
      exact (hadmits x (List.mem_of_mem_take htake)).1
    · exact he.resume hl hfl hr

section Fence

variable {H : Halt → Prop} {B : Tick σ → Prop}

/-- Calls of an engine stray on another ground only where they do so inside of a fence, or where it stands. -/
theorem strays_fenced (hrun : ∀ id, P id → Strays c H B _ (e.run id) (e'.run id))
    (hresume : ∀ level t, (∀ x ∈ (t.env.stack.splitAt level).2.frames, P x) →
      (e'.resume level c t = e.resume level c t ∧ ∀ h, e.resume level c t = .halted h → H h) ∨
        ∃ u, e'.resume level c t = .failed astray u ∧ B u)
    (hout : ∀ (id : NodeId) (t : Tick σ), ¬ P id → B { t with world := t.world.observe c.owner (.returned id none) }) :
    (∀ id, Strays c H B _ (e.run id) ((e'.fenced P).run id)) ∧
      ∀ level, Strays c H B _ (e.resume level) ((e'.fenced P).resume level) := by
  refine ⟨fun id => ?_, fun level t => ?_⟩
  · dsimp only [Engine.fenced]
    split
    · rename_i hid
      exact hrun id hid
    · rename_i hid
      exact fun t => .inr ⟨_, rfl, hout id t hid⟩
  · dsimp only [Engine.fenced]
    rw [bind_apply]
    dsimp only [TickM.env]
    cases hother : (t.env.stack.splitAt level).2.other? P with
    | some x => exact .inr ⟨_, rfl, hout x t (Stack.of_other? hother).2⟩
    | none => exact hresume level t (Stack.of_other?_eq_none hother)

end Fence

theorem Sound.fenced_behave (he : e.Sound R) (hquiet : c.tree.Quiet) (h : t.Begins R c s)
    (hbelow : ∀ x, c.tree.Below s.node.id x → P x) {acts : List Activity} {resumed : Bool}
    (hacts : t.world.acts c.owner = acts ++ [.called s.node.id resumed]) :
    (e.fenced P).behave s.node.toSite s.node.behavior c t = e.behave s.node.toSite s.node.behavior c t := by
  have ht := h.stands.orderly
  let Marked (u : Tick σ) : Prop :=
    ∃ (x : NodeId) (acts : List Activity), ¬ P x ∧ u.world.acts c.owner = acts ++ [.returned x none]
  have hself : ∀ id, P id → (Strays c (fun _ => True) Marked).Self (e.run id) :=
    fun id _ t => .inl ⟨rfl, fun _ _ => trivial⟩
  have hstrays := strays_fenced hself (fun level t _ => .inl ⟨rfl, fun _ _ => trivial⟩)
    fun id t hid => ⟨id, t.world.acts c.owner, hid, by simp⟩
  rcases Strays.behave trivial hquiet hstrays.1 hstrays.2 h.stands.get t with ⟨hsame, -⟩ | ⟨u, hu, x, acts', hx, hu'⟩
  · exact hsame
  · -- A call outside of the fence leaves a mark, which is not of the zone that the node is confined to.
    have hconfined : (e.fenced P).Confined R := he.confined.fenced P
    have hstays := Confined.behave (z := Zone.inside s.node.id s.base ht h.stands.apart) ht h.stands.get (.refl _)
      hconfined ⟨he.honors.hear, he.honors.alarm⟩ (fun hz => hz.elim) _ _ (.refl h.stands.runs h.holds) rfl
    rw [hu] at hstays
    obtain ⟨more, hmore, hseen⟩ := hstays.seen
    exfalso
    rcases more.eq_nil_or_concat with rfl | ⟨init, a, rfl⟩
    · rw [hu', List.append_nil, hacts] at hmore
      have hlast := List.append_inj_right' hmore rfl
      simp at hlast
    · rw [hu', List.concat_eq_append, ← List.append_assoc] at hmore
      have hlast := List.append_inj_right' hmore rfl
      have ha : a = .returned x none := by simpa using hlast.symm
      exact hx (hbelow x (hseen a (by simp) x (by rw [ha]; rfl)))

/-- What a node is there for comes to an end if all calls in order of nodes below it do. -/
theorem Sound.behave_ends (he : e.Sound R) (hlasts : e.Lasts R c P)
    (hquiet : c.tree.Quiet) (h : t.Begins R c s) (hbelow : ∀ x, c.tree.Below s.node.id x → P x)
    {acts : List Activity} {resumed : Bool} (hacts : t.world.acts c.owner = acts ++ [.called s.node.id resumed]) :
    (e.behave s.node.toSite s.node.behavior c t).Ends := by
  have hrun : ∀ id, P id → Strays c (· = .outOfRange) (fun _ => True) _ (e.run id) ((e.wary R).run id) := by
    intro id hid t
    by_cases hcalls : t.Calls R c id
    · exact .inl ⟨if_pos hcalls, fun h hh => absurd hh ((hlasts.run hid hcalls).ne_halted h)⟩
    · exact .inr ⟨t, if_neg hcalls, trivial⟩
  have hresume : ∀ level t, (∀ x ∈ (t.env.stack.splitAt level).2.frames, P x) →
      ((e.wary R).resume level c t = e.resume level c t ∧ ∀ h, e.resume level c t = .halted h → h = .outOfRange) ∨
        ∃ u, (e.wary R).resume level c t = .failed astray u ∧ True := by
    intro level t habove
    by_cases hre : t.Reenters R c level
    · exact .inl ⟨if_pos hre, fun h hh => absurd hh ((hlasts.resume hre habove).ne_halted h)⟩
    · exact .inr ⟨t, if_neg hre, trivial⟩
  obtain ⟨hruns, hresumes⟩ := strays_fenced hrun hresume fun _ _ _ => trivial
  have hnode := Strays.behave (by rfl) hquiet hruns hresumes h.stands.get t
  rcases hnode with ⟨-, hhalts⟩ | ⟨u, hu, -⟩
  · refine (he.behave h).ends_of_ne fun hdeep => ?_
    cases hhalts _ hdeep
  · -- No call of the node goes astray, for no tree is to blame for that.
    have hfalls := he.wary.behave h
    rw [← he.wary.fenced_behave hquiet h hbelow hacts, hu] at hfalls
    exact absurd hfalls.blames (not_blames_astray _)

end Engine

end BehaviorTree
