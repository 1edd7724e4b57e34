import BehaviorTree.Proofs.World.Abandonment

/-!
Nothing is asked for that is not there: no child, no branch of a case, no element of an array, and nothing that a
parallel node or a race has saved for a child. Nodes look these up by positions that they may have saved many ticks
ago. That they are there rests on what loading has checked, and on the payloads that nodes leave.
-/

namespace BehaviorTree
set_option autoImplicit false

open TickM

variable {σ α β : Type} {R : Rules σ}

namespace Engine

variable (e : Engine σ)

/-- Steps the children from a position on, each with what is saved at its position. -/
def stepFrom (fresh : Bool) (saved : List (Option Stack)) (i : Nat) : List NodeId → TickM σ (List (Option Stack))
  | [] => return []
  | id :: ids => do
    let mine ← element saved i
    if !fresh && mine.isNone then
      return none :: (← stepFrom fresh saved (i + 1) ids)
    else
      let (status, left) ← e.stepBranch id (if fresh then none else mine)
      let here := if status = .running then some left else none
      return here :: (← stepFrom fresh saved (i + 1) ids)

/-- Lets the children from a position on race, each with what is saved at its position. -/
def raceFrom (fresh : Bool) (saved : List (Option Stack)) (i : Nat) (passed : List (Option Stack)) :
    List NodeId → TickM σ (Bool × List (Option Stack))
  | [] => return (false, passed.reverse)
  | id :: ids => do
    let mine ← element saved i
    if mine.isNone then raceFrom fresh saved (i + 1) (none :: passed) ids
    else
      let (status, left) ← e.stepBranch id (if fresh then none else mine)
      match status with
      | .running => raceFrom fresh saved (i + 1) (some left :: passed) ids
      | .failure => raceFrom fresh saved (i + 1) (none :: passed) ids
      | .success => return (true, passed.reverse ++ none :: saved.drop (i + 1))

def parallelAt (site : Site) : TickM σ Status := do
  let previous ← savedBranches site
  let left ← e.stepFrom previous.isNone (previous.getD (site.children.map fun _ => none)) 0 site.children
  if left.any Option.isSome then suspend site (.branches left) else return .success

def raceAt (site : Site) : TickM σ Status := do
  let previous ← savedBranches site
  let (won, left) ← e.raceFrom previous.isNone (previous.getD (site.children.map fun _ => some ∅)) 0 [] site.children
  if won then
    abandonAll left
    return .success
  else if left.any Option.isSome then suspend site (.branches left)
  else return .failure

theorem element_eq {items : List α} {i : Nat} {a : α} (h : items[i]? = some a) :
    (element items i : TickM σ α) = pure a := by
  rw [element, h]

theorem drop_eq_cons {items : List α} {i : Nat} (h : i < items.length) :
    ∃ a, items[i]? = some a ∧ items.drop i = a :: items.drop (i + 1) :=
  ⟨items[i], List.getElem?_eq_getElem h, List.drop_eq_getElem_cons h⟩

variable {ids : List NodeId} {saved : List (Option Stack)} {i : Nat}

theorem stepFrom_eq (fresh : Bool) (h : saved.length = i + ids.length) :
    e.stepFrom fresh saved i ids = e.stepAll fresh (ids.zip (saved.drop i)) := by
  induction ids generalizing i with
  | nil => rfl
  | cons id ids ih =>
    rw [List.length_cons] at h
    obtain ⟨mine, hmine, hdrop⟩ := drop_eq_cons (show i < saved.length by omega)
    rw [stepFrom, element_eq hmine, pure_bind, hdrop, List.zip_cons_cons, stepAll, ih (by omega)]

theorem raceFrom_eq (fresh : Bool) (passed : List (Option Stack)) (h : saved.length = i + ids.length) :
    e.raceFrom fresh saved i passed ids = e.raceAll fresh passed (ids.zip (saved.drop i)) := by
  induction ids generalizing i passed with
  | nil => rfl
  | cons id ids ih =>
    rw [List.length_cons] at h
    obtain ⟨mine, hmine, hdrop⟩ := drop_eq_cons (show i < saved.length by omega)
    have hrest : (ids.zip (saved.drop (i + 1))).map (·.2) = saved.drop (i + 1) := by
      apply List.map_snd_zip
      rw [List.length_drop]
      omega
    have hnext (passed) : e.raceFrom fresh saved (i + 1) passed ids =
        e.raceAll fresh passed (ids.zip (saved.drop (i + 1))) := ih passed (by omega)
    rw [raceFrom, element_eq hmine, pure_bind, hdrop, List.zip_cons_cons, raceAll]
    cases mine with
    | none => exact hnext _
    | some stack =>
      apply bind_congr
      rintro ⟨status, left⟩
      cases status with
      | success => simp only [hrest]
      | failure | running => exact hnext _

theorem savedBranches_bind {site : Site} {f g : Option (List (Option Stack)) → TickM σ β}
    (h : ∀ previous, (∀ saved, previous = some saved → saved.length = site.children.length) → f previous = g previous) :
    savedBranches site >>= f = savedBranches site >>= g := by
  have hrejected : (rejectPayload site >>= f : TickM σ β) = rejectPayload site >>= g := rfl
  rw [savedBranches, bind_assoc, bind_assoc]
  apply bind_congr
  intro saved
  split
  · rw [pure_bind, pure_bind]
    exact h none fun _ hsome => absurd hsome.symm (Option.some_ne_none _)
  · split
    · rename_i saved hlength
      rw [pure_bind, pure_bind]
      apply h
      rintro _ ⟨⟩
      exact hlength
    · exact hrejected
  · exact hrejected

/-- A parallel node, and so a race, finds what is saved for a child at the child's position. -/
theorem parallel_eq_at (site : Site) : e.parallel site = e.parallelAt site := by
  apply savedBranches_bind
  intro previous hlength
  have hsaved : (previous.getD (site.children.map fun _ => none)).length = 0 + site.children.length := by
    cases previous with
    | none => simp
    | some saved => simpa using hlength saved rfl
  rw [stepParallel, e.stepFrom_eq _ hsaved, List.drop_zero]

theorem race_eq_at (site : Site) : e.race site = e.raceAt site := by
  apply savedBranches_bind
  intro previous hlength
  have hsaved : (previous.getD (site.children.map fun _ => some ∅)).length = 0 + site.children.length := by
    cases previous with
    | none => simp
    | some saved => simpa using hlength saved rfl
  rw [stepRace, e.raceFrom_eq _ _ hsaved, List.drop_zero]

end Engine

/-- Whatever a host does that follows the rules, and as deep as calls nest, everything that is asked for is there; and
that is so for what is saved for the children of parallel nodes and races as well, which are as good as if they looked
it up by position. -/
theorem Program.Obeys.stays_in_range {p : Program σ} {may : Bool} {host : σ} (hp : p.Obeys R may) (hh : R.host host)
    (depth : Nat) :
    World.perform depth p { registry := R.registry, host } ≠ .error .outOfRange ∧
      ∀ (e : Engine σ) (site : Site), e.parallel site = e.parallelAt site ∧ e.race site = e.raceAt site :=
  ⟨((Engine.serves_ofDepth depth).perform hp (.start hh)).map_ne,
    fun e site => ⟨e.parallel_eq_at site, e.race_eq_at site⟩⟩

namespace Rounds

def step (id : UInt32) (ticks : Int) (result : String) : NodeSpec :=
  { id := ⟨id⟩, name := "Step"
    args := [("label", .string "step"), ("ticks", .int ticks), ("result", .string result)] }

/-- A switch that skips its first case, and passes over an array, in a parallel node. One case and one step are
disabled, and the inverter has a child too many. -/
def spec : TreeSpec where
  name := "rounds"
  root :=
    { id := ⟨0⟩, name := "Parallel"
      children :=
        [{ id := ⟨1⟩, name := "Switch"
           children :=
            [{ id := ⟨2⟩, name := "Case", disabled := true },
              { id := ⟨3⟩, name := "Case", children := [step 4 0 "failure", step 5 0 "success"] },
              { id := ⟨6⟩, name := "Case"
                children :=
                  [step 7 1 "success", { step 8 0 "failure" with disabled := true },
                    { id := ⟨9⟩, name := "Invert", children := [step 10 1 "failure", step 11 0 "success"] }] }] },
          { id := ⟨12⟩, name := "ForEach", input := ["items"], output := ["item"]
            children := [step 13 1 "success", step 14 0 "success"] }] }

/-- A host that loads the tree although it is not quite in order, and puts shorter arrays in place while it runs. -/
def program : Program Unit :=
  .load spec false fun
    | .ok tree => .create tree ∅ fun owner =>
      .setVar owner "items" (some (.array [.int 10, .int 20, .int 30])) <|
        .run owner fun _ => .setVar owner "items" (some (.array [.int 40, .int 50])) <|
          .run owner fun _ => .setVar owner "items" (some (.array [.int 60])) <|
            .run owner fun _ => .run owner fun _ => .done
    | .error _ => .done

theorem obeys : program.Obeys Workbench.rules false := by
  intro result hload
  cases result with
  | ok tree => exact ⟨hload tree rfl, fun _ _ _ _ _ => trivial⟩
  | error err => exact trivial

def returns : List (NodeId × Option Status) :=
  [(⟨4⟩, some .failure), (⟨7⟩, some .running), (⟨1⟩, some .running), (⟨13⟩, some .running), (⟨12⟩, some .running),
    (⟨0⟩, some .running),
    (⟨7⟩, some .success), (⟨10⟩, some .running), (⟨9⟩, some .running), (⟨1⟩, some .running), (⟨13⟩, some .success),
    (⟨14⟩, some .success), (⟨13⟩, some .running), (⟨12⟩, some .running), (⟨0⟩, some .running),
    (⟨10⟩, some .failure), (⟨9⟩, some .success), (⟨1⟩, some .success), (⟨13⟩, some .success), (⟨12⟩, some .success),
    (⟨0⟩, some .success),
    (⟨4⟩, some .failure), (⟨7⟩, some .running), (⟨1⟩, some .running), (⟨13⟩, some .running), (⟨12⟩, some .running),
    (⟨0⟩, some .running)]

end Rounds

open Rounds in
/-- The array is too short in the second run for a third pass, and in the third run for the pass that is under way. -/
theorem stays_in_range_rounds : ∃ w : World Unit,
    World.perform 7 program { registry := Workbench.rules.registry, host := () } = .ok w ∧
      (w.acts ⟨0⟩).filterMap Activity.returned? = returns ∧
      World.perform 7 program { registry := Workbench.rules.registry, host := () } ≠ .error .outOfRange := by
  have hruns : (World.perform 7 program { registry := Workbench.rules.registry, host := () }).toOption.any (fun w =>
      (w.acts ⟨0⟩).filterMap Activity.returned? == returns) = true := by
    decide +kernel
  obtain ⟨w, hw, hreturned⟩ := exists_ok_of_any hruns
  exact ⟨w, hw, beq_iff_eq.mp hreturned, (obeys.stays_in_range trivial 7).1⟩

end BehaviorTree
