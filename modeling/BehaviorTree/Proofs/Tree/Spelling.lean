import Mathlib.Data.List.Nodup
import Mathlib.Data.List.Perm.Lattice
import BehaviorTree.Document.Source

/-!
The ways to spell a tree as a value. A record is spelled as an object, whose fields come in any order under any of
their names, beside keys that mean nothing, or as an array of the fields in the order of their declaration. A field
that holds its default may be left out. Every node of a tree chooses for itself.
-/

namespace BehaviorTree
set_option autoImplicit false

/-! ### Records -/

section Records

variable {F D : Type}

/-- What a record says: how a value spells the content of a field, and which fields hold their defaults. -/
structure Record (F : Type) where
  /-- The fields in the order of their declaration. -/
  all : List F
  names : F → List String
  Holds : F → Value → Prop
  Spare : F → Prop

namespace Record

/-- Entries that give the fields of a list one after another, each under one of its names. -/
inductive Listed (r : Record F) : List F → List (String × Value) → Prop where
  | nil : Listed r [] []
  | present {f : F} {fields : List F} {key : String} {v : Value} {entries : List (String × Value)} :
      key ∈ r.names f → r.Holds f v → Listed r fields entries → Listed r (f :: fields) ((key, v) :: entries)
  | omitted {f : F} {fields : List F} {entries : List (String × Value)} :
      r.Spare f → Listed r fields entries → Listed r (f :: fields) entries

/-- Values that give the fields of a list by position; only the last ones may be missing. -/
inductive Placed (r : Record F) : List F → List Value → Prop where
  | nil {fields : List F} : (∀ f ∈ fields, r.Spare f) → Placed r fields []
  | cons {f : F} {fields : List F} {v : Value} {items : List Value} :
      r.Holds f v → Placed r fields items → Placed r (f :: fields) (v :: items)

def Foreign (r : Record F) (key : String) : Prop := ∀ f, key ∉ r.names f

/-- The value is an object or an array that says what the record says. -/
inductive Spells (r : Record F) : Value → Prop where
  | object {known unknown entries : List (String × Value)} :
      r.Listed r.all known → (∀ entry ∈ unknown, r.Foreign entry.1) → entries.Perm (known ++ unknown) →
        Spells r (.object entries)
  | array {items : List Value} : r.Placed r.all items → Spells r (.array items)

theorem listed_map {r : Record F} {key : F → String} {content : F → Value} (hkey : ∀ f, key f ∈ r.names f)
    (hcontent : ∀ f, r.Holds f (content f)) (fields : List F) :
    r.Listed fields (fields.map fun f => (key f, content f)) := by
  induction fields with
  | nil => exact .nil
  | cons f fields ih => exact .present (hkey f) (hcontent f) ih

theorem spells_map {r : Record F} {key : F → String} {content : F → Value} (hkey : ∀ f, key f ∈ r.names f)
    (hcontent : ∀ f, r.Holds f (content f)) {order : List F} (hperm : order.Perm r.all) :
    r.Spells (.object (order.map fun f => (key f, content f))) := by
  have hentries : (order.map fun f => (key f, content f)).Perm ((r.all.map fun f => (key f, content f)) ++ []) := by
    rw [List.append_nil]
    exact hperm.map _
  exact .object (listed_map hkey hcontent r.all) (List.forall_mem_nil _) hentries

end Record

structure Reader (F D : Type) where
  ofKey? : String → Option F
  label : F → String
  has : D → F → Bool
  fill : D → F → Value → Except ShapeError D

namespace Reader

/-- Fills in the fields of an object in the order of its keys, passing over keys that mean nothing. -/
def ofFields (reader : Reader F D) (d : D) : List (String × Value) → Except ShapeError D
  | [] => .ok d
  | (key, v) :: rest =>
    match reader.ofKey? key with
    | none => reader.ofFields d rest
    | some field =>
      if reader.has d field then .error (.duplicate (reader.label field))
      else do
        let d ← reader.fill d field v
        reader.ofFields d rest

def ofItems (reader : Reader F D) (d : D) : List F → List Value → Except ShapeError D
  | [], _ => .ok d
  | _, [] => .ok d
  | field :: fields, v :: rest => do
    let d ← reader.fill d field v
    reader.ofItems d fields rest

/-- The reader takes up the fields of the record, whichever it has so far: `draft found` is the draft that has the
fields `found` of the record and no others. -/
structure Takes (reader : Reader F D) (r : Record F) (draft : List F → D) : Prop where
  key {key : String} {f : F} : reader.ofKey? key = some f ↔ key ∈ r.names f
  has (found : List F) (f : F) : reader.has (draft found) f = true ↔ f ∈ found
  fill (found : List F) {f : F} {v : Value} : r.Holds f v → reader.fill (draft found) f v = .ok (draft (f :: found))

def keyed (reader : Reader F D) (entries : List (String × Value)) : List F :=
  entries.filterMap fun entry => reader.ofKey? entry.1

namespace Takes

variable {reader : Reader F D} {r : Record F} {draft : List F → D}

theorem ofKey?_foreign (h : reader.Takes r draft) {key : String} (hk : r.Foreign key) : reader.ofKey? key = none := by
  cases hf : reader.ofKey? key with
  | none => rfl
  | some f => exact absurd (h.key.mp hf) (hk f)

theorem keyed_foreign (h : reader.Takes r draft) {entries : List (String × Value)}
    (hf : ∀ entry ∈ entries, r.Foreign entry.1) : reader.keyed entries = [] := by
  unfold keyed
  rw [List.filterMap_eq_nil_iff]
  intro entry he
  exact h.ofKey?_foreign (hf entry he)

/-- The keys of listed entries stand for different fields, in their order, and what has no key is spare. -/
theorem keyed_listed (h : reader.Takes r draft) {fields : List F} {entries : List (String × Value)}
    (hl : r.Listed fields entries) :
    (reader.keyed entries).Sublist fields ∧ (∀ f ∈ fields, f ∈ reader.keyed entries ∨ r.Spare f) ∧
      ∀ entry ∈ entries, ∀ f, reader.ofKey? entry.1 = some f → r.Holds f entry.2 := by
  induction hl with
  | nil => simp [keyed]
  | @present f fields key v entries hk hv _ ih =>
    obtain ⟨hsub, hcover, hholds⟩ := ih
    have hf : reader.ofKey? key = some f := h.key.mpr hk
    have hkeyed : reader.keyed ((key, v) :: entries) = f :: reader.keyed entries := List.filterMap_cons_some hf
    rw [hkeyed]
    refine ⟨hsub.cons_cons f, ?_, ?_⟩
    · intro g hg
      rcases List.mem_cons.mp hg with rfl | hg
      · exact .inl List.mem_cons_self
      · exact (hcover g hg).imp_left (List.mem_cons_of_mem f)
    · intro entry he g hg
      rcases List.mem_cons.mp he with rfl | he
      · obtain rfl : f = g := Option.some.inj (hf.symm.trans hg)
        exact hv
      · exact hholds entry he g hg
  | @omitted f fields entries hs _ ih =>
    obtain ⟨hsub, hcover, hholds⟩ := ih
    refine ⟨hsub.cons f, ?_, hholds⟩
    intro g hg
    rcases List.mem_cons.mp hg with rfl | hg
    · exact .inr hs
    · exact hcover g hg

/-- Entries for different fields that are not there yet are all taken up. -/
theorem ofFields (h : reader.Takes r draft) {entries : List (String × Value)}
    (holds : ∀ entry ∈ entries, ∀ f, reader.ofKey? entry.1 = some f → r.Holds f entry.2) :
    ∀ found : List F, (reader.keyed entries).Nodup → (∀ f ∈ reader.keyed entries, f ∉ found) →
      reader.ofFields (draft found) entries = .ok (draft ((reader.keyed entries).reverse ++ found)) := by
  induction entries with
  | nil =>
    intro found _ _
    rfl
  | cons entry rest ih =>
    intro found hnodup hnew
    obtain ⟨key, v⟩ := entry
    have hrest := ih fun entry he => holds entry (List.mem_cons_of_mem _ he)
    cases hf : reader.ofKey? key with
    | none =>
      have hkeyed : reader.keyed ((key, v) :: rest) = reader.keyed rest := List.filterMap_cons_none hf
      rw [hkeyed] at hnodup hnew ⊢
      simp only [Reader.ofFields, hf]
      exact hrest found hnodup hnew
    | some f =>
      have hkeyed : reader.keyed ((key, v) :: rest) = f :: reader.keyed rest := List.filterMap_cons_some hf
      rw [hkeyed] at hnodup hnew ⊢
      obtain ⟨hfresh, hnodup⟩ := List.nodup_cons.mp hnodup
      have hhas : ¬ reader.has (draft found) f = true := by
        rw [h.has]
        exact hnew f List.mem_cons_self
      have hfill := h.fill found (holds (key, v) List.mem_cons_self f hf)
      have hnew' : ∀ g ∈ reader.keyed rest, g ∉ f :: found := by
        intro g hg hmem
        rcases List.mem_cons.mp hmem with rfl | hmem
        · exact hfresh hg
        · exact hnew g (List.mem_cons_of_mem f hg) hmem
      simp only [Reader.ofFields, hf, if_neg hhas, hfill, bind, Except.bind]
      rw [hrest (f :: found) hnodup hnew', List.reverse_cons, List.append_assoc]
      rfl

/-- An object that spells the record gives a draft that lacks only what is spare. -/
theorem object (h : reader.Takes r draft) (hall : r.all.Nodup) {known unknown entries : List (String × Value)}
    (hknown : r.Listed r.all known) (hunknown : ∀ entry ∈ unknown, r.Foreign entry.1)
    (hperm : entries.Perm (known ++ unknown)) :
    ∃ found, reader.ofFields (draft []) entries = .ok (draft found) ∧ ∀ f ∈ r.all, f ∈ found ∨ r.Spare f := by
  obtain ⟨hsub, hcover, hholds⟩ := h.keyed_listed hknown
  have hkeyed : (reader.keyed entries).Perm (reader.keyed known) := by
    have := hperm.filterMap fun entry => reader.ofKey? entry.1
    rw [List.filterMap_append] at this
    change (reader.keyed entries).Perm (reader.keyed known ++ reader.keyed unknown) at this
    rwa [h.keyed_foreign hunknown, List.append_nil] at this
  have hnodup : (reader.keyed entries).Nodup := hkeyed.nodup_iff.mpr (hsub.nodup hall)
  have hentries : ∀ entry ∈ entries, ∀ f, reader.ofKey? entry.1 = some f → r.Holds f entry.2 := by
    intro entry he f hf
    rcases List.mem_append.mp (hperm.mem_iff.mp he) with he | he
    · exact hholds entry he f hf
    · simp [h.ofKey?_foreign (hunknown entry he)] at hf
  refine ⟨_, h.ofFields hentries [] hnodup (by simp), ?_⟩
  intro f hf
  refine (hcover f hf).imp_left fun hmem => ?_
  simpa using hkeyed.mem_iff.mpr hmem

/-- Values by position are all taken up, and what is missing after them is spare. -/
theorem ofItems (h : reader.Takes r draft) {fields : List F} {items : List Value} (hp : r.Placed fields items) :
    ∀ found : List F,
      reader.ofItems (draft found) fields items = .ok (draft ((fields.take items.length).reverse ++ found)) ∧
        items.length ≤ fields.length ∧ ∀ f ∈ fields, f ∈ fields.take items.length ∨ r.Spare f := by
  induction hp with
  | @nil fields hs =>
    intro found
    refine ⟨?_, Nat.zero_le _, fun f hf => .inr (hs f hf)⟩
    cases fields <;> rfl
  | @cons f fields v items hv _ ih =>
    intro found
    obtain ⟨heq, hle, hcover⟩ := ih (f :: found)
    refine ⟨?_, Nat.succ_le_succ hle, ?_⟩
    · simp only [Reader.ofItems, h.fill found hv, bind, Except.bind, heq]
      simp
    · intro g hg
      rw [List.length_cons, List.take_succ_cons]
      rcases List.mem_cons.mp hg with rfl | hg
      · exact .inl List.mem_cons_self
      · exact (hcover g hg).imp_left (List.mem_cons_of_mem f)

theorem array (h : reader.Takes r draft) {items : List Value} (hp : r.Placed r.all items) :
    ∃ found, reader.ofItems (draft []) r.all items = .ok (draft found) ∧ items.length ≤ r.all.length ∧
      ∀ f ∈ r.all, f ∈ found ∨ r.Spare f := by
  obtain ⟨heq, hle, hcover⟩ := h.ofItems hp []
  refine ⟨_, heq, hle, ?_⟩
  intro f hf
  refine (hcover f hf).imp_left fun hmem => ?_
  simpa using hmem

end Takes

end Reader

end Records

/-! ### Nodes -/

namespace NodeField

def names : NodeField → List String
  | name => ["name", "type"]
  | desc => ["desc", "description"]
  | args => ["args", "arguments"]
  | field => [field.label]

theorem label_mem (field : NodeField) : field.label ∈ field.names := by
  cases field <;> decide

theorem ofKey?_eq_some {key : String} {field : NodeField} : ofKey? key = some field ↔ key ∈ field.names := by
  constructor
  · intro h
    unfold ofKey? at h
    split at h <;> first | cases h; decide | cases h
  · intro h
    cases field <;> simp only [names, label, List.mem_cons, List.not_mem_nil, or_false] at h
    case name | desc | args => rcases h with rfl | rfl <;> rfl
    all_goals subst h; rfl

end NodeField

def NodeSpec.content (spec : NodeSpec) (items : List Value) : NodeField → Value
  | .id => .int spec.id.val.toNat
  | .name => .string spec.name
  | .desc => .string spec.desc
  | .args => .object spec.args
  | .debug => .bool spec.debug
  | .disabled => .bool spec.disabled
  | .input => .array (spec.input.map .string)
  | .output => .array (spec.output.map .string)
  | .children => .array items

def NodeSpec.record (spec : NodeSpec) (below : List Value → Prop) : Record NodeField where
  all := NodeField.all
  names := NodeField.names
  Holds
    | .children, v => ∃ items, v = .array items ∧ below items
    | field, v => v = spec.content [] field
  Spare
    | .id | .name => False
    | .desc => spec.desc = ""
    | .args => spec.args = []
    | .debug => spec.debug = false
    | .disabled => spec.disabled = false
    | .input => spec.input = []
    | .output => spec.output = []
    | .children => spec.children = []

mutual
/-- The values that spell a node. -/
def NodeSpec.Spells : NodeSpec → Value → Prop
  | ⟨id, name, desc, args, debug, disabled, input, output, children⟩, v =>
    (NodeSpec.record ⟨id, name, desc, args, debug, disabled, input, output, children⟩
      (NodeSpec.SpellsAll children)).Spells v

def NodeSpec.SpellsAll : List NodeSpec → List Value → Prop
  | [], items => items = []
  | spec :: specs, items => ∃ v rest, items = v :: rest ∧ NodeSpec.Spells spec v ∧ NodeSpec.SpellsAll specs rest
end

theorem NodeSpec.spells_iff (spec : NodeSpec) (v : Value) :
    spec.Spells v ↔ (spec.record (NodeSpec.SpellsAll spec.children)).Spells v := by
  cases spec
  rfl

namespace NodeDraft

def reader : Reader NodeField NodeDraft where
  ofKey? := NodeField.ofKey?
  label := NodeField.label
  has := NodeDraft.has
  fill := NodeDraft.fill

theorem ofFields_eq (d : NodeDraft) (entries : List (String × Value)) :
    d.ofFields entries = reader.ofFields d entries := by
  induction entries generalizing d with
  | nil => rw [NodeDraft.ofFields, Reader.ofFields]
  | cons entry rest ih =>
    obtain ⟨key, v⟩ := entry
    rw [NodeDraft.ofFields, Reader.ofFields]
    simp only [ih]
    have hkey : reader.ofKey? key = NodeField.ofKey? key := rfl
    rw [hkey]
    cases NodeField.ofKey? key <;> rfl

theorem ofItems_eq (d : NodeDraft) (fields : List NodeField) (items : List Value) :
    d.ofItems fields items = reader.ofItems d fields items := by
  induction fields generalizing d items with
  | nil => rw [NodeDraft.ofItems, Reader.ofItems]
  | cons field fields ih =>
    cases items with
    | nil => rw [NodeDraft.ofItems, Reader.ofItems] <;> simp
    | cons v rest =>
      rw [NodeDraft.ofItems, Reader.ofItems]
      simp only [ih, reader]

def part (spec : NodeSpec) (found : List NodeField) : NodeDraft where
  id := if .id ∈ found then some spec.id else none
  name := if .name ∈ found then some spec.name else none
  desc := if .desc ∈ found then some spec.desc else none
  args := if .args ∈ found then some spec.args else none
  debug := if .debug ∈ found then some spec.debug else none
  disabled := if .disabled ∈ found then some spec.disabled else none
  input := if .input ∈ found then some spec.input else none
  output := if .output ∈ found then some spec.output else none
  children := if .children ∈ found then some spec.children else none

end NodeDraft

theorem NodeId.ofInt?_val (id : NodeId) : NodeId.ofInt? id.val.toNat = some id := by
  have hrange : (0 ≤ (id.val.toNat : Int) && (id.val.toNat : Int) < NodeId.limit) = true := by
    simp only [Bool.and_eq_true, decide_eq_true_eq]
    exact ⟨Int.natCast_nonneg _, Int.ofNat_lt.mpr id.val.toNat_lt⟩
  unfold NodeId.ofInt?
  rw [if_pos hrange, Int.toNat_natCast, Nat.toUInt32_eq, UInt32.ofNat_toNat]

theorem Decode.id_int {n : Int} {id : NodeId} (h : NodeId.ofInt? n = some id) : Decode.id (.int n) = .ok id := by
  simp only [Decode.id, h]

theorem Decode.strings_map (names : List String) : Decode.strings (.array (names.map .string)) = .ok names := by
  unfold Decode.strings
  induction names with
  | nil => rfl
  | cons name names ih =>
    simp only [List.map_cons, List.mapM_cons, ih]
    rfl

namespace NodeDraft

variable {spec : NodeSpec} {below : List Value → Prop}

theorem fill_part (hbelow : ∀ items, below items → NodeSpec.decodeAll items = .ok spec.children)
    (found : List NodeField) {f : NodeField} {v : Value} (hv : (spec.record below).Holds f v) :
    (part spec found).fill f v = .ok (part spec (f :: found)) := by
  cases f
  case id =>
    cases hv
    simp only [fill, NodeSpec.content, Decode.id_int (NodeId.ofInt?_val spec.id)]
    simp [part, bind, Except.bind]
  case children =>
    obtain ⟨items, rfl, hitems⟩ := hv
    simp only [fill, hbelow items hitems]
    simp [part, bind, Except.bind]
  case input | output =>
    cases hv
    simp only [fill, NodeSpec.content, Decode.strings_map]
    simp [part, bind, Except.bind]
  all_goals
    cases hv
    simp [fill, NodeSpec.content, Decode.string, Decode.fields, Decode.bool, part, bind, Except.bind]

/-- Nodes are read from what spells them, if their children are. -/
theorem takes (hbelow : ∀ items, below items → NodeSpec.decodeAll items = .ok spec.children) :
    reader.Takes (spec.record below) (part spec) where
  key := NodeField.ofKey?_eq_some
  has found f := by
    cases f <;> simp only [reader, has, part] <;> split <;> simp_all
  fill found _ _ := fill_part hbelow found

theorem finish_part {found : List NodeField}
    (hf : ∀ f ∈ NodeField.all, f ∈ found ∨ (spec.record below).Spare f) : (part spec found).finish = .ok spec := by
  have hid : NodeField.id ∈ found := (hf .id (by decide)).resolve_right not_false
  have hname : NodeField.name ∈ found := (hf .name (by decide)).resolve_right not_false
  have keep {α : Type} {f : NodeField} {a b : α} (h : f ∈ found ∨ a = b) :
      (if f ∈ found then some a else none).getD b = a := by
    split
    · rfl
    · exact (h.resolve_left ‹_›).symm
  obtain ⟨i, n, desc, args, debug, disabled, input, output, children⟩ := spec
  simp only [finish, part, if_pos hid, if_pos hname]
  rw [keep (hf .desc (by decide)), keep (hf .args (by decide)), keep (hf .debug (by decide)),
    keep (hf .disabled (by decide)), keep (hf .input (by decide)), keep (hf .output (by decide)),
    keep (hf .children (by decide))]

end NodeDraft

/-- A value that spells a node is read as the node, if what spells its children is read as them. -/
theorem NodeSpec.decode_record {spec : NodeSpec} {below : List Value → Prop}
    (hbelow : ∀ items, below items → NodeSpec.decodeAll items = .ok spec.children) {v : Value}
    (h : (spec.record below).Spells v) : NodeSpec.decode v = .ok spec := by
  have hall : NodeField.all.Nodup := by decide
  have htakes := NodeDraft.takes hbelow
  cases h with
  | object hknown hunknown hperm =>
    obtain ⟨found, hread, hcover⟩ := htakes.object hall hknown hunknown hperm
    have hread : NodeDraft.ofFields {} _ = .ok (NodeDraft.part spec found) :=
      (NodeDraft.ofFields_eq _ _).trans hread
    rw [NodeSpec.decode, hread]
    simp only [bind, Except.bind, NodeDraft.finish_part hcover]
  | array hplaced =>
    obtain ⟨found, hread, hlength, hcover⟩ := htakes.array hplaced
    have hread : NodeDraft.ofItems {} NodeField.all _ = .ok (NodeDraft.part spec found) :=
      (NodeDraft.ofItems_eq _ _ _).trans hread
    rw [NodeSpec.decode, hread]
    simp only [bind, Except.bind, NodeDraft.finish_part hcover]
    exact if_neg (Nat.not_lt.mpr hlength)

mutual
theorem NodeSpec.decode_spelling : ∀ (spec : NodeSpec) (v : Value), spec.Spells v → NodeSpec.decode v = .ok spec
  | ⟨_, _, _, _, _, _, _, _, children⟩, _, h =>
    NodeSpec.decode_record (fun items hitems => NodeSpec.decodeAll_spelling children items hitems) h

theorem NodeSpec.decodeAll_spelling : ∀ (specs : List NodeSpec) (items : List Value),
    NodeSpec.SpellsAll specs items → NodeSpec.decodeAll items = .ok specs
  | [], _, h => by
    cases h
    rfl
  | spec :: specs, _, h => by
    obtain ⟨v, rest, rfl, hv, hrest⟩ := h
    rw [NodeSpec.decodeAll, NodeSpec.decode_spelling spec v hv, NodeSpec.decodeAll_spelling specs rest hrest]
    rfl
end

theorem NodeSpec.encode_eq (spec : NodeSpec) :
    spec.encode = .object
      ([.args, .children, .debug, .desc, .disabled, .id, .input, .name, .output].map fun f =>
        (f.label, spec.content (NodeSpec.encodeAll spec.children) f)) := by
  cases spec
  rfl

mutual
theorem NodeSpec.spells_encode : ∀ spec : NodeSpec, spec.Spells spec.encode
  | ⟨id, name, desc, args, debug, disabled, input, output, children⟩ => by
    have hbelow : NodeSpec.SpellsAll children (NodeSpec.encodeAll children) := NodeSpec.spellsAll_encodeAll children
    rw [NodeSpec.spells_iff, NodeSpec.encode_eq]
    refine Record.spells_map NodeField.label_mem ?_ (by decide : List.Perm _ NodeField.all)
    intro f
    cases f
    case children => exact ⟨_, rfl, hbelow⟩
    all_goals rfl

theorem NodeSpec.spellsAll_encodeAll : ∀ specs : List NodeSpec, NodeSpec.SpellsAll specs (NodeSpec.encodeAll specs)
  | [] => rfl
  | spec :: specs => ⟨_, _, rfl, NodeSpec.spells_encode spec, NodeSpec.spellsAll_encodeAll specs⟩
end

/-! ### Trees -/

namespace TreeField

def names : TreeField → List String
  | desc => ["desc", "description"]
  | field => [field.label]

theorem label_mem (field : TreeField) : field.label ∈ field.names := by
  cases field <;> decide

theorem ofKey?_eq_some {key : String} {field : TreeField} : ofKey? key = some field ↔ key ∈ field.names := by
  constructor
  · intro h
    unfold ofKey? at h
    split at h <;> first | cases h; decide | cases h
  · intro h
    cases field <;> simp only [names, label, List.mem_cons, List.not_mem_nil, or_false] at h
    case desc => rcases h with rfl | rfl <;> rfl
    all_goals subst h; rfl

end TreeField

def TreeSpec.content (spec : TreeSpec) (root : Value) : TreeField → Value
  | .name => .string spec.name
  | .desc => .string spec.desc
  | .root => root

def TreeSpec.record (spec : TreeSpec) : Record TreeField where
  all := TreeField.all
  names := TreeField.names
  Holds
    | .root, v => spec.root.Spells v
    | field, v => v = spec.content .null field
  Spare
    | .name | .root => False
    | .desc => spec.desc = ""

/-- The values that spell a tree. -/
def TreeSpec.Spells (spec : TreeSpec) (v : Value) : Prop := spec.record.Spells v

namespace TreeDraft

def reader : Reader TreeField TreeDraft where
  ofKey? := TreeField.ofKey?
  label := TreeField.label
  has := TreeDraft.has
  fill := TreeDraft.fill

theorem ofFields_eq (d : TreeDraft) (entries : List (String × Value)) :
    d.ofFields entries = reader.ofFields d entries := by
  induction entries generalizing d with
  | nil => rfl
  | cons entry rest ih =>
    obtain ⟨key, v⟩ := entry
    rw [TreeDraft.ofFields, Reader.ofFields]
    simp only [ih]
    have hkey : reader.ofKey? key = TreeField.ofKey? key := rfl
    rw [hkey]
    cases TreeField.ofKey? key <;> rfl

theorem ofItems_eq (d : TreeDraft) (fields : List TreeField) (items : List Value) :
    d.ofItems fields items = reader.ofItems d fields items := by
  induction fields generalizing d items with
  | nil => rfl
  | cons field fields ih =>
    cases items with
    | nil => rfl
    | cons v rest =>
      rw [TreeDraft.ofItems, Reader.ofItems]
      simp only [ih, reader]

def part (spec : TreeSpec) (found : List TreeField) : TreeDraft where
  name := if .name ∈ found then some spec.name else none
  desc := if .desc ∈ found then some spec.desc else none
  root := if .root ∈ found then some spec.root else none

theorem takes (spec : TreeSpec) : reader.Takes spec.record (part spec) where
  key := TreeField.ofKey?_eq_some
  has found f := by
    cases f <;> simp only [reader, has, part] <;> split <;> simp_all
  fill found f v hv := by
    cases f
    case root =>
      have hroot : NodeSpec.decode v = .ok spec.root := NodeSpec.decode_spelling spec.root v hv
      simp only [reader, fill, hroot]
      simp [part, bind, Except.bind]
    all_goals
      cases hv
      simp [reader, fill, TreeSpec.content, Decode.string, part, bind, Except.bind]

theorem finish_part {spec : TreeSpec} {found : List TreeField}
    (hf : ∀ f ∈ TreeField.all, f ∈ found ∨ spec.record.Spare f) : (part spec found).finish = .ok spec := by
  have hname : TreeField.name ∈ found := (hf .name (by decide)).resolve_right not_false
  have hroot : TreeField.root ∈ found := (hf .root (by decide)).resolve_right not_false
  have hdesc : (if TreeField.desc ∈ found then some spec.desc else none).getD "" = spec.desc := by
    split
    · rfl
    · exact ((hf .desc (by decide)).resolve_left ‹_›).symm
  simp only [finish, part, if_pos hname, if_pos hroot, hdesc]

end TreeDraft

namespace TreeSpec

theorem decode_spelling {spec : TreeSpec} {v : Value} (h : spec.Spells v) : TreeSpec.decode v = .ok spec := by
  have hall : TreeField.all.Nodup := by decide
  have htakes := TreeDraft.takes spec
  cases h with
  | object hknown hunknown hperm =>
    obtain ⟨found, hread, hcover⟩ := htakes.object hall hknown hunknown hperm
    have hread : TreeDraft.ofFields {} _ = .ok (TreeDraft.part spec found) :=
      (TreeDraft.ofFields_eq _ _).trans hread
    rw [TreeSpec.decode, hread]
    simp only [bind, Except.bind, TreeDraft.finish_part hcover]
  | array hplaced =>
    obtain ⟨found, hread, hlength, hcover⟩ := htakes.array hplaced
    have hread : TreeDraft.ofItems {} TreeField.all _ = .ok (TreeDraft.part spec found) :=
      (TreeDraft.ofItems_eq _ _ _).trans hread
    rw [TreeSpec.decode, hread]
    simp only [bind, Except.bind, TreeDraft.finish_part hcover]
    exact if_neg (Nat.not_lt.mpr hlength)

theorem encode_eq (spec : TreeSpec) :
    spec.encode = .object ([.desc, .name, .root].map fun f => (f.label, spec.content spec.root.encode f)) := rfl

theorem spells_encode (spec : TreeSpec) : spec.Spells spec.encode := by
  rw [encode_eq]
  refine Record.spells_map TreeField.label_mem ?_ (by decide : List.Perm _ TreeField.all)
  intro f
  cases f
  case root => exact NodeSpec.spells_encode spec.root
  all_goals rfl

/-- However a tree is spelled, it is read as that tree; and what it is written as is one of its spellings, so that
reading it and writing it again changes nothing. -/
theorem read_spelling (spec : TreeSpec) :
    (∀ v, spec.Spells v → (Source.value v).read = .ok spec) ∧ spec.Spells spec.encode ∧
      (Source.value spec.encode).read.map TreeSpec.encode = .ok spec.encode := by
  have hread : ∀ v, spec.Spells v → (Source.value v).read = .ok spec := by
    intro v hv
    simp only [Source.read, decode_spelling hv]
  refine ⟨hread, spells_encode spec, ?_⟩
  rw [hread _ (spells_encode spec)]
  rfl

/-- A guard that checks its health and waits. -/
def guard : TreeSpec where
  name := "guard"
  desc := "stands watch"
  root :=
    { id := ⟨1⟩, name := "Sequence"
      children :=
        [{ id := ⟨2⟩, name := "Check", args := [("value", .string "hp > 50")] },
          { id := ⟨3⟩, name := "Wait", args := [("time", .int 2)] }] }

/-- The guard with other names for some fields, defaults left out, an array for one node and keys of no meaning. -/
def guardDocument : Value :=
  .object
    [("description", .string "stands watch"), ("name", .string "guard"),
      ("root", .object
        [("children", .array
          [.array [.int 2, .string "Check", .string "", .object [("value", .string "hp > 50")]],
            .object
              [("arguments", .object [("time", .int 2)]), ("color", .string "red"), ("id", .int 3),
                ("type", .string "Wait")]]),
          ("id", .int 1), ("type", .string "Sequence")]),
      ("version", .int 2)]

theorem read_guardDocument : guard.Spells guardDocument ∧ (Source.value guardDocument).read = .ok guard := by
  have check : NodeSpec.Spells { id := ⟨2⟩, name := "Check", args := [("value", .string "hp > 50")] }
      (.array [.int 2, .string "Check", .string "", .object [("value", .string "hp > 50")]]) := by
    refine .array (.cons rfl (.cons rfl (.cons rfl (.cons rfl (.nil ?_)))))
    simp [NodeSpec.record]
  have wait : NodeSpec.Spells { id := ⟨3⟩, name := "Wait", args := [("time", .int 2)] }
      (.object
        [("arguments", .object [("time", .int 2)]), ("color", .string "red"), ("id", .int 3),
          ("type", .string "Wait")]) := by
    have hentries : [("arguments", .object [("time", .int 2)]), ("color", .string "red"), ("id", .int 3),
        ("type", .string "Wait")].Perm
          ([("id", .int 3), ("type", .string "Wait"), ("arguments", .object [("time", .int 2)])] ++
            [("color", Value.string "red")]) := @List.perm_append_comm _ [_, _] [_, _]
    refine .object ?_ ?_ hentries
    · exact .present (by decide) rfl <| .present (by decide) rfl <| .omitted rfl <| .present (by decide) rfl <|
        .omitted rfl <| .omitted rfl <| .omitted rfl <| .omitted rfl <| .omitted rfl .nil
    · intro entry he f
      cases List.mem_singleton.mp he
      cases f <;> decide
  have root : NodeSpec.Spells guard.root
      (.object
        [("children", .array
          [.array [.int 2, .string "Check", .string "", .object [("value", .string "hp > 50")]],
            .object
              [("arguments", .object [("time", .int 2)]), ("color", .string "red"), ("id", .int 3),
                ("type", .string "Wait")]]),
          ("id", .int 1), ("type", .string "Sequence")]) := by
    refine @Record.Spells.object _ _ [("id", .int 1), ("type", .string "Sequence"), ("children", .array _)] [] _ ?_
      (List.forall_mem_nil _) (@List.perm_append_comm _ [_] [_, _])
    exact .present (by decide) rfl <| .present (by decide) rfl <| .omitted rfl <| .omitted rfl <| .omitted rfl <|
      .omitted rfl <| .omitted rfl <| .omitted rfl <|
      .present (by decide) ⟨_, rfl, _, _, rfl, check, _, _, rfl, wait, rfl⟩ .nil
  have hspells : guard.Spells guardDocument := by
    refine @Record.Spells.object _ _ [("name", _), ("description", _), ("root", _)] [("version", .int 2)] _ ?_ ?_
      (.swap _ _ _)
    · exact .present (by decide) rfl <| .present (by decide) rfl <| .present (by decide) root .nil
    · intro entry he f
      cases List.mem_singleton.mp he
      cases f <;> decide
  exact ⟨hspells, (read_spelling guard).1 guardDocument hspells⟩

end TreeSpec

end BehaviorTree
