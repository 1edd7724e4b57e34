import BehaviorTree.Yaml.Token

/-!
What a text denotes before its scalars are interpreted: scalars, sequences and mappings.
-/

namespace BehaviorTree
set_option autoImplicit false

namespace Yaml

inductive Node where
  | scalar (plain : Bool) (text : String)
  | sequence (items : List Node)
  | mapping (entries : List (Node × Node))
  deriving Inhabited

def Node.empty : Node := .scalar true "~"

abbrev Parse := StateT (List Token) Option

def peek : Parse (Option Token) := return (← get).head?

def skip : Parse Unit := modify (·.drop 1)

def comes (ts : List Token) : Parse Bool := return (← peek).any ts.contains

/-- Takes a token if it comes next; says whether it does. -/
def accept (t : Token) : Parse Bool := do
  if ← comes [t] then
    skip
    return true
  else return false

mutual
/-- Takes a node. It may be a block only where `block` says so, and items without a block of their own only where
`items` says so: in an entry of a block mapping, whose column they may share. -/
def node (block items : Bool) : Nat → Parse Node
  | 0 => failure
  | fuel + 1 => do
    match ← peek with
    | some (.scalar plain text) =>
      skip
      return .scalar plain text
    | some .flowSequence =>
      skip
      return .sequence (← flowItems fuel true [])
    | some .flowMapping =>
      skip
      return .mapping (← flowEntries fuel true [])
    | some .blockSequence =>
      if block then
        skip
        return .sequence (← blockItems fuel [])
      else failure
    | some .blockMapping =>
      if block then
        skip
        return .mapping (← blockEntries fuel [])
      else failure
    | some .item => if items then return .sequence (← bareItems fuel []) else failure
    | _ => failure

/-- Takes a node unless one of the given tokens comes next, before which it is left out. -/
def nodeBefore (ends : List Token) (block items : Bool) : Nat → Parse Node
  | 0 => failure
  | fuel + 1 => do
    if ← comes ends then return Node.empty else node block items fuel

def blockItems : Nat → List Node → Parse (List Node)
  | 0, _ => failure
  | fuel + 1, taken => do
    if ← accept .blockEnd then return taken.reverse
    else if ← accept .item then
      let item ← nodeBefore [.item, .blockEnd] true false fuel
      blockItems fuel (item :: taken)
    else failure

def bareItems : Nat → List Node → Parse (List Node)
  | 0, _ => failure
  | fuel + 1, taken => do
    if ← accept .item then
      let item ← nodeBefore [.item, .key, .value, .blockEnd] true false fuel
      bareItems fuel (item :: taken)
    else return taken.reverse

def blockEntries : Nat → List (Node × Node) → Parse (List (Node × Node))
  | 0, _ => failure
  | fuel + 1, taken => do
    if ← accept .blockEnd then return taken.reverse
    else if ← comes [.key, .value] then
      let key ← blockPart .key fuel
      let value ← blockPart .value fuel
      blockEntries fuel ((key, value) :: taken)
    else failure

/-- Takes the key or the value of an entry of a block mapping, either of which may be left out. -/
def blockPart (introduction : Token) : Nat → Parse Node
  | 0 => failure
  | fuel + 1 => do
    if ← accept introduction then nodeBefore [.key, .value, .blockEnd] true true fuel else return Node.empty

/-- Takes the items of a flow sequence and its end. An entry of a mapping may stand for a mapping of its own. -/
def flowItems : Nat → Bool → List Node → Parse (List Node)
  | 0, _, _ => failure
  | fuel + 1, first, taken => do
    if ← accept .flowSequenceEnd then return taken.reverse
    else if first || (← accept .comma) then
      if ← accept .flowSequenceEnd then return taken.reverse
      else
        let item ← if ← accept .key then flowPair fuel else node false false fuel
        flowItems fuel false (item :: taken)
    else failure

/-- Takes an entry in a flow sequence behind the mark of its key. A key that is left out takes the place of the token
behind it. -/
def flowPair : Nat → Parse Node
  | 0 => failure
  | fuel + 1 => do
    let ends := [Token.comma, .flowSequenceEnd]
    let key ←
      if ← comes (.value :: ends) then
        skip
        pure Node.empty
      else node false false fuel
    let value ← if ← accept .value then nodeBefore ends false false fuel else pure Node.empty
    return .mapping [(key, value)]

def flowEntries : Nat → Bool → List (Node × Node) → Parse (List (Node × Node))
  | 0, _, _ => failure
  | fuel + 1, first, taken => do
    if ← accept .flowMappingEnd then return taken.reverse
    else if first || (← accept .comma) then
      if ← accept .flowMappingEnd then return taken.reverse
      else
        let entry ← flowEntry fuel
        flowEntries fuel false (entry :: taken)
    else failure

/-- Takes an entry of a flow mapping. Without a mark before its key or its value it is a key alone. -/
def flowEntry : Nat → Parse (Node × Node)
  | 0 => failure
  | fuel + 1 => do
    let ends := [Token.comma, .flowMappingEnd]
    if ← comes [.key, .value] then
      let key ← if ← accept .key then nodeBefore (.value :: ends) false false fuel else pure Node.empty
      let value ← if ← accept .value then nodeBefore ends false false fuel else pure Node.empty
      return (key, value)
    else return (← node false false fuel, Node.empty)
end

def document (fuel : Nat) : Parse Node := do
  if ← accept .documentStart then
    if (← get).isEmpty || (← comes [.documentStart, .documentEnd]) then return Node.empty
    else node true false fuel
  else node true false fuel

def Node.ofTokens? (ts : List Token) : Option Node := do
  let (n, rest) ← (document (4 * ts.length + 4)).run ts
  if rest.all (· = .documentEnd) then some n else none

def Node.parse (text : String) : Option Node := (tokens? text).bind Node.ofTokens?

end Yaml

end BehaviorTree
