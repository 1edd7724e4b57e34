import BehaviorTree.Document.Decode
import BehaviorTree.Json.Reader

/-!
Reading a tree from text in one pass. The fields of an object are checked as they come, so the first problem met
decides: a value of the wrong shape may come before a malformed end of the text.
-/

namespace BehaviorTree
set_option autoImplicit false

namespace Json

/-- Refuses the value that comes next for its shape, once its first token turns out well formed. -/
def refuse {α : Type} : Scan α := do
  let c ← peekChar
  match c with
  | 'n' => word ['n', 'u', 'l', 'l']
  | 't' => word ['t', 'r', 'u', 'e']
  | 'f' => word ['f', 'a', 'l', 's', 'e']
  | '"' => let _ ← string
  | '[' | '\x7b' => pure ()
  | c =>
    if c = '-' || c.isDigit then
      let n ← numeral .truncated
      let _ ← liftM n.value
    else throw .malformed
  throw .mismatch

def expectString : Scan String := do
  if (← peekChar) = '"' then string else refuse

def expectBool : Scan Bool := do
  match ← peekChar with
  | 't' => word ['t', 'r', 'u', 'e']; return true
  | 'f' => word ['f', 'a', 'l', 's', 'e']; return false
  | _ => refuse

def expectId : Scan NodeId := do
  let c ← peekChar
  if c = '-' || c.isDigit then
    let n ← numeral .truncated
    match Decode.id (← liftM n.value) with
    | .ok id => return id
    | .error _ => throw .mismatch
  else refuse

def expectFields (fuel depth : Nat) : Scan Fields := do
  if (← peekChar) = '\x7b' then
    let depth ← descend depth
    skip
    let taken ← members fuel depth true []
    expect '\x7d'
    return taken
  else refuse

def stringItems : Nat → Bool → List String → Scan (List String)
  | 0, _, _ => throw .malformed
  | fuel + 1, first, taken => do
    if ← another ']' first then
      let s ← expectString
      stringItems fuel false (s :: taken)
    else return taken

def expectStrings (fuel depth : Nat) : Scan (List String) := do
  if (← peekChar) = '[' then
    let _ ← descend depth
    skip
    let taken ← stringItems fuel true []
    expect ']'
    return taken.reverse
  else refuse

/-- A result that must be there; a field that is missing is a matter of shape. -/
def orMismatch {ε α : Type} : Except ε α → Scan α
  | .ok a => return a
  | .error _ => throw .mismatch

mutual
/-- Takes a node; `fuel` bounds the steps and `depth` the nesting. -/
def node : Nat → Nat → Scan NodeSpec
  | 0, _ => throw .malformed
  | fuel + 1, depth => do
    match ← peekChar with
    | '\x7b' =>
      let depth ← descend depth
      skip
      let draft ← nodeMembers fuel depth true {}
      let spec ← orMismatch draft.finish
      expect '\x7d'
      return spec
    | '[' =>
      let depth ← descend depth
      skip
      let draft ← nodeItems fuel depth true {} NodeField.all
      let spec ← orMismatch draft.finish
      expect ']'
      return spec
    | _ => refuse

def nodeMembers : Nat → Nat → Bool → NodeDraft → Scan NodeDraft
  | 0, _, _, _ => throw .malformed
  | fuel + 1, depth, first, draft => do
    if ← anotherKey first then
      let key ← string
      match NodeField.ofKey? key with
      | none =>
        expect ':'
        skipValue fuel
        nodeMembers fuel depth false draft
      | some field =>
        if draft.has field then throw .mismatch
        else
          expect ':'
          let draft ← nodeField fuel depth draft field
          nodeMembers fuel depth false draft
    else return draft

def nodeItems : Nat → Nat → Bool → NodeDraft → List NodeField → Scan NodeDraft
  | 0, _, _, _, _ => throw .malformed
  | _, _, _, draft, [] => return draft
  | fuel + 1, depth, first, draft, field :: fields => do
    if ← another ']' first then
      let draft ← nodeField fuel depth draft field
      nodeItems fuel depth false draft fields
    else
      if draft.has .id && draft.has .name then return draft else throw .mismatch

def nodeField : Nat → Nat → NodeDraft → NodeField → Scan NodeDraft
  | 0, _, _, _ => throw .malformed
  | fuel + 1, depth, draft, field => do
    match field with
    | .id => return { draft with id := ← expectId }
    | .name => return { draft with name := ← expectString }
    | .desc => return { draft with desc := ← expectString }
    | .args => return { draft with args := ← expectFields fuel depth }
    | .debug => return { draft with debug := ← expectBool }
    | .disabled => return { draft with disabled := ← expectBool }
    | .input => return { draft with input := ← expectStrings fuel depth }
    | .output => return { draft with output := ← expectStrings fuel depth }
    | .children =>
      if (← peekChar) = '[' then
        let depth ← descend depth
        skip
        let taken ← nodes fuel depth true []
        expect ']'
        return { draft with children := some taken.reverse }
      else refuse

/-- Takes the nodes of an array, newest first. -/
def nodes : Nat → Nat → Bool → List NodeSpec → Scan (List NodeSpec)
  | 0, _, _, _ => throw .malformed
  | fuel + 1, depth, first, taken => do
    if ← another ']' first then
      let spec ← node fuel depth
      nodes fuel depth false (spec :: taken)
    else return taken
end

def treeField (fuel depth : Nat) (draft : TreeDraft) : TreeField → Scan TreeDraft
  | .name => return { draft with name := ← expectString }
  | .desc => return { draft with desc := ← expectString }
  | .root => return { draft with root := ← node fuel depth }

def treeMembers : Nat → Nat → Bool → TreeDraft → Scan TreeDraft
  | 0, _, _, _ => throw .malformed
  | fuel + 1, depth, first, draft => do
    if ← anotherKey first then
      let key ← string
      match TreeField.ofKey? key with
      | none =>
        expect ':'
        skipValue fuel
        treeMembers fuel depth false draft
      | some field =>
        if draft.has field then throw .mismatch
        else
          expect ':'
          let draft ← treeField fuel depth draft field
          treeMembers fuel depth false draft
    else return draft

def treeItems (fuel depth : Nat) (first : Bool) (draft : TreeDraft) : List TreeField → Scan TreeDraft
  | [] => return draft
  | field :: fields => do
    if ← another ']' first then
      let draft ← treeField fuel depth draft field
      treeItems fuel depth false draft fields
    else throw .mismatch

/-- Takes a tree. -/
def tree (fuel depth : Nat) : Scan TreeSpec := do
  match ← peekChar with
  | '\x7b' =>
    let depth ← descend depth
    skip
    let draft ← treeMembers fuel depth true {}
    let spec ← orMismatch draft.finish
    expect '\x7d'
    return spec
  | '[' =>
    let depth ← descend depth
    skip
    let draft ← treeItems fuel depth true {} TreeField.all
    let spec ← orMismatch draft.finish
    expect ']'
    return spec
  | _ => refuse

def parseTree (text : String) : Except Problem TreeSpec := do
  let read : Scan TreeSpec := do
    let spec ← tree (← steps) depthLimit
    finish
    return spec
  return (← read.run text.toList).1

end Json

end BehaviorTree
