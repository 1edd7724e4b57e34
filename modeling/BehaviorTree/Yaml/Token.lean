import BehaviorTree.Yaml.Scalar

/-!
The tokens of a text. Blocks are told by the columns in which their entries start, and the tokens say where they open
and close. A key is known by the colon behind it: until then what may be one is kept as a candidate.
-/

namespace BehaviorTree
set_option autoImplicit false

namespace Yaml

inductive Token where
  | documentStart
  | documentEnd
  | blockSequence
  | blockMapping
  | blockEnd
  | flowSequence
  | flowSequenceEnd
  | flowMapping
  | flowMappingEnd
  | item
  | comma
  | key
  | value
  | scalar (plain : Bool) (text : String)
  deriving DecidableEq, Repr

/-- What may turn out to be a key: how many tokens come before it and where it stands in the text. Whether it must be
one is `required`. -/
structure Candidate where
  place : Nat
  index : Nat
  line : Nat
  column : Nat
  required : Bool

/-- A key and its colon stand in one line, and not too far apart. -/
def Candidate.isStale (k : Candidate) (c : Cursor) : Bool := k.line < c.line || k.index + 1024 < c.index

/-- The state between two tokens. There is a candidate for the innermost collection and one for each around it, up to
the outermost flow collection. -/
structure Scan where
  cursor : Cursor
  tokens : Array Token := #[]
  /-- Whether a key may start here. -/
  keysAllowed : Bool := true
  candidate : Option Candidate := none
  /-- The candidates around the open flow collections, innermost first. -/
  outer : List (Option Candidate) := []
  /-- The columns of the open blocks, innermost first. -/
  blocks : List Nat := []
  /-- Where a colon needs no gap behind it in a flow collection: right behind a quoted scalar. -/
  adjacent : Nat := 0

abbrev Scanner := StateT Scan Option

def Scan.inFlow (s : Scan) : Bool := !s.outer.isEmpty

def Scan.indent (s : Scan) : Nat :=
  match s.blocks with
  | [] => 0
  | column :: _ => column + 1

def flowLimit : Nat := 255

/-- Reads from where the cursor stands. -/
def reading {α : Type} (r : Read α) : Scanner α := do
  let s ← get
  let (a, cursor) ← r.run s.cursor
  set { s with cursor }
  return a

def allowKeys (allowed : Bool) : Scanner Unit := modify fun s => { s with keysAllowed := allowed }

def emit (t : Token) : Scanner Unit := modify fun s => { s with tokens := s.tokens.push t }

def mark (t : Token) : Scanner Unit := do
  reading advance
  emit t

def dropCandidate : Scanner Unit := do
  let s ← get
  if s.candidate.any Candidate.required then failure
  else set { s with candidate := none }

/-- Makes what starts here a candidate where keys are allowed. In a flow collection it must be a key if it stands in
the column of the block around it. -/
def offerKey : Scanner Unit := do
  if (← get).keysAllowed then
    dropCandidate
    modify fun s =>
      let c := s.cursor
      { s with candidate := some ⟨s.tokens.size, c.index, c.line, c.column, s.inFlow && s.indent = c.column + 1⟩ }

def fresh (c : Cursor) : Option Candidate → Scanner (Option Candidate)
  | none => return none
  | some k => if !k.isStale c then return some k else if k.required then failure else return none

def dropStale : Scanner Unit := do
  let s ← get
  let candidate ← fresh s.cursor s.candidate
  let outer ← s.outer.mapM (fresh s.cursor)
  set { s with candidate, outer }

/-- Opens a block at a column, its token at a place among the tokens. In a flow collection no block opens. -/
def openBlock (column place : Nat) (t : Token) : Scanner Unit := modify fun s =>
  if s.inFlow || column < s.indent then s
  else { s with blocks := column :: s.blocks, tokens := s.tokens.insertIdxIfInBounds place t }

/-- Closes the blocks that start at a column or farther right. In a flow collection no block closes. -/
def closeBlocks (column : Nat) : Scanner Unit := modify fun s =>
  if s.inFlow then s
  else
    let n := (s.blocks.takeWhile (column ≤ ·)).length
    { s with blocks := s.blocks.drop n, tokens := s.tokens ++ Array.replicate n .blockEnd }

/-- Drops blanks, breaks and comments between tokens. In a block a key may start behind a break, and a tab that stands
where a key may start is no blank. -/
def skipGap : Nat → Scanner Unit
  | 0 => return
  | fuel + 1 => do
    let s ← get
    match s.cursor.text with
    | [] => return
    | c :: _ =>
      if c = ' ' || c = '\t' && (s.inFlow || !s.keysAllowed) then
        reading advance
        skipGap fuel
      else if isBreak c then
        reading takeBreak
        if !s.inFlow then allowKeys true
        skipGap fuel
      else if c = '#' then
        reading (skipLine s.cursor.text.length)
        skipGap fuel
      else return

def scanMarker (t : Token) : Scanner Unit := do
  closeBlocks 0
  dropCandidate
  allowKeys false
  reading advance
  reading advance
  mark t

def scanOpening (t : Token) : Scanner Unit := do
  offerKey
  let s ← get
  if s.outer.length < flowLimit then
    set { s with candidate := none, outer := s.candidate :: s.outer, keysAllowed := true }
    mark t
  else failure

def scanClosing (t : Token) : Scanner Unit := do
  dropCandidate
  let s ← get
  match s.outer with
  | [] => set { s with keysAllowed := false }
  | candidate :: outer => set { s with candidate, outer, keysAllowed := false }
  mark t

def scanComma : Scanner Unit := do
  dropCandidate
  allowKeys true
  mark .comma

def scanItem : Scanner Unit := do
  let s ← get
  if s.inFlow || !s.keysAllowed then failure
  else
    openBlock s.cursor.column s.tokens.size .blockSequence
    dropCandidate
    allowKeys true
    mark .item

def scanKey : Scanner Unit := do
  let s ← get
  if !s.inFlow && !s.keysAllowed then failure
  else
    openBlock s.cursor.column s.tokens.size .blockMapping
    dropCandidate
    allowKeys !s.inFlow
    mark .key

/-- Takes the colon before a value. The candidate becomes its key; without one, the key is a marked one or is left
out, and the colon stands where a key may start. -/
def scanValue : Scanner Unit := do
  let s ← get
  match s.candidate with
  | some k =>
    set { s with candidate := none, tokens := s.tokens.insertIdxIfInBounds k.place .key, keysAllowed := false }
    openBlock k.column k.place .blockMapping
    mark .value
  | none =>
    if !s.inFlow && !s.keysAllowed then failure
    else
      openBlock s.cursor.column s.tokens.size .blockMapping
      allowKeys !s.inFlow
      mark .value

def scanQuoted : Scanner Unit := do
  offerKey
  allowKeys false
  let text ← reading quotedScalar
  modify fun s => { s with adjacent := s.cursor.index }
  emit (.scalar false text)

def scanPlain : Scanner Unit := do
  offerKey
  let s ← get
  let (text, crossed) ← reading (plainScalar s.inFlow s.indent)
  allowKeys crossed
  emit (.scalar true text)

/-- Whether a character means something else than the start of a plain scalar wherever a token may start. -/
def isReserved (c : Char) : Bool := ['&', '*', '!', '%', '@', '\x60'].contains c

/-- Takes the next token; says whether there was one. -/
def scanToken : Scanner Bool := do
  skipGap ((← get).cursor.text.length + 1)
  dropStale
  closeBlocks ((← get).cursor.column + 1)
  let s ← get
  match s.cursor.text with
  | [] =>
    closeBlocks 0
    dropCandidate
    return false
  | c :: rest =>
    let next := rest.head?
    if s.cursor.isMarker '-' then scanMarker .documentStart
    else if s.cursor.isMarker '.' then scanMarker .documentEnd
    else if c = '[' then scanOpening .flowSequence
    else if c = '\x7b' then scanOpening .flowMapping
    else if c = ']' then scanClosing .flowSequenceEnd
    else if c = '\x7d' then scanClosing .flowMappingEnd
    else if c = ',' then scanComma
    else if c = '-' && isGap next then scanItem
    else if c = '?' && isGap next then scanKey
    else if c = ':' && (isGap next || s.inFlow && (next.any isFlowMark || s.cursor.index = s.adjacent)) then scanValue
    else if c = '\'' || c = '"' then scanQuoted
    else if isReserved c || !s.inFlow && (c = '|' || c = '>') then failure
    else scanPlain
    return true

def scanTokens : Nat → Scanner Unit
  | 0 => failure
  | fuel + 1 => do
    if ← scanToken then scanTokens fuel

def tokens? (text : String) : Option (List Token) := do
  let chars := text.toList.takeWhile (· ≠ '\x00')
  let ((), s) ← (scanTokens (chars.length + 1)).run { cursor := { text := chars } }
  return s.tokens.toList

end Yaml

end BehaviorTree
