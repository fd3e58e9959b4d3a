import Inliner.Yaml.Node

/-! Collections: sequences and mappings in block style, by indentation, and in flow style, in
brackets or braces. Each reader takes the reader of the nodes inside. -/
namespace Inliner.Yaml

open Read

variable (inner : Slot → Read Node)

def sequenceItems (column : Nat) (sequence : Item) : (fuel : Nat) → (found : Bool) → Read Bool
  | 0, found => pure found
  | fuel + 1, found => do
    let c ← cursor
    if c.peek.isNone then return found
    if c.tab then throw "tab characters must not be used in indentation"
    if c.peek != some '-' || !((c.peekAt 1).map isGap).getD false then return found
    advance
    if 0 < (← separate) then
      if (← cursor).indent ≤ column then
        append sequence .null
        return ← sequenceItems column sequence fuel true
    let line := (← cursor).line
    let node ← inner ⟨column, .blockIn, false, true⟩
    append sequence node.item
    let _ ← separate
    let c ← cursor
    if (c.line == line || column < c.indent) && c.peek.isSome then
      throw "bad indentation of a sequence entry"
    if c.indent < column then return true
    sequenceItems column sequence fuel true

def blockSequence (column : Nat) (anchor : Option String) : Read (Option Content) := do
  let c ← cursor
  if c.tab then return none
  let sequence ← openCollection anchor (.sequence #[])
  if ← sequenceItems inner column sequence (c.remaining + 1) false then
    return some ⟨some .sequence, sequence⟩
  else return none

/-- A block mapping on its way. -/
structure BlockMapping where
  mapping : Item
  keyTag : Option String := none
  key : Item := .null
  explicit : Bool := false
  detected : Bool := false

namespace BlockMapping

def complete (b : BlockMapping) (value : Item) : Read BlockMapping := do
  store b.mapping b.keyTag b.key value
  pure { b with keyTag := none, key := .null }

def closeKey (b : BlockMapping) : Read BlockMapping :=
  if b.explicit then b.complete .null else pure b

end BlockMapping

inductive Opening where
  /-- The key is read or its mark passed; `compact` tells whether a collection may follow at
  once. -/
  | entry (b : BlockMapping) (compact : Bool)
  | ended
  | lone (content : Content)

inductive Attempt where
  | absent
  | dropped
  | found (content : Content)

def mappingKey (flowIndent : Int) (b : BlockMapping) : Read Opening := do
  let c ← cursor
  if (c.peek == some '?' || c.peek == some ':') && ((c.peekAt 1).map isGap).getD false then
    if c.peek == some '?' then
      let b ← b.closeKey
      advance
      return .entry { b with detected := true, explicit := true } true
    if b.explicit then
      advance
      return .entry { b with explicit := false } true
    throw "incomplete explicit mapping pair; a key node is missed"
  let node ← inner ⟨flowIndent, .flowOut, false, true⟩
  if !node.isPresent then return .ended
  let refuse : Read Opening :=
    if b.detected then throw "can not read an implicit mapping pair"
    else pure (.lone (node.content.getD ⟨none, .null⟩))
  if (← cursor).line != c.line then return ← refuse
  let _ ← takeWhile isWhite
  if (← peek) != some ':' then return ← refuse
  advance
  if !((← peek).map isGap).getD false then
    throw "a whitespace character is expected after the key-value separator"
  let b ← b.closeKey
  return .entry
    { b with detected := true, explicit := false, keyTag := node.tag, key := node.item } false

def mappingPairs (column : Nat) (flowIndent : Int) : (fuel : Nat) → BlockMapping → Read Attempt
  | 0, _ => throw "a mapping that does not end"
  | fuel + 1, b => do
    let close (b : BlockMapping) : Read Attempt := do
      let b ← b.closeKey
      if b.detected then pure (.found ⟨some .mapping, b.mapping⟩) else pure .dropped
    let c ← cursor
    if c.peek.isNone then return ← close b
    if !b.explicit && c.tab then throw "tab characters must not be used in indentation"
    let line := c.line
    match ← mappingKey inner flowIndent b with
    | .ended => close b
    | .lone content => pure (.found content)
    | .entry b compact =>
      let mut b := b
      let c ← cursor
      if c.line == line || column < c.indent then
        let node ← inner ⟨column, .blockOut, true, compact⟩
        if b.explicit then
          if node.isPresent then b := { b with key := node.item }
        else b ← b.complete node.item
        let _ ← separate
      let c ← cursor
      if (c.line == line || column < c.indent) && c.peek.isSome then
        throw "bad indentation of a mapping entry"
      if c.indent < column then close b
      else mappingPairs column flowIndent fuel b

def blockMapping (column : Nat) (flowIndent : Int) (anchor : Option String) : Read Attempt := do
  let c ← cursor
  if c.tab then return .absent
  let mapping ← openCollection anchor (.mapping {})
  if c.peek.isNone then return .absent
  mappingPairs inner column flowIndent (c.remaining + 1) { mapping }

/-- A mapping in block style whose first key bears the properties that begin at `start`; none, and
nothing is passed, if there is no such key. -/
def mappingFrom (start : Cursor) (flowIndent : Int) : Read (Option Content) := do
  let before ← get
  move start
  match ← blockMapping inner start.column flowIndent none with
  | .found ⟨some .mapping, mapping⟩ => return some ⟨some .mapping, mapping⟩
  | _ =>
    set before
    return none

/-- Read the entries of a flow collection up to its closing mark; `expected` tells whether one may
follow. -/
def flowEntries (indent : Int) (closing : Char) (collection : Item) : (fuel : Nat) →
    (expected : Bool) → Read Unit
  | 0, _ => throw "a flow collection that does not end"
  | fuel + 1, expected => do
    if (← peek).isNone then throw "unexpected end of the stream within a flow collection"
    let _ ← separate
    let c ← cursor
    if c.peek == some closing then
      advance
      return
    if !expected then throw "missed comma between flow collection entries"
    if c.peek == some ',' then throw "expected the node content, but found ','"
    let explicit := c.peek == some '?' && ((c.peekAt 1).map isGap).getD false
    if explicit then
      advance
      let _ ← separate
    let line := (← cursor).line
    let key ← inner ⟨indent, .flowIn, false, true⟩
    let _ ← separate
    let c ← cursor
    let colon := (explicit || c.line == line) && c.peek == some ':'
    let value ← if colon then do
        advance
        let _ ← separate
        pure (← inner ⟨indent, .flowIn, false, true⟩).item
      else pure .null
    if closing == ']' then
      if colon || explicit then
        let pair ← openCollection none (.mapping {})
        store pair key.tag key.item value
        append collection pair
      else append collection key.item
    else store collection key.tag key.item value
    let _ ← separate
    let comma := (← peek) == some ','
    if comma then advance
    flowEntries indent closing collection fuel comma

def flowCollection (indent : Int) (anchor : Option String) : Read (Option Content) := do
  let c ← cursor
  let read (kind : Kind) (empty : Collection) (closing : Char) : Read (Option Content) := do
    let collection ← openCollection anchor empty
    advance
    flowEntries inner indent closing collection (c.remaining + 2) true
    return some ⟨some kind, collection⟩
  if c.peek == some '[' then read .sequence (.sequence #[]) ']'
  else if c.peek == some (Char.ofNat 0x7B) then read .mapping (.mapping {}) (Char.ofNat 0x7D)
  else return none

end Inliner.Yaml
