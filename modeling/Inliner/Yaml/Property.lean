import Inliner.Yaml.Reading

/-! The properties of a node, a tag and an anchor, and the aliases that name an anchored node. -/
namespace Inliner.Yaml

open Read

def isHandle (s : String) : Bool :=
  match s.toList with
  | ['!'] => true
  | ['!', '!'] => true
  | '!' :: rest =>
    rest.getLast? == some '!' && 1 < rest.length &&
      rest.dropLast.all fun c => c.isAlphanum || c == '-'
  | _ => false

def isTagChar (c : Char) : Bool :=
  c.isAlphanum || "-#;/?:@&=+$,_.!~*'()[]".toList.contains c

def isTagTail : List Char → Bool
  | [] => true
  | '%' :: a :: b :: rest =>
    (Text.hexValue? a).isSome && (Text.hexValue? b).isSome && isTagTail rest
  | c :: rest => isTagChar c && isTagTail rest

def isTagUri : List Char → Bool
  | [] => false
  | c :: rest => !isFlowIndicator c && c.toNat < 0x10000 && isTagTail rest

def tagBytes? : List Char → Option Text.Bytes
  | [] => some []
  | '%' :: a :: b :: rest => do
    let x ← Text.hexValue? a
    let y ← Text.hexValue? b
    pure (UInt8.ofNat (x * 16 + y) :: (← tagBytes? rest))
  | c :: rest => if c = '%' then none else do pure (String.utf8EncodeChar c ++ (← tagBytes? rest))

def decodeTag (cs : List Char) : Except String String :=
  match tagBytes? cs with
  | none => throw "tag name is malformed"
  | some bytes =>
    let text := Text.decodeUtf8 bytes
    if Text.encodeUtf8 text = bytes then pure text else throw "tag name is malformed"

/-- Split what follows `!` into a handle and a suffix. -/
def splitHandle (cs : List Char) : Except String (String × List Char) :=
  match cs with
  | '!' :: rest =>
    if rest.contains '!' then throw "tag suffix cannot contain exclamation marks"
    else pure ("!!", rest)
  | cs =>
    if cs.contains '!' then
      let handle := '!' :: cs.takeWhile (· != '!') ++ ['!']
      let suffix := (cs.dropWhile (· != '!')).drop 1
      if !isHandle (String.ofList handle) then
        throw "named tag handle cannot contain such characters"
      else if suffix.contains '!' then throw "tag suffix cannot contain exclamation marks"
      else pure (String.ofList handle, suffix)
    else pure ("!", cs)

def readTag? : Read (Option String) := do
  if (← peek) != some '!' then return none
  advance
  if (← peek) == some '<' then
    advance
    let first := (← peek).toList
    advance
    let name := first ++ (← takeWhile (· != '>'))
    if (← peek).isNone then throw "unexpected end of the stream within a verbatim tag"
    advance
    if !isTagUri name then throw "tag name cannot contain such characters"
    return some (← decodeTag name)
  let written ← takeWhile fun c => !isGap c
  let (handle, suffix) ← splitHandle written
  if suffix.any isFlowIndicator then throw "tag suffix cannot contain flow indicator characters"
  if !suffix.isEmpty && !isTagUri suffix then throw "tag name cannot contain such characters"
  let suffix ← decodeTag suffix
  match (← get).handles.lookup handle, handle with
  | some start, _ => return some (start ++ suffix)
  | none, "!" => return some ("!" ++ suffix)
  | none, "!!" => return some (Tag.standard ++ suffix)
  | none, _ => throw "undeclared tag handle"

def readName? (mark : Char) : Read (Option String) := do
  if (← peek) != some mark then return none
  advance
  let name ← takeWhile fun c => !(isGap c || isFlowIndicator c)
  if name.isEmpty then throw "name of an anchor node must contain at least one character"
  return some (String.ofList name)

def readAlias? : Read (Option Item) := do
  match ← readName? '*' with
  | none => pure none
  | some name =>
    match (← get).anchors.lookup name with
    | none => throw "unidentified alias"
    | some item =>
      let _ ← separate
      pure (some item)

structure Properties where
  tag : Option String := none
  anchor : Option String := none
  start : Option Cursor := none
  newLine : Bool
  placed : Ordering
  collections : Bool

def Properties.repeats (p : Properties) (ch : Option Char) : Bool :=
  (p.tag.isSome && ch == some '!') || (p.anchor.isSome && ch == some '&')

def placement (parent : Int) : Read Ordering := do pure (compare ((← cursor).indent : Int) parent)

/-- Up to so many properties in front of a node. A second one of a kind on a later line belongs to a
node inside. -/
def readPropertiesWithin (parent : Int) (blockStyles : Bool) : (most : Nat) → Properties →
    Read Properties
  | 0, p => pure p
  | most + 1, p => do
    let start ← cursor
    if p.newLine && p.repeats start.peek then return p
    let found ← match ← readTag? with
      | some t =>
        if p.tag.isSome then throw "duplication of a tag property"
        pure (some { p with tag := some t })
      | none => match ← readName? '&' with
        | some a =>
          if p.anchor.isSome then throw "duplication of an anchor property"
          pure (some { p with anchor := some a })
        | none => pure none
    match found with
    | none => pure p
    | some p =>
      let p := { p with start := p.start.orElse fun _ => some start }
      if 0 < (← separate) then
        readPropertiesWithin parent blockStyles most
          { p with newLine := true, collections := blockStyles, placed := ← placement parent }
      else readPropertiesWithin parent blockStyles most { p with collections := false }

def readProperties (parent : Int) (blockStyles : Bool) (p : Properties) : Read Properties :=
  readPropertiesWithin parent blockStyles 3 p

end Inliner.Yaml
