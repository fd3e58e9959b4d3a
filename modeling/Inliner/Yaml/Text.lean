import Inliner.Yaml.Cursor

/-! The written forms of a scalar: plain, in single or double quotes, or as an indented block. Each
reader gives the text and the place after it. -/
namespace Inliner.Yaml

open Text (Wide)

def checkPrintable (cs : List Char) : Fallible (List Char) :=
  if cs.any isUnprintable then throw "the stream contains non-printable characters" else pure cs

/-- A plain scalar on its way. `done` holds what is folded already, `segment` the current run up to
its last visible character, `white` the white space after that; all are reversed. -/
structure PlainState where
  done : List Char := []
  segment : List Char := []
  white : List Char := []
  mark : Cursor
  /-- The line on which a line break was met that no content has followed yet. -/
  pending : Option Nat := none

def PlainState.reversed (s : PlainState) : Fallible (List Char) := do
  pure ((← checkPrintable s.segment) ++ s.done)

def PlainState.text (s : PlainState) : Fallible (List Char) := do
  pure (← s.reversed).reverse

def startsPlain (c : Cursor) (inFlow : Bool) : Bool :=
  match c.peek with
  | none => false
  | some ch =>
    if isGap ch || isFlowIndicator ch ||
        ['#', '&', '*', '!', '|', '>', '\'', '"', '%', '@', Char.ofNat 0x60].contains ch then false
    else if ch == '?' || ch == '-' then
      match c.peekAt 1 with
      | none => true
      | some f => !(isGap f || (inFlow && isFlowIndicator f))
    else true

def endsPlain (c : Cursor) (inFlow : Bool) (ch : Char) : Bool :=
  if ch == ':' then
    match c.peekAt 1 with
    | none => false
    | some f => isGap f || (inFlow && isFlowIndicator f)
  else if ch == '#' then isGap c.before
  else c.atDocumentEnd || (inFlow && isFlowIndicator ch)

def plainLoop (indent : Int) (inFlow : Bool) : (fuel : Nat) → PlainState → Cursor →
    Fallible (List Char × Cursor)
  | 0, s, c => do pure (← s.text, c)
  | fuel + 1, s, c => do
    match c.peek with
    | none => pure (← s.text, c)
    | some ch =>
      if endsPlain c inFlow ch then pure (← s.text, c)
      else if isEol ch then
        let (_, after) := c.separate false
        if indent ≤ after.indent then
          plainLoop indent inFlow fuel { s with pending := some c.line, white := [] } after
        else pure (← s.text, { s.mark with tab := after.tab })
      else
        let s ← match s.pending with
          | none => pure s
          | some line => do
            let text ← s.reversed
            pure { done := (folded (c.line - line)).reverse ++ text, mark := c : PlainState }
        let s := if isWhite ch then { s with white := ch :: s.white }
          else { s with segment := ch :: s.white ++ s.segment, white := [], mark := c.next }
        plainLoop indent inFlow fuel s c.next

def readPlain? (indent : Int) (inFlow : Bool) (c : Cursor) :
    Fallible (Option (Wide × Cursor)) := do
  if startsPlain c inFlow then
    let (text, after) ← plainLoop indent inFlow (c.remaining + 1) { mark := c } c
    pure (if text.isEmpty then none else some (.whole (String.ofList text), after))
  else pure none

def isBareControl (c : Char) : Bool := c.toNat < 0x20 && c != '\t'

/-- A quoted scalar on its way, in 16-bit units so that two escapes can make one character. `done`
is what counts already and `white` the white space after it, which a line break drops; both are
reversed. -/
structure QuotedState where
  done : List Nat := []
  white : List Nat := []

namespace QuotedState

def units (s : QuotedState) : List Nat := s.white ++ s.done

def text (s : QuotedState) : Wide := .ofUnits s.units.reverse

def push (s : QuotedState) (us : List Nat) : QuotedState := { done := us.reverse ++ s.units }

def literal (s : QuotedState) (ch : Char) : QuotedState :=
  if isWhite ch then { s with white := ch.toNat :: s.white } else s.push (Text.charUnits ch)

def fold (s : QuotedState) (breaks : Nat) : QuotedState :=
  { done := ((folded breaks).map Char.toNat).reverse ++ s.done }

end QuotedState

def quotedStep (s : QuotedState) (c : Cursor) (ch : Char) : Fallible (QuotedState × Cursor) :=
  if isEol ch then
    let (breaks, after) := c.separate false
    pure (s.fold breaks, after)
  else if c.atDocumentEnd then throw "unexpected end of the document within a quoted scalar"
  else if isBareControl ch then throw "expected valid JSON character"
  else pure (s.literal ch, c.next)

def singleLoop : (fuel : Nat) → QuotedState → Cursor → Fallible (Wide × Cursor)
  | 0, _, _ => throw "unexpected end of the stream within a quoted scalar"
  | fuel + 1, s, c => do
    match c.peek with
    | none => throw "unexpected end of the stream within a quoted scalar"
    | some '\'' =>
      if c.peekAt 1 = some '\'' then singleLoop fuel (s.push ['\''.toNat]) (c.skip 2)
      else pure (s.text, c.next)
    | some ch =>
      let (s, c) ← quotedStep s c ch
      singleLoop fuel s c

def simpleEscape? (c : Char) : Option Nat :=
  match c with
  | '0' => some 0
  | 'a' => some 7
  | 'b' => some 8
  | 't' | '\t' => some 9
  | 'n' => some 10
  | 'v' => some 11
  | 'f' => some 12
  | 'r' => some 13
  | 'e' => some 27
  | ' ' => some 32
  | '"' => some 34
  | '/' => some 47
  | '\\' => some 92
  | 'N' => some 0x85
  | '_' => some 0xA0
  | 'L' => some 0x2028
  | 'P' => some 0x2029
  | _ => none

def hexLength? : Char → Option Nat
  | 'x' => some 2
  | 'u' => some 4
  | 'U' => some 8
  | _ => none

/-- The units of a code written in at most eight hexadecimal digits. From 2^31 on it counts as
negative, and what is not above U+FFFF keeps its low 16 bits. -/
def codeUnits (n : Nat) : List Nat :=
  if n < 0x10000 ∨ 0x80000000 ≤ n then [n % 0x10000]
  else [(0xD800 + (n - 0x10000) / 0x400) % 0x10000, 0xDC00 + (n - 0x10000) % 0x400]

def readEscape (c : Cursor) : Fallible (List Nat × Cursor) :=
  match c.peek with
  | none => throw "unknown escape sequence"
  | some ch =>
    if isEol ch then pure ([], (c.separate false).2)
    else match simpleEscape? ch with
      | some n => pure ([n], c.next)
      | none => match hexLength? ch with
        | none => throw "unknown escape sequence"
        | some length =>
          let digits := c.next.rest.take length
          match digits.mapM Text.hexValue? with
          | some ds =>
            if ds.length = length then
              pure (codeUnits (ds.foldl (fun v d => v * 16 + d) 0), c.skip (length + 1))
            else throw "expected hexadecimal character"
          | none => throw "expected hexadecimal character"

def doubleLoop : (fuel : Nat) → QuotedState → Cursor → Fallible (Wide × Cursor)
  | 0, _, _ => throw "unexpected end of the stream within a quoted scalar"
  | fuel + 1, s, c => do
    match c.peek with
    | none => throw "unexpected end of the stream within a quoted scalar"
    | some '"' => pure (s.text, c.next)
    | some '\\' =>
      let (us, after) ← readEscape c.next
      doubleLoop fuel (s.push us) after
    | some ch =>
      let (s, c) ← quotedStep s c ch
      doubleLoop fuel s c

def readQuoted? (c : Cursor) : Fallible (Option (Wide × Cursor)) :=
  match c.peek with
  | some '\'' => some <$> singleLoop (c.remaining + 1) {} c.next
  | some '"' => some <$> doubleLoop (c.remaining + 1) {} c.next
  | _ => pure none

inductive Chomping where
  | clip | strip | keep
  deriving DecidableEq

structure BlockHeader where
  chomping : Option Chomping := none
  width : Option Nat := none

def readHeader : (fuel : Nat) → BlockHeader → Cursor → Fallible (BlockHeader × Cursor)
  | 0, h, c => pure (h, c)
  | fuel + 1, h, c =>
    match c.peek with
    | none => pure (h, c)
    | some ch =>
      if ch == '+' || ch == '-' then
        if h.chomping.isSome then throw "repeat of a chomping mode identifier"
        else
          readHeader fuel { h with chomping := some (if ch == '+' then .keep else .strip) } c.next
      else if ch.isDigit then
        if ch == '0' then throw "bad explicit indentation width of a block scalar"
        else if h.width.isSome then throw "repeat of an indentation width identifier"
        else readHeader fuel { h with width := some (ch.toNat - '0'.toNat) } c.next
      else pure (h, c)

/-- A block scalar on its way. -/
structure BlockState where
  text : List Char := []
  indent : Int
  settled : Bool
  started : Bool := false
  emptyLines : Nat := 0
  moreIndented : Bool := false

def lineFeeds (n : Nat) : List Char := List.replicate n '\n'

def BlockState.join (s : BlockState) (folding : Bool) (ch : Option Char) :
    List Char × Bool :=
  let plain := lineFeeds (if s.started then 1 + s.emptyLines else s.emptyLines)
  if !folding then (plain, s.moreIndented)
  else if (ch.map isWhite).getD false then (plain, true)
  else if s.moreIndented then (lineFeeds (s.emptyLines + 1), false)
  else if s.emptyLines = 0 then (if s.started then [' '] else [], false)
  else (lineFeeds s.emptyLines, false)

def BlockState.chomped (s : BlockState) (chomping : Chomping) : List Char :=
  match chomping with
  | .keep =>
    s.text.reverse ++ lineFeeds (if s.started then 1 + s.emptyLines else s.emptyLines)
  | .clip => s.text.reverse ++ lineFeeds (if s.started then 1 else 0)
  | .strip => s.text.reverse

def blockIndent (s : BlockState) (c : Cursor) : Cursor :=
  let spaces := (c.rest.takeWhile (· == ' ')).length
  let taken := if s.settled then min spaces s.indent.toNat else spaces
  { c.skip taken with indent := taken }

def blockLoop (folding : Bool) (chomping : Chomping) : (fuel : Nat) → BlockState → Cursor →
    Fallible (List Char × Cursor)
  | 0, s, c => pure (s.text.reverse, c)
  | fuel + 1, s, c =>
    match c.peek with
    | none => pure (s.text.reverse, c)
    | some _ =>
      match c.lineBreak? with
      | none => throw "a line break is expected"
      | some c => do
        let c := blockIndent s c
        let s := if !s.settled ∧ s.indent < c.indent then { s with indent := c.indent } else s
        if (c.peek.map isEol).getD false then
          blockLoop folding chomping fuel { s with emptyLines := s.emptyLines + 1 } c
        else if !s.settled ∧ s.indent = 0 then throw "missing indentation for block scalar"
        else if (c.indent : Int) < s.indent then pure (s.chomped chomping, c)
        else
          let (breaks, moreIndented) := s.join folding c.peek
          let (line, after) := c.span fun ch => !isEol ch
          let line ← checkPrintable line
          blockLoop folding chomping fuel
            { s with
              text := line.reverse ++ breaks.reverse ++ s.text
              settled := true
              started := true
              emptyLines := 0
              moreIndented }
            after

/-- A block scalar below a node of the given indentation. -/
def readBlock? (indent : Int) (c : Cursor) : Fallible (Option (Wide × Cursor)) := do
  match c.peek with
  | some ch =>
    if ch == '|' || ch == '>' then
      let (h, c) ← readHeader (c.remaining + 1) {} c.next
      let c := if (c.peek.map isWhite).getD false then
          let c := (c.span isWhite).2
          if c.peek = some '#' then (c.span fun x => !isEol x).2 else c
        else c
      let start : BlockState :=
        { indent := match h.width with
            | some w => indent + w - 1
            | none => indent
          settled := h.width.isSome }
      let (text, after) ←
        blockLoop (ch == '>') (h.chomping.getD .clip) (c.remaining + 1) start c
      pure (some (.whole (String.ofList text), after))
    else pure none
  | none => pure none

end Inliner.Yaml
