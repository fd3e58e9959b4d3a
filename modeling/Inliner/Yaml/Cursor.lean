import Inliner.Value

/-! A place in a YAML text. Lines end at a line feed, a carriage return or both together; `indent`
counts the spaces in front of the line, and `tab` remembers a tab met between tokens of the line. -/
namespace Inliner.Yaml

structure Cursor where
  rest : List Char
  size : Nat
  before : Char := '\n'
  offset : Nat := 0
  line : Nat := 0
  lineStart : Nat := 0
  indent : Nat := 0
  tab : Bool := false

def isEol (c : Char) : Bool := c == '\n' || c == '\r'

def isWhite (c : Char) : Bool := c == '\t' || c == ' '

def isGap (c : Char) : Bool := isWhite c || isEol c

def isFlowIndicator (c : Char) : Bool :=
  c == ',' || c == '[' || c == ']' || c == Char.ofNat 0x7B || c == Char.ofNat 0x7D

def isUnprintable (c : Char) : Bool :=
  let n := c.toNat
  n ≤ 8 || n == 0xB || n == 0xC || (0xE ≤ n && n ≤ 0x1F) || (0x7F ≤ n && n ≤ 0x84) ||
    (0x86 ≤ n && n ≤ 0x9F) || n == 0xFFFE || n == 0xFFFF

namespace Cursor

def peek (c : Cursor) : Option Char := c.rest.head?

def peekAt (c : Cursor) (n : Nat) : Option Char := c.rest[n]?

/-- How many characters are left; each loop below takes at least one of them in a round. -/
def remaining (c : Cursor) : Nat := c.size - c.offset

def column (c : Cursor) : Nat := c.offset - c.lineStart

def atLineStart (c : Cursor) : Bool := c.offset == c.lineStart

def next (c : Cursor) : Cursor :=
  match c.rest with
  | [] => c
  | ch :: rest => { c with rest, before := ch, offset := c.offset + 1 }

def skip : (n : Nat) → Cursor → Cursor
  | 0, c => c
  | n + 1, c => skip n c.next

def span (c : Cursor) (p : Char → Bool) : List Char × Cursor :=
  let taken := c.rest.takeWhile p
  (taken, { c with
    rest := c.rest.dropWhile p
    before := taken.getLast?.getD c.before
    offset := c.offset + taken.length })

def lineBreak? (c : Cursor) : Option Cursor :=
  let after := match c.rest with
    | '\r' :: '\n' :: _ => some (c.skip 2)
    | '\r' :: _ => some c.next
    | '\n' :: _ => some c.next
    | _ => none
  after.map fun c => { c with line := c.line + 1, lineStart := c.offset, tab := false }

/-- Pass white space, and a comment up to its line's end if comments may stand here. -/
def skipWhite (c : Cursor) (comments : Bool) : Cursor :=
  let (white, c) := c.span isWhite
  let c := { c with tab := c.tab || white.contains '\t' }
  if comments ∧ c.peek = some '#' then (c.span fun ch => !isEol ch).2 else c

def skipLines (comments : Bool) : (fuel count : Nat) → Cursor → Nat × Cursor
  | 0, count, c => (count, c)
  | fuel + 1, count, c =>
    let c := c.skipWhite comments
    match c.lineBreak? with
    | none => (count, c)
    | some c =>
      let (spaces, c) := c.span (· == ' ')
      skipLines comments fuel (count + 1) { c with indent := spaces.length }

/-- Pass all that separates tokens, and count the line breaks. -/
def separate (c : Cursor) (comments : Bool) : Nat × Cursor :=
  skipLines comments (c.remaining + 1) 0 c

def atDocumentMark (c : Cursor) : Bool :=
  match c.rest with
  | '-' :: '-' :: '-' :: rest => (rest.head?.map isGap).getD true
  | '.' :: '.' :: '.' :: rest => (rest.head?.map isGap).getD true
  | _ => false

def atDocumentEnd (c : Cursor) : Bool := c.atLineStart && c.atDocumentMark

end Cursor

abbrev Fallible (α : Type) := Except String α

/-- Line breaks that fold: one becomes a blank, more lose one. -/
def folded (breaks : Nat) : List Char :=
  if breaks = 1 then [' '] else List.replicate (breaks - 1) '\n'

end Inliner.Yaml
