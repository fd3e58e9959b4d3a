import Inliner.Yaml.Compose

/-! YAML documents. A settings file holds at most one; a text without any node is no document. -/
namespace Inliner.Yaml

open Read

structure Directives where
  version : Bool := false
  present : Bool := false

def isVersionOne (s : String) : Bool :=
  let major := s.toList.takeWhile Char.isDigit
  match s.toList.dropWhile Char.isDigit with
  | '.' :: minor =>
    !minor.isEmpty && minor.all Char.isDigit && Number.natInBase? 10 major == some 1
  | _ => false

def directiveWords : (fuel : Nat) → Cursor → List String × Cursor
  | 0, c => ([], c)
  | fuel + 1, c =>
    let c := (c.span isWhite).2
    match c.peek with
    | none => ([], c)
    | some ch =>
      if ch == '#' then ([], (c.span fun x => !isEol x).2)
      else if isEol ch then ([], c)
      else
        let (word, c) := c.span fun x => !isGap x
        let (words, c) := directiveWords fuel c
        (String.ofList word :: words, c)

def applyDirective (d : Directives) (name : String) (words : List String) : Read Directives := do
  match name, words with
  | "YAML", [version] =>
    if d.version then throw "duplication of %YAML directive"
    if !isVersionOne version then throw "unacceptable YAML version of the document"
    pure { d with version := true }
  | "YAML", _ => throw "YAML directive accepts exactly one argument"
  | "TAG", [handle, start] =>
    if !isHandle handle then throw "ill-formed tag handle of the TAG directive"
    if ((← get).handles.lookup handle).isSome then throw "tag handle declared before"
    if !isTagUri start.toList then throw "ill-formed tag prefix of the TAG directive"
    let start ← decodeTag start.toList
    modify fun r => { r with handles := (handle, start) :: r.handles }
    pure d
  | "TAG", _ => throw "TAG directive accepts exactly two arguments"
  | _, _ => pure d

def readDirectives : (fuel : Nat) → Directives → Read Directives
  | 0, d => pure d
  | fuel + 1, d => do
    if (← peek).isNone then return d
    let _ ← separate
    let c ← cursor
    if 0 < c.indent || c.peek != some '%' then return d
    advance
    let name ← takeWhile fun ch => !isGap ch
    if name.isEmpty then throw "directive name must not be less than one character in length"
    let c ← cursor
    let (words, c) := directiveWords (c.remaining + 1) c
    match c.peek, c.lineBreak? with
    | none, _ => move c
    | some _, some c => move c
    | some _, none => throw "a line break is expected"
    let d ← applyDirective { d with present := true } (String.ofList name) words
    readDirectives fuel d

/-- The root node of a document and the collections that it refers to. -/
structure Root where
  graph : Graph
  item : Item
  deriving Repr, Inhabited

namespace Root

def value (r : Root) : Value := r.graph.value r.item

end Root

/-- One document: directives, a mark, and the root node. -/
def readDocument : Read Root := do
  modify fun r => { r with anchors := [], handles := [], graph := {} }
  let d ← readDirectives ((← cursor).remaining + 1) {}
  let _ ← separate
  let c ← cursor
  match c.rest with
  | '-' :: '-' :: '-' :: _ =>
    if c.indent = 0 then
      move (c.skip 3)
      let _ ← separate
    else if d.present then throw "directives end mark is expected"
  | _ => if d.present then throw "directives end mark is expected"
  let node ← compose nestingLimit ⟨(← cursor).indent - 1, .blockOut, false, true⟩
  let _ ← separate
  let c ← cursor
  if c.atDocumentEnd then
    if c.peek == some '.' then
      move (c.skip 3)
      let _ ← separate
  else if 1 < c.remaining then throw "end of the stream or a document separator is expected"
  pure ⟨(← get).graph, node.item⟩

def readDocuments : (documents : Nat) → Read (List Root)
  | 0 => pure []
  | documents + 1 => do
    if (← cursor).remaining ≤ 1 then return []
    let r ← readDocument
    let more ← readDocuments documents
    pure (r :: more)

def prepare (cs : List Char) : List Char :=
  let cs := match cs.getLast? with
    | some c => if isEol c then cs else cs ++ ['\n']
    | none => cs
  match cs with
  | c :: rest => if c.toNat = 0xFEFF then rest else cs
  | [] => []

def root? (text : String) : Except String (Option Root) := do
  let cs := prepare text.toList
  if cs.contains (Char.ofNat 0) then throw "null byte is not allowed in input"
  let (spaces, c) := ({ rest := cs, size := cs.length : Cursor }).span (· == ' ')
  let start : Reading := { cursor := { c with indent := spaces.length } }
  match ← (readDocuments (cs.length + 1)).run' start with
  | [] => pure none
  | [r] => pure (some r)
  | _ => throw "expected a single document in the stream, but found more"

/-- The value of the document in a text; `absent` if there is none. -/
def load (text : String) : Except String Value := do
  match ← root? text with
  | none => pure .absent
  | some r => pure r.value

end Inliner.Yaml
