import Inliner.Yaml.Property

/-! Nodes and the places where they may stand. What a node may be depends on the style around it and
on its indentation relative to its parent. -/
namespace Inliner.Yaml

open Read

inductive Context where
  | flowIn | flowOut | blockIn | blockOut
  deriving DecidableEq

def Context.isBlock : Context → Bool
  | .blockIn | .blockOut => true
  | _ => false

/-- A place for a node below a parent of the given indentation. -/
structure Slot where
  parent : Int
  context : Context
  seek : Bool
  compact : Bool

structure Content where
  kind : Option Kind
  item : Item

structure Node where
  tag : Option String
  anchor : Option String
  content : Option Content

namespace Node

def isPresent (n : Node) : Bool := n.tag.isSome || n.anchor.isSome || n.content.isSome

def item (n : Node) : Item := (n.content.map (·.item)).getD .null

end Node

/-- What the form of a scalar gives it. Only a scalar, or nothing at all, has a form. -/
def formOf? (kind : Option Kind) (item : Item) : Except String (Option (String × Atom)) :=
  match item with
  | .scalar a =>
    if kind = some .scalar ∨ item.isNull then Tag.ofForm? a
    else throw "unacceptable node kind for an implicit tag"
  | .collection _ => throw "unacceptable node kind for an implicit tag"

/-- A node from its tag and content. The tag `!` keeps the content and the anchor as they are. -/
def finish (tag anchor : Option String) (content : Option Content) : Read Node := do
  let kind := content.bind (·.kind)
  let item := (content.map (·.item)).getD .null
  match tag with
  | none =>
    setAnchor anchor item
    pure ⟨tag, anchor, content⟩
  | some t =>
    if t = Tag.implicit then
      match ← (formOf? kind item : Except String _) with
      | some (t, a) =>
        setAnchor anchor (.scalar a)
        pure ⟨some t, anchor, some ⟨kind, .scalar a⟩⟩
      | none => pure ⟨tag, anchor, content⟩
    else if t = Tag.nonSpecific then pure ⟨tag, anchor, content⟩
    else
      let item ← onGraph fun g =>
        match Tag.construct? g t kind item with
        | none => throw "cannot resolve a node with an explicit tag"
        | some made => pure made
      setAnchor anchor item
      pure ⟨tag, anchor, some ⟨kind, item⟩⟩

def blockScalar (indent : Int) (p : Properties) : Read (Option Node) := do
  match ← scan (readBlock? indent) with
  | none => pure none
  | some w =>
    setAnchor p.anchor (.text w)
    some <$> finish p.tag p.anchor (some ⟨some .scalar, .text w⟩)

def scalarText? (context : Context) (indent : Int) : Read (Option (Text.Wide × Bool)) := do
  if let some w ← scan readQuoted? then return some (w, false)
  return (← scan (readPlain? indent (context == .flowIn))).map (·, true)

def leaf (context : Context) (indent : Int) (p : Properties) : Read Node := do
  if let some item ← readAlias? then
    if p.tag.isSome || p.anchor.isSome then throw "alias node should not have any properties"
    return ⟨none, none, some ⟨none, item⟩⟩
  match ← scalarText? context indent with
  | some (w, plain) =>
    setAnchor p.anchor (.text w)
    let tag := if plain then p.tag.orElse fun _ => some Tag.implicit else p.tag
    finish tag p.anchor (some ⟨some .scalar, .text w⟩)
  | none =>
    setAnchor p.anchor .null
    finish p.tag p.anchor none

end Inliner.Yaml
