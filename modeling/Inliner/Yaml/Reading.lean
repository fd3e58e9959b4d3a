import Inliner.Yaml.Mapping
import Inliner.Yaml.Tag
import Inliner.Yaml.Text

/-! The state of a reading: where it stands, the graph so far, the items that aliases can name, the
declared tag handles and what merging has cost. -/
namespace Inliner.Yaml

structure Reading where
  cursor : Cursor
  graph : Graph := {}
  anchors : List (String × Item) := []
  handles : List (String × String) := []
  mergeCost : Nat := 0

abbrev Read := StateT Reading (Except String)

namespace Read

def cursor : Read Cursor := do pure (← get).cursor

def move (c : Cursor) : Read Unit := modify fun r => { r with cursor := c }

def peek : Read (Option Char) := do pure (← cursor).peek

def advance : Read Unit := do move (← cursor).next

def separate : Read Nat := do
  let (breaks, c) := (← cursor).separate true
  move c
  pure breaks

def takeWhile (p : Char → Bool) : Read (List Char) := do
  let (taken, c) := (← cursor).span p
  move c
  pure taken

def scan (reader : Cursor → Fallible (Option (Text.Wide × Cursor))) : Read (Option Text.Wide) := do
  match ← (reader (← cursor) : Except String _) with
  | none => pure none
  | some (s, c) =>
    move c
    pure (some s)

def setAnchor (name : Option String) (item : Item) : Read Unit :=
  match name with
  | none => pure ()
  | some a => modify fun r => { r with anchors := (a, item) :: r.anchors }

def onGraph {α : Type} (f : Graph → Except String (α × Graph)) : Read α :=
  fun ⟨cursor, graph, anchors, handles, cost⟩ => do
    let (a, graph) ← f graph
    pure (a, ⟨cursor, graph, anchors, handles, cost⟩)

/-- A new collection, which the anchor names at once, so that aliases inside it mean it. -/
def openCollection (anchor : Option String) (c : Collection) : Read Item := do
  let item ← onGraph fun g => pure (g.add c)
  setAnchor anchor item
  pure item

def mergeLimit : Nat := 10000

def charge (cost : Nat) : Read Unit := do
  let total := (← get).mergeCost + cost
  if mergeLimit < total then throw "too many merged keys"
  modify fun r => { r with mergeCost := total }

def append (sequence item : Item) : Read Unit :=
  match sequence with
  | .collection n => onGraph fun g => pure ((), g.append n item)
  | .scalar _ => pure ()

/-- Take a pair into a mapping, or merge its value; `tag` is the tag of the key. -/
def store (mapping : Item) (tag : Option String) (key value : Item) : Read Unit := do
  match mapping with
  | .scalar _ => pure ()
  | .collection n =>
    let cost ← onGraph fun g => do
      let name ← g.keyText key
      let m := (g.mapping? mapping).getD {}
      if tag = some Tag.merge then
        let sources ← g.sources value
        pure (Mapping.cost sources, g.setMapping n (m.merge sources))
      else pure (0, g.setMapping n (← m.give name value))
    charge cost

end Read
end Inliner.Yaml
