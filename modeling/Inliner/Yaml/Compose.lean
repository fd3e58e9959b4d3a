import Inliner.Yaml.Collection

/-! Composition of nodes: properties, then a collection, a scalar or an alias. -/
namespace Inliner.Yaml

open Read

/-- The node in a place, given the reader of the nodes inside it. -/
def composeWith (inner : Slot → Read Node) (slot : Slot) : Read Node := do
  let blockStyles := slot.context.isBlock
  let mut p : Properties := { newLine := false, placed := .gt, collections := blockStyles }
  if slot.seek then
    if 0 < (← separate) then
      p := { p with newLine := true, placed := ← placement slot.parent }
  if p.placed = .gt then
    p ← readProperties slot.parent blockStyles p
  let collections := p.collections && (p.newLine || slot.compact)
  let flowIndent := if blockStyles then slot.parent + 1 else slot.parent
  let column := (← cursor).column
  if p.placed = .gt then
    if collections then
      if let some content ← blockSequence inner column p.anchor then
        return ← finish p.tag p.anchor (some content)
      match ← blockMapping inner column flowIndent p.anchor with
      | .found content => return ← finish p.tag p.anchor (some content)
      | .dropped => p := { p with tag := none, anchor := none }
      | .absent => pure ()
    if let some content ← flowCollection inner flowIndent p.anchor then
      return ← finish p.tag p.anchor (some content)
    if blockStyles then
      if let some node ← blockScalar flowIndent p then return node
    if let some start := p.start then
      if blockStyles && !collections then
        if let some content ← mappingFrom inner start flowIndent then
          return ← finish none none (some content)
    leaf slot.context flowIndent p
  else if p.placed = .eq ∧ slot.context = .blockOut ∧ collections then
    finish p.tag p.anchor (← blockSequence inner column p.anchor)
  else finish p.tag p.anchor none

def nestingLimit : Nat := 100

def compose : (depth : Nat) → Slot → Read Node
  | 0, _ => throw "nesting is too deep"
  | depth + 1, slot => composeWith (compose depth) slot

end Inliner.Yaml
