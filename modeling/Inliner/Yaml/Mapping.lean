import Inliner.Yaml.Graph

/-! Keys and merging. Keys become texts and may not repeat; a merge key brings in the fields of
other collections where they are not given, and a field brought in so may be given later. -/
namespace Inliner.Yaml

open Text (Wide)

namespace Mapping

def has (m : Mapping) (key : Wide) : Bool := (m.fields.lookup key).isSome

def put (key : Wide) (item : Item) : List (Wide × Item) → List (Wide × Item)
  | [] => [(key, item)]
  | f :: rest => if f.1 = key then (key, item) :: rest else f :: put key item rest

/-- Take in one pair; only a key that came in by merging may be there already. -/
def give (m : Mapping) (key : Wide) (item : Item) : Except String Mapping :=
  if m.has key ∧ !m.merged.contains key then throw "duplicated mapping key"
  else pure ⟨put key item m.fields, m.merged.filter (· != key)⟩

def listing (fields : List (Wide × Item)) : List (Wide × Item) :=
  (listingOrder (fields.map fun f => (f.1.shown, f))).map (·.2)

def mergeFields (m : Mapping) (source : List (Wide × Item)) : Mapping :=
  (listing source).foldl (fun m f =>
    if m.has f.1 then m else ⟨m.fields ++ [f], f.1 :: m.merged⟩) m

def merge (m : Mapping) (sources : List (List (Wide × Item))) : Mapping :=
  sources.foldl mergeFields m

/-- Merging costs one for each source and one for each of its fields. -/
def cost (sources : List (List (Wide × Item))) : Nat :=
  sources.foldr (fun s n => s.length + 1 + n) 0

end Mapping

def positions (items : List Item) : List (Wide × Item) :=
  items.zipIdx.map fun x => (.whole (toString x.2), x.1)

def Atom.keyText : Atom → Wide
  | .text w => w
  | a => .whole a.value.toText

def Atom.listedText : Atom → Wide
  | .null => .whole ""
  | a => a.keyText

def mappingText : Wide := .whole "[object Object]"

namespace Graph

def keyText (g : Graph) (item : Item) : Except String Wide :=
  match item with
  | .scalar a => pure a.keyText
  | .collection _ =>
    match g.sequence? item with
    | none => pure mappingText
    | some items => do
      let texts ← items.mapM fun
        | .scalar a => pure a.listedText
        | inner =>
          if (g.sequence? inner).isSome then throw "nested arrays are not supported inside keys"
          else pure mappingText
      pure (.ofUnits ([','.toNat].intercalate (texts.map (·.units))))

/-- The fields of an item that can be merged. -/
def mergeable (g : Graph) (item : Item) : Except String (List (Wide × Item)) :=
  match item, g.sequence? item, g.mapping? item with
  | _, some items, _ => pure (positions items)
  | _, _, some m => pure m.fields
  | .scalar (.bytes b), _, _ =>
    pure (positions (b.map fun x => .scalar (.number (.ofNat x.toNat))))
  | .scalar (.instant _), _, _ => pure []
  | _, _, _ => throw "cannot merge mappings; the provided source object is unacceptable"

def mergeLength : Nat := 100

def sources (g : Graph) (item : Item) : Except String (List (List (Wide × Item))) :=
  match g.sequence? item with
  | some items =>
    if mergeLength < items.length then throw "merge sequence is too long"
    else items.mapM g.mergeable
  | none => do pure [← g.mergeable item]

end Graph
end Inliner.Yaml
