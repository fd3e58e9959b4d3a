import Inliner.Value

/-! The graph of a document. A scalar holds an atom; a list or a mapping is known by its number, so
that aliases share it and it may even contain itself. -/
namespace Inliner.Yaml

open Text (Wide)

inductive Atom where
  | null
  | bool (b : Bool)
  | number (n : Number)
  | text (w : Wide)
  | instant (t : Instant)
  | bytes (b : Text.Bytes)
  deriving DecidableEq, Repr, Inhabited

def Atom.value : Atom → Value
  | .null => .null
  | .bool b => .bool b
  | .number n => .number n
  | .text w => .ofWide w
  | .instant t => .instant t
  | .bytes b => .bytes b

/-- A scalar, or the number of a collection. -/
inductive Item where
  | scalar (a : Atom)
  | collection (number : Nat)
  deriving DecidableEq, Repr, Inhabited

namespace Item

def null : Item := .scalar .null

def text (w : Wide) : Item := .scalar (.text w)

def isNull : Item → Bool
  | .scalar .null => true
  | _ => false

end Item

structure Mapping where
  fields : List (Wide × Item) := []
  merged : List Wide := []
  deriving Repr, Inhabited

inductive Collection where
  | sequence (items : Array Item)
  | mapping (m : Mapping)
  deriving Repr, Inhabited

/-- The collections of a document by their numbers. -/
structure Graph where
  collections : Array Collection := #[]
  deriving Repr, Inhabited

namespace Graph

def add (g : Graph) (c : Collection) : Item × Graph :=
  (.collection g.collections.size, ⟨g.collections.push c⟩)

def sequence? (g : Graph) : Item → Option (List Item)
  | .scalar _ => none
  | .collection n =>
    match g.collections[n]? with
    | some (.sequence items) => some items.toList
    | _ => none

def mapping? (g : Graph) : Item → Option Mapping
  | .scalar _ => none
  | .collection n =>
    match g.collections[n]? with
    | some (.mapping m) => some m
    | _ => none

def single? (g : Graph) (item : Item) : Option (Wide × Item) :=
  match (g.mapping? item).map (·.fields) with
  | some [f] => some f
  | _ => none

def append (g : Graph) (number : Nat) (item : Item) : Graph :=
  ⟨g.collections.modify number fun
    | .sequence items => .sequence (items.push item)
    | c => c⟩

def setMapping (g : Graph) (number : Nat) (m : Mapping) : Graph :=
  ⟨g.collections.setIfInBounds number (.mapping m)⟩

def valueOf (inner : Item → StateM (Array (Option Value)) Value) :
    Option Collection → StateM (Array (Option Value)) Value
  | some (.sequence items) => return .list (← items.toList.mapM inner)
  | some (.mapping m) => return .record (← m.fields.mapM fun f => return (f.1.shown, ← inner f.2))
  | none => pure .absent

/-- The value of an item on the way. The values of collections are kept as they are found, so that
a shared one is made once; one that is met while its own value is being made contains itself. -/
def unfold (g : Graph) : (depth : Nat) → Item → StateM (Array (Option Value)) Value
  | _, .scalar a => pure a.value
  | 0, .collection _ => pure .circle
  | depth + 1, .collection n => do
    if let some (some v) := (← get)[n]? then return v
    modify (·.setIfInBounds n (some .circle))
    let v ← valueOf (unfold g depth) g.collections[n]?
    modify (·.setIfInBounds n (some v))
    pure v

def value (g : Graph) (item : Item) : Value :=
  ((unfold g (g.collections.size + 1) item).run (Array.replicate g.collections.size none)).1

end Graph
end Inliner.Yaml
