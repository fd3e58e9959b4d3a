import Inliner.Yaml.Graph
import Inliner.Yaml.Scalar

/-! Tags and what they make of a node. A plain scalar without a tag takes the first form that fits
it; with a tag a node must fit that tag, and a tag that is not known is refused. -/
namespace Inliner.Yaml

inductive Kind where
  | scalar | sequence | mapping
  deriving DecidableEq, Repr

namespace Tag

def standard : String := "tag:yaml.org,2002:"

def merge : String := standard ++ "merge"

def implicit : String := "?"

/-- The tag of a node that is taken as it is written. -/
def nonSpecific : String := "!"

def ofText? (s : String) : Option (String × Atom) :=
  if Scalar.isNull s then some (standard ++ "null", .null)
  else
    (Scalar.bool? s).map (fun b => (standard ++ "bool", .bool b)) <|>
    (Scalar.integer? s).map (fun n => (standard ++ "int", .number n)) <|>
    (Scalar.fraction? s).map (fun n => (standard ++ "float", .number n)) <|>
    (Scalar.instant? s).map (fun t => (standard ++ "timestamp", .instant t)) <|>
    (if s = Scalar.mergeKey then some (merge, .text (.whole s)) else none)

/-- What the form of a scalar gives it: nothing at all stands for null, and an atom that was read
before has no form any more. One that still reads as a number is refused, and so are bytes. -/
def ofForm? : Atom → Except String (Option (String × Atom))
  | .null => pure (some (standard ++ "null", .null))
  | .text (.whole s) => pure (ofText? s)
  | .number n => if n.isFinite then throw "a number that was read before" else pure none
  | .bytes (_ :: _) => throw "bytes that were read before"
  | _ => pure none

def binary? (s : String) : Option Text.Bytes :=
  let cs := s.toList.filter fun c => c != '\n' && c != '\r'
  let legal := cs.all fun c =>
    c == '=' || ((Text.base64Value? c).isSome && c != '-' && c != '_')
  if legal ∧ cs.length * 6 % 8 = 0 then
    let sextets := (cs.filter (· != '=')).filterMap Text.base64Value?
    some (if sextets.isEmpty then [0, 0, 0] else Text.bytesOfSextets sextets)
  else none

/-- The atom that a tag of the standard namespace makes of a scalar's text. -/
def scalar? (name s : String) : Option Atom :=
  match name with
  | "str" => some (.text (.whole s))
  | "null" => if Scalar.isNull s then some .null else none
  | "bool" => (Scalar.bool? s).map .bool
  | "int" => (Scalar.integer? s).map .number
  | "float" => (Scalar.fraction? s).map .number
  | "timestamp" => (Scalar.instant? s).map .instant
  | "merge" => if s = Scalar.mergeKey then some (.text (.whole s)) else none
  | "binary" => (binary? s).map .bytes
  | _ => none

def pairs (g : Graph) (ps : List (Text.Wide × Item)) : Item × Graph :=
  let (items, g) := ps.foldl (fun (items, g) p =>
    let (item, g) := Graph.add g (.sequence #[.text p.1, p.2])
    (items.push item, g)) (#[], g)
  g.add (.sequence items)

def sequence? (g : Graph) (name : String) (item : Item) : Option (Item × Graph) := do
  let items ← g.sequence? item
  match name with
  | "seq" => some (item, g)
  | "omap" =>
    let keys := (← items.mapM g.single?).map (·.1)
    if keys.eraseDups.length = keys.length then some (item, g) else none
  | "pairs" => some (pairs g (← items.mapM g.single?))
  | _ => none

def mapping? (g : Graph) (name : String) (item : Item) : Option (Item × Graph) := do
  let m ← g.mapping? item
  match name with
  | "map" => some (item, g)
  | "set" => if m.fields.all (·.2.isNull) then some (item, g) else none
  | _ => none

def empty? (g : Graph) (name : String) : Option (Item × Graph) :=
  match name with
  | "str" => some (.text (.whole ""), g)
  | "null" | "merge" => some (.null, g)
  | "seq" | "omap" | "pairs" => some (g.add (.sequence #[]))
  | "map" | "set" => some (g.add (.mapping {}))
  | _ => none

def suits (kind : Kind) (name : String) : Bool :=
  match kind with
  | .scalar =>
    ["str", "null", "bool", "int", "float", "timestamp", "merge", "binary"].contains name
  | .sequence => ["seq", "omap", "pairs"].contains name
  | .mapping => ["map", "set"].contains name

/-- What a tag makes of a node. A scalar whose form was read already, such as a number read before
its tag was known to apply, is kept by `str` only. -/
def construct? (g : Graph) (tag : String) (kind : Option Kind) (item : Item) :
    Option (Item × Graph) := do
  let name ← (tag.dropPrefix? standard).map (·.toString)
  match kind, item with
  | none, .scalar .null => empty? g name
  | none, _ => none
  | some kind, item =>
    if suits kind name then
      match item with
      | .scalar .null => empty? g name
      | .scalar (.text (.whole s)) => (scalar? name s).map fun a => (.scalar a, g)
      | .scalar a => if name = "str" then some (.scalar a, g) else none
      | item => sequence? g name item <|> mapping? g name item
    else none

end Tag
end Inliner.Yaml
