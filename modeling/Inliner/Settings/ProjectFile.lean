import Inliner.Settings

/-! The project file: a mapping in which three keys are known. Each of them is checked on its own,
and every other key is told of and ignored. -/
namespace Inliner

/-- A reader of YAML: the value of a document, or why it has none. -/
abbrev YamlReader := String → Except String Value

structure ProjectFile where
  debug : Option Bool := none
  maxDepth : Option Number := none
  baseDirectory : Option Text.Wide := none
  warnings : List String := []
  deriving Repr, Inhabited

namespace ProjectFile

def knownKeys : List String := ["debug", "maxDepth", "baseDirectory"]

def warningsFor (file : String) (fields : Fields) : List String :=
  (fields.filter fun f => !knownKeys.contains f.1).map fun f =>
    "Unknown key '" ++ f.1 ++ "' in " ++ file ++ " ignored"

def debugOf (file : String) (fields : Fields) : Except Thrown (Option Bool) :=
  match fields.valueOf "debug" with
  | .absent => .ok none
  | .bool b => .ok (some b)
  | v => Config.complain (.debugKind file v)

def depthOf (file : String) (fields : Fields) : Except Thrown (Option Number) :=
  match fields.valueOf "maxDepth" with
  | .absent => .ok none
  | v =>
    match Config.positiveInteger? v with
    | some n => .ok (some n)
    | none => Config.complain (.depthKind file v)

/-- A surrogate that stands alone is no blank, so a text with one is not empty. -/
def baseOf (file : String) (fields : Fields) : Except Thrown (Option Text.Wide) :=
  match fields.valueOf "baseDirectory" with
  | .absent => .ok none
  | .text s =>
    if Text.trim s = "" then Config.complain (.baseKind file (.text s)) else .ok (some (.whole s))
  | .torn us => .ok (some (.torn us))
  | v => Config.complain (.baseKind file v)

def ofFields (file : String) (fields : Fields) : Except Thrown ProjectFile := do
  let debug ← debugOf file fields
  let depth ← depthOf file fields
  let base ← baseOf file fields
  pure ⟨debug, depth, base, warningsFor file fields⟩

/-- The fields of a document. An instant has none, and bytes have one for each position. -/
def ofValue (file : String) : Value → Except Thrown ProjectFile
  | .absent | .null => .ok {}
  | .record fields => ofFields file (listingOrder fields)
  | .instant _ => .ok {}
  | .bytes b =>
    ofFields file (b.zipIdx.map fun x => (toString x.2, .number (.ofNat x.1.toNat)))
  | _ => Config.complain (.notMapping file)

def parse (yaml : YamlReader) (content file : String) : Except Thrown ProjectFile :=
  match yaml content with
  | .error reason => Config.complain (.unparsable file reason)
  | .ok v => ofValue file v

end ProjectFile
end Inliner
