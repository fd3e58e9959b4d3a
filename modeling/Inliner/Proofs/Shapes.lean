import Inliner.Proofs.KnownKeys
import Inliner.Proofs.Precedence

/-! The shapes of project files, for any reader that makes arrays of sequences and objects of
mappings, timestamps and binary scalars. -/
namespace Inliner

/-- What stands at the root of a document. -/
inductive Shape where
  | empty | null | bool | number | text | timestamp | binary | sequence | mapping
  deriving DecidableEq

namespace Shape

def Suits : Shape → Prop
  | .empty | .null | .mapping => True
  | _ => False

/-- The scalars of which objects are made. -/
def IsObject : Shape → Prop
  | .timestamp | .binary => True
  | _ => False

/-- The values of documents with a root of a given shape. -/
inductive Holds : Shape → Value → Prop
  | empty : Holds .empty .absent
  | null : Holds .null .null
  | bool (b : Bool) : Holds .bool (.bool b)
  | number (n : Number) : Holds .number (.number n)
  | text (w : Text.Wide) : Holds .text (.ofWide w)
  | timestamp (t : Instant) : Holds .timestamp (.instant t)
  | binary (b : Text.Bytes) : Holds .binary (.bytes b)
  | sequence (items : List Value) : Holds .sequence (.list items)
  | mapping (fields : Fields) : Holds .mapping (.record fields)

end Shape

/-- The reader follows a schema, which tells the shape of every text that is a document: it gives a
value of that shape, and none for any other text. -/
structure YamlReader.Follows (yaml : YamlReader) (shape? : String → Option Shape) : Prop where
  reads : ∀ text shape, shape? text = some shape → ∃ v, yaml text = .ok v ∧ shape.Holds v
  refuses : ∀ text, shape? text = none → ∃ reason, yaml text = .error reason

namespace Yaml

def Atom.shape : Atom → Shape
  | .null => .null
  | .bool _ => .bool
  | .number _ => .number
  | .text _ => .text
  | .instant _ => .timestamp
  | .bytes _ => .binary

theorem Atom.holds_value (a : Atom) : a.shape.Holds a.value := by
  cases a <;> constructor

/-- A root that refers to no collection at all is none. -/
def Root.shape (r : Root) : Shape :=
  match r.item with
  | .scalar a => a.shape
  | .collection n =>
    match r.graph.collections[n]? with
    | some (.sequence _) => .sequence
    | some (.mapping _) => .mapping
    | none => .empty

def shape? (text : String) : Option Shape :=
  (root? text).toOption.map fun r => r.elim .empty Root.shape

variable {g : Graph}

theorem run_unfold {depth n : ℕ} {made : Array (Option Value)}
    (h : ∀ v, made[n]? ≠ some (some v)) :
    ((g.unfold (depth + 1) (.collection n)).run made).1 =
      ((Graph.valueOf (g.unfold depth) g.collections[n]?).run
        (made.setIfInBounds n (some .circle))).1 := by
  rw [Graph.unfold]
  dsimp only [StateT.run, bind, StateT.bind, get, getThe, MonadStateOf.get, StateT.get, pure]
  cases hn : made[n]? with
  | none => rfl
  | some made? =>
    cases made? with
    | none => rfl
    | some v => exact absurd hn (h v)

theorem holds_valueOf (n : ℕ) (inner : Item → StateM (Array (Option Value)) Value)
    (made : Array (Option Value)) :
    (Root.shape ⟨g, .collection n⟩).Holds ((Graph.valueOf inner g.collections[n]?).run made).1 := by
  rw [Root.shape]
  dsimp only
  rcases g.collections[n]? with _ | ⟨items | m⟩
  · exact .empty
  · exact .sequence _
  · exact .mapping _

theorem Root.holds_value (r : Root) : r.shape.Holds r.value := by
  obtain ⟨g, item⟩ := r
  cases item with
  | scalar a => exact a.holds_value
  | collection n =>
    rw [value, Graph.value, run_unfold (by simp [Array.getElem?_replicate])]
    exact holds_valueOf n _ _

theorem follows_load : YamlReader.Follows load shape? where
  reads text shape h := by
    cases hroot : root? text with
    | error reason => simp [shape?, hroot, Except.toOption] at h
    | ok root =>
      obtain rfl : root.elim .empty Root.shape = shape := by
        simpa [shape?, hroot, Except.toOption] using h
      rw [load, hroot]
      cases root with
      | none => exact ⟨.absent, rfl, .empty⟩
      | some r => exact ⟨r.value, rfl, r.holds_value⟩
  refuses text h := by
    cases hroot : root? text with
    | error reason =>
      rw [load, hroot]
      exact ⟨reason, rfl⟩
    | ok root => simp [shape?, hroot, Except.toOption] at h

end Yaml

theorem Config.complain_inj {α : Type} {c c' : Complaint}
    (h : (complain c : Except Thrown α) = complain c') : c = c' := by
  simpa [complain, Thrown.ofProblem] using h

namespace ProjectFile

variable {yaml : YamlReader} {shape? : String → Option Shape} {content file : String}
  {shape : Shape}

theorem ofFields_of_unknown {fields : Fields} (h : ∀ key : Key, fields.get? key.name = none) :
    ofFields file fields = .ok { warnings := warningsFor file fields } := by
  have hmissing : ∀ key : Key, fields.valueOf key.name = .absent := fun key => by
    rw [Fields.valueOf, h]
    rfl
  have hdebug : fields.valueOf "debug" = .absent := hmissing .debug
  have hdepth : fields.valueOf "maxDepth" = .absent := hmissing .maxDepth
  have hbase : fields.valueOf "baseDirectory" = .absent := hmissing .baseDirectory
  rw [ofFields, debugOf, depthOf, baseOf, hdebug, hdepth, hbase]
  rfl

theorem toString_not_mem_knownKeys (n : ℕ) : toString n ∉ knownKeys := by
  intro h
  have hletter : ∀ key ∈ knownKeys, key.toList.all Char.isDigit = false := by decide
  have hdigits : (toString n).toList.all Char.isDigit = true := by
    refine List.all_eq_true.mpr fun c hc => ?_
    have hmem : c ∈ Nat.toDigits 10 n := Nat.toList_repr ▸ hc
    exact Nat.isDigit_of_mem_toDigits (by decide) (by decide) hmem
  rw [hletter _ h] at hdigits
  cases hdigits

def positionWarnings (file : String) (n : ℕ) : List String :=
  (List.range n).map fun i => "Unknown key '" ++ toString i ++ "' in " ++ file ++ " ignored"

theorem ofFields_bytes (b : Text.Bytes) :
    ofFields file (b.zipIdx.map fun x => (toString x.2, .number (.ofNat x.1.toNat))) =
      .ok { warnings := positionWarnings file b.length } := by
  rw [ofFields_of_unknown]
  · have hpositions : List.range b.length = b.zipIdx.map (·.2) := by
      rw [List.zipIdx_eq_zip_range', List.map_snd_zip (by simp), List.range_eq_range']
    rw [warningsFor, List.filter_eq_self.mpr, positionWarnings, hpositions, List.map_map, List.map_map]
    · rfl
    · intro f hf
      obtain ⟨x, -, rfl⟩ := List.mem_map.mp hf
      simpa using toString_not_mem_knownKeys x.2
  · intro key
    rw [Fields.get?, List.lookup_eq_none_iff]
    intro f hf
    obtain ⟨x, -, rfl⟩ := List.mem_map.mp hf
    have hne : key.name ≠ toString x.2 := fun h => toString_not_mem_knownKeys x.2 (h ▸ key.name_mem)
    simpa using hne

theorem refusal_ne_notMapping (key : Key) (v : Value) : key.refusal file v ≠ .notMapping file := by
  cases key <;> simp [Key.refusal]

theorem ofFields_ne_notMapping (fields : Fields) :
    ofFields file fields ≠ Config.complain (.notMapping file) := by
  have hchecked := ofFields_checked file fields
  intro h
  rw [h] at hchecked
  generalize hx : (Config.complain (.notMapping file) : Except Thrown ProjectFile) = x at hchecked
  cases hchecked with
  | passed => simp [Config.complain] at hx
  | refused split given refused earlier =>
    exact refusal_ne_notMapping _ _ (Config.complain_inj hx).symm

theorem parse_eq_ofValue {v : Value} (h : yaml content = .ok v) :
    parse yaml content file = ofValue file v := by
  rw [parse, h]

section shapes

variable (hyaml : yaml.Follows shape?)
include hyaml

theorem parse_of_suits (h : shape? content = some shape) (hsuits : shape.Suits) :
    parse yaml content file ≠ Config.complain (.notMapping file) := by
  obtain ⟨v, hread, hholds⟩ := hyaml.reads _ _ h
  rw [parse_eq_ofValue hread]
  cases hholds with
  | empty | null => simp [ofValue, Config.complain]
  | mapping fields => exact ofFields_ne_notMapping _
  | bool | number | text | timestamp | binary | sequence => exact hsuits.elim

theorem parse_of_object (h : shape? content = some shape) (hobject : shape.IsObject) :
    ∃ n, parse yaml content file = .ok { warnings := positionWarnings file n } := by
  obtain ⟨v, hread, hholds⟩ := hyaml.reads _ _ h
  rw [parse_eq_ofValue hread]
  cases hholds with
  | timestamp t => exact ⟨0, rfl⟩
  | binary b => exact ⟨b.length, ofFields_bytes b⟩
  | empty | null | bool | number | text | sequence | mapping => exact hobject.elim

theorem parse_of_not_suits (h : shape? content = some shape) (hsuits : ¬shape.Suits)
    (hobject : ¬shape.IsObject) :
    parse yaml content file = Config.complain (.notMapping file) := by
  obtain ⟨v, hread, hholds⟩ := hyaml.reads _ _ h
  rw [parse_eq_ofValue hread]
  cases hholds with
  | empty | null | mapping => exact absurd trivial hsuits
  | timestamp | binary => exact absurd trivial hobject
  | bool | number | sequence => rfl
  | text w => cases w <;> rfl

theorem parse_eq_notMapping_iff (h : shape? content = some shape) :
    parse yaml content file = Config.complain (.notMapping file) ↔
      ¬shape.Suits ∧ ¬shape.IsObject := by
  constructor
  · intro hparse
    refine ⟨fun hsuits => parse_of_suits hyaml h hsuits hparse, fun hobject => ?_⟩
    obtain ⟨n, hread⟩ : ∃ n, parse yaml content file =
        .ok { warnings := positionWarnings file n } := parse_of_object hyaml h hobject
    rw [hread] at hparse
    cases hparse
  · rintro ⟨hsuits, hobject⟩
    exact parse_of_not_suits hyaml h hsuits hobject

theorem shape_of_parse {p : ProjectFile} (hp : parse yaml content file = .ok p) :
    ∃ shape, shape? content = some shape ∧ (shape.Suits ∨ shape.IsObject) := by
  cases h : shape? content with
  | none =>
    obtain ⟨reason, hrefused⟩ := hyaml.refuses _ h
    rw [parse, hrefused] at hp
    cases hp
  | some shape =>
    refine ⟨shape, rfl, ?_⟩
    by_contra hnone
    rw [(parse_eq_notMapping_iff hyaml h).mpr (not_or.mp hnone)] at hp
    cases hp

end shapes

/-- A date is no mapping, and yet it is read as a project file that sets nothing. -/
theorem date_is_read :
    Yaml.shape? "2001-12-14\n" = some .timestamp ∧
    parse Yaml.load "2001-12-14\n" "/w/.shpp.yml" = .ok {} ∧
    parse Yaml.load "2001-12-14\n" "/w/.shpp.yml" ≠
      Config.complain (.notMapping "/w/.shpp.yml") := by
  have hload : Yaml.load "2001-12-14\n" = .ok (.instant ⟨1008288000000⟩) := by decide +kernel
  have hparse : parse Yaml.load "2001-12-14\n" "/w/.shpp.yml" = .ok {} := parse_eq_ofValue hload
  exact ⟨by decide +kernel, hparse, by simp [hparse, Config.complain]⟩

end ProjectFile

namespace Machine

open TypedOptions

theorem loaded_of_read {s : Machine} (hs : s.Steady) {yaml : YamlReader} {cwd : Names}
    {input : String} {t : TypedOptions} {named : Option String} {bytes : Text.Bytes}
    (hfinds : s.Finds cwd (projectPath cwd input named))
    (hmade : s.refusal? cwd .load (projectPath cwd input named) = none)
    (hread : s.tree.read cwd (projectPath cwd input named) = .ok bytes) :
    s.loaded yaml cwd input (t.commandOptions named) =
      (ProjectFile.parse yaml (Text.decodeUtf8 bytes) (projectPath cwd input named)).bind fun file =>
        t.settle cwd input (projectPath cwd input named) file
          (some (projectPath cwd input named)) := by
  rw [loaded_of_finds hs hfinds, (readText_eq_ok_iff hs).mpr ⟨hmade, bytes, hread, rfl⟩]
  rfl

/-- Only a text without a document, `null` and a mapping suit as a project file, and what does not
suit is told to be no mapping, unless it is a timestamp or binary. These are read as if they set
nothing, with a warning for each byte: so is a run whose project file is one of them. -/
theorem project_file_shapes {yaml : YamlReader} {shape? : String → Option Shape}
    (hyaml : yaml.Follows shape?) {s : Machine} (hs : s.Steady) (cwd : Names) (input : String)
    (t : TypedOptions) (named : Option String) :
    (∀ content file p, ProjectFile.parse yaml content file = .ok p →
      ∃ shape, shape? content = some shape ∧ (shape.Suits ∨ shape.IsObject)) ∧
    (∀ content file shape, shape? content = some shape →
      (ProjectFile.parse yaml content file = Config.complain (.notMapping file) ↔
        ¬shape.Suits ∧ ¬shape.IsObject)) ∧
    (∀ content file shape, shape? content = some shape → shape.IsObject →
      ∃ n, ProjectFile.parse yaml content file =
        .ok { warnings := ProjectFile.positionWarnings file n }) ∧
    let path := projectPath cwd input named
    ∀ bytes shape, s.Finds cwd path → s.refusal? cwd .load path = none →
      s.tree.read cwd path = .ok bytes → shape? (Text.decodeUtf8 bytes) = some shape →
      ¬shape.Suits →
      (¬shape.IsObject →
        s.loaded yaml cwd input (t.commandOptions named) = Config.complain (.notMapping path)) ∧
      (shape.IsObject → ∃ n, s.loaded yaml cwd input (t.commandOptions named) =
        t.settle cwd input path { warnings := ProjectFile.positionWarnings path n }
          (some path)) := by
  refine ⟨fun content file p hp => ProjectFile.shape_of_parse hyaml hp,
    fun content file shape h => ProjectFile.parse_eq_notMapping_iff hyaml h,
    fun content file shape h hobject => ProjectFile.parse_of_object hyaml h hobject, ?_⟩
  intro path bytes shape hfinds hmade hread hshape hsuits
  rw [loaded_of_read hs hfinds hmade hread]
  constructor
  · intro hobject
    rw [ProjectFile.parse_of_not_suits hyaml hshape hsuits hobject]
    rfl
  · intro hobject
    obtain ⟨n, hparse⟩ := ProjectFile.parse_of_object hyaml hshape hobject
    rw [hparse]
    exact ⟨n, rfl⟩

def misshapen : Machine :=
  { tree := ⟨[(["w"], .directory), (["w", "in"], .file []),
      (["w", ".shpp.yml"], .file (Text.encodeUtf8 "- debug")),
      (["w", "date"], .file (Text.encodeUtf8 "2001-12-14"))]⟩ }

theorem misshapen_project_file_shapes :
    YamlReader.Follows Yaml.load Yaml.shape? ∧ misshapen.Steady ∧
    misshapen.loaded Yaml.load ["w"] "in" (commandOptions {} none) =
      Config.complain (.notMapping "/w/.shpp.yml") ∧
    ∃ n, misshapen.loaded Yaml.load ["w"] "in" (commandOptions {} (some "date")) =
      settle {} ["w"] "in" "/w/date" { warnings := ProjectFile.positionWarnings "/w/date" n }
        (some "/w/date") := by
  have hs : misshapen.Steady := steady_of_faults_eq_nil rfl
  have hbeside : projectPath ["w"] "in" none = "/w/.shpp.yml" := by rfl
  have hnamed : projectPath ["w"] "in" (some "date") = "/w/date" := by rfl
  have hsequence : Yaml.shape? (Text.decodeUtf8 (Text.encodeUtf8 "- debug")) = some .sequence := by
    decide +kernel
  have hdate : Yaml.shape? (Text.decodeUtf8 (Text.encodeUtf8 "2001-12-14")) =
      some .timestamp := by
    decide +kernel
  obtain ⟨-, -, -, hload⟩ := project_file_shapes Yaml.follows_load hs ["w"] "in" {} none
  obtain ⟨-, -, -, hload'⟩ := project_file_shapes Yaml.follows_load hs ["w"] "in" {} (some "date")
  rw [hbeside] at hload
  rw [hnamed] at hload'
  exact ⟨Yaml.follows_load, hs,
    (hload _ _ ⟨rfl, _, rfl⟩ rfl rfl hsequence not_false).1 not_false,
    (hload' _ _ ⟨rfl, _, rfl⟩ rfl rfl hdate not_false).2 trivial⟩

end Machine
end Inliner
