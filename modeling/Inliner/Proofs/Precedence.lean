import Inliner.Proofs.Agreement
import Inliner.Proofs.Rooting
import Inliner.Yaml.Document

/-! An option of the command wins over the project file and that over the default. What comes out is
valid, and a run is made with these very values. -/
namespace Inliner

namespace Path

theorem proper_directoryOf {cwd : Names} (hcwd : ∀ n ∈ cwd, Proper n) (path : String) :
    ∀ n ∈ Config.directoryOf cwd path, Proper n :=
  fun n hn => proper_of_mem_resolve (.inr hcwd) n (List.mem_of_mem_dropLast hn)

end Path

/-- The limit is a positive integer, and the base directory an absolute path in normal form. -/
structure Config.Sound (c : Config) : Prop where
  depth : c.maxIncludeDepth.isPositiveInteger = true
  absolute : Path.isAbsolute (Path.render c.baseDirectory) = true
  normal : Path.normalize (Path.render c.baseDirectory) = Path.render c.baseDirectory

/-- The settings are those of the command, or else of the project file at `path`, or else the
defaults, and the limit is a valid one. -/
structure LoadedConfig.Settled (l : LoadedConfig) (t : TypedOptions) (cwd : Names)
    (input path : String) (file : ProjectFile) : Prop where
  debug : l.config.debug = .bool (t.debug.getD (file.debug.getD false))
  depth : l.config.maxIncludeDepth = t.maxIncludeDepth.getD (file.maxDepth.getD (.count 100))
  positive : l.config.maxIncludeDepth.isPositiveInteger = true
  base : l.config.baseDirectory = t.layeredBase cwd input path file
  warnings : l.warnings = file.warnings

namespace TypedOptions

variable {cwd : Names} (hcwd : ∀ n ∈ cwd, Path.Proper n) {t : TypedOptions} {input path : String}
  {file : ProjectFile}
include hcwd

theorem proper_layeredBase : ∀ n ∈ t.layeredBase cwd input path file, Path.Proper n := by
  unfold layeredBase
  split
  · exact Path.proper_of_mem_resolve (.inr hcwd)
  · exact Path.proper_of_mem_resolve (.inr (Path.proper_directoryOf hcwd path))
  · exact Path.proper_directoryOf hcwd input

theorem config_layered :
    (t.layered cwd input path file).config cwd input =
      { debug := .bool (t.debug.getD (file.debug.getD false))
        maxIncludeDepth := t.maxIncludeDepth.getD (file.maxDepth.getD (.count 100))
        baseDirectory := t.layeredBase cwd input path file } := by
  rw [config, depth_layered]
  have hdebug : (t.debug.or file.debug).getD Config.defaultDebug =
      t.debug.getD (file.debug.getD false) := by
    cases t.debug <;> rfl
  have hbase : Path.resolve cwd (Path.render (t.layeredBase cwd input path file)) =
      t.layeredBase cwd input path file := Path.resolve_render cwd (proper_layeredBase hcwd)
  simp only [layered, hdebug, Option.getD_some, hbase]

theorem settle_eq_ok_iff {configFile : Option String} {l : LoadedConfig} :
    t.settle cwd input path file configFile = .ok l ↔
      configFile = l.configFile ∧ l.Settled t cwd input path file := by
  cases hdepth : (t.layered cwd input path file).depth.isPositiveInteger with
  | false =>
    rw [settle_of_depth configFile hdepth]
    refine iff_of_false (by simp [Config.complain]) fun h => ?_
    rw [depth_layered, ← h.2.depth, h.2.positive] at hdepth
    cases hdepth
  | true =>
    rw [settle_of_valid configFile hdepth, config_layered hcwd]
    rw [depth_layered] at hdepth
    constructor
    · rintro ⟨⟩
      exact ⟨rfl, rfl, rfl, hdepth, rfl, rfl⟩
    · obtain ⟨⟨debug, depth, base⟩, configFile', warnings⟩ := l
      rintro ⟨rfl, rfl, rfl, -, rfl, rfl⟩
      rfl

end TypedOptions

namespace LoadedConfig.Settled

variable {l : LoadedConfig} {t : TypedOptions} {cwd : Names} (hcwd : ∀ n ∈ cwd, Path.Proper n)
  {input path : String} {file : ProjectFile} (h : l.Settled t cwd input path file)
include hcwd h

theorem proper : ∀ n ∈ l.config.baseDirectory, Path.Proper n := by
  rw [h.base]
  exact TypedOptions.proper_layeredBase hcwd

theorem sound : l.config.Sound :=
  ⟨h.positive, Path.isAbsolute_render _, Path.normalize_render (h.proper hcwd)⟩

theorem ofOptions_eq (cwd' : Names) :
    Config.ofOptions cwd' l.config.toOptions = .ok l.config := by
  have hproper := h.proper hcwd
  obtain ⟨⟨debug, depth, base⟩, configFile, warnings⟩ := l
  obtain rfl := h.debug
  have hdepth : Config.depthOf (.number depth) = .ok depth := by
    have hpositive : depth.isPositiveInteger = true := h.positive
    simp [Config.depthOf, Config.positiveInteger?, Value.orElse, Value.isMissing, hpositive]
  have hgiven : (Value.text (Path.render base)).isTruthy = true := by
    simpa [Value.isTruthy] using Path.render_ne_empty base
  have hbase : Config.pathOf cwd' (.text (Path.render base)) = .ok base :=
    congrArg Except.ok (Path.resolve_render cwd' hproper)
  rw [Config.ofOptions, Config.toOptions, hdepth]
  dsimp only
  rw [hgiven, hbase]
  rfl

end LoadedConfig.Settled

/-- An error that tells of a project file that was named and is not there. -/
def Thrown.IsMissing (e : Thrown) : Prop :=
  ∃ f given resolved, e = .failure f ∧ f.problem = .settings (.missing given resolved)

theorem Thrown.IsAccess.not_isMissing {e : Thrown} (h : e.IsAccess) : ¬e.IsMissing := by
  rintro ⟨f, given, resolved, rfl, hf⟩
  simp [IsAccess, hf] at h

theorem Thrown.isMissing_complaint_iff {c : Complaint} :
    (Thrown.ofProblem (.settings c)).IsMissing ↔ ∃ given resolved, c = .missing given resolved := by
  constructor
  · rintro ⟨f, given, resolved, hf, hproblem⟩
    cases hf
    exact ⟨given, resolved, Problem.settings.inj hproblem⟩
  · rintro ⟨given, resolved, rfl⟩
    exact ⟨_, given, resolved, rfl, rfl⟩

theorem ProjectFile.not_isMissing_of_parse {yaml : YamlReader} {content file : String} {e : Thrown}
    (h : parse yaml content file = .error e) : ¬e.IsMissing := by
  obtain ⟨c, habout, rfl⟩ := parse_eq_error h
  rw [Thrown.isMissing_complaint_iff]
  rintro ⟨given, resolved, rfl⟩
  exact habout

namespace Machine

/-- The system is not kept from looking, and the path leads to something. -/
def Finds (s : Machine) (cwd : Names) (path : String) : Prop :=
  s.refusal? cwd .probe path = none ∧ ∃ found, s.tree.stat cwd path = .ok found

/-- What comes of a project file: it is there and can be read, and has the form of one, or it is
neither there nor named. -/
inductive Provides (s : Machine) (yaml : YamlReader) (cwd : Names) (path : String)
    (named : Option String) : ProjectFile → Option String → Prop
  | found {bytes : Text.Bytes} {file : ProjectFile} (there : s.Finds cwd path)
      (made : s.refusal? cwd .load path = none) (read : s.tree.read cwd path = .ok bytes)
      (parse : ProjectFile.parse yaml (Text.decodeUtf8 bytes) path = .ok file) :
      Provides s yaml cwd path named file (some path)
  | absent (missing : ¬s.Finds cwd path) (unnamed : named.filter (· != "") = none) :
      Provides s yaml cwd path named {} none

section answers

variable {s : Machine} (hs : s.Steady) {cwd : Names} {path : String}
include hs

theorem probe_eq_ok_iff :
    (s.workspaceView cwd).probe path = Except.ok () ↔ s.Finds cwd path := by
  have hanswer : (s.workspaceView cwd).probe path =
      s.answer cwd .probe path (accessIn cwd path) :=
    congrArg Prod.fst (reading_run hs cwd _ path _ s.err)
  rw [hanswer, answer_eq_ok_iff, Finds, accessIn, statIn]
  cases s.tree.stat cwd path <;> simp [Except.map]

theorem exists?_iff : Id.run ((s.workspaceView cwd).exists? path) = true ↔ s.Finds cwd path := by
  rw [← probe_eq_ok_iff hs]
  have hexists : (s.workspaceView cwd).exists? path =
      match (s.workspaceView cwd).probe path with
      | .ok () => true
      | .error _ => false := rfl
  rw [hexists]
  cases (s.workspaceView cwd).probe path with
  | ok _ => exact iff_of_true rfl rfl
  | error e => exact iff_of_false Bool.false_ne_true (by simp)

theorem load_answer : (s.workspaceView cwd).load path =
    s.answer cwd .load path fun t => t.read cwd path :=
  congrArg Prod.fst (reading_run hs cwd _ path _ s.err)

theorem readText_run : ((s.workspaceView cwd).readText path .utf8).run =
    (((s.answer cwd .load path fun t => t.read cwd path).mapError fun e =>
      .failure (e.onPath path none)).map Text.decodeUtf8) := by
  have hload : ((s.workspaceView cwd).load path).run =
      s.answer cwd .load path fun t => t.read cwd path := load_answer hs
  rw [Workspace.readText, run_bind_eq, run_onPath, hload]
  cases s.answer cwd .load path fun t => t.read cwd path <;> rfl

theorem readText_eq_ok_iff {content : String} :
    ((s.workspaceView cwd).readText path .utf8).run = .ok content ↔
      s.refusal? cwd .load path = none ∧
        ∃ bytes, s.tree.read cwd path = .ok bytes ∧ Text.decodeUtf8 bytes = content := by
  rw [readText_run hs, map_eq_ok_iff]
  simp only [mapError_eq_ok_iff, answer_eq_ok_iff, and_assoc, exists_and_left]

theorem not_isMissing_of_readText {e : Thrown}
    (h : ((s.workspaceView cwd).readText path .utf8).run = .error e) : ¬e.IsMissing := by
  rw [readText_run hs, map_eq_error_iff, mapError_eq_error_iff] at h
  obtain ⟨t, ht, rfl⟩ := h
  have hforeign : t.IsForeign := by
    refine answer_foreign hs (fun e he => ?_) ht
    have hdecoded : (s.tree.read cwd path).map Text.decodeUtf8 = .error e :=
      map_eq_error_iff.mpr he
    exact read_foreign hdecoded
  exact (Thrown.isAccess_onPath hforeign path none).not_isMissing

end answers

section loading

open TypedOptions

variable {s : Machine} (hs : s.Steady) {yaml : YamlReader} {cwd : Names} {input : String}
  {t : TypedOptions} {named : Option String}
include hs

theorem loaded_of_finds (h : s.Finds cwd (projectPath cwd input named)) :
    s.loaded yaml cwd input (t.commandOptions named) =
      ((s.workspaceView cwd).readText (projectPath cwd input named) .utf8).run.bind fun content =>
        (ProjectFile.parse yaml content (projectPath cwd input named)).bind fun file =>
          t.settle cwd input (projectPath cwd input named) file
            (some (projectPath cwd input named)) := by
  rw [loaded_eq hs, LoadedConfig.load_eq]
  exact if_pos ((exists?_iff hs).mpr h)

theorem loaded_of_not_finds (h : ¬s.Finds cwd (projectPath cwd input named)) :
    s.loaded yaml cwd input (t.commandOptions named) =
      match named.filter (· != "") with
      | some given =>
        .error (.ofProblem (.settings (.missing given (projectPath cwd input named))))
      | none => t.settle cwd input (projectPath cwd input named) {} none := by
  rw [loaded_eq hs, LoadedConfig.load_eq]
  exact if_neg fun hthere => h ((exists?_iff hs).mp hthere)

/-- Settings are loaded if the project file provides some and they are valid. -/
theorem loaded_eq_ok_iff_settle {l : LoadedConfig} :
    s.loaded yaml cwd input (t.commandOptions named) = .ok l ↔
      ∃ file configFile,
        s.Provides yaml cwd (projectPath cwd input named) named file configFile ∧
        t.settle cwd input (projectPath cwd input named) file configFile = .ok l := by
  by_cases hfinds : s.Finds cwd (projectPath cwd input named)
  · rw [loaded_of_finds hs hfinds]
    constructor
    · intro h
      obtain ⟨content, hread, hrest⟩ := bind_eq_ok_iff.mp h
      obtain ⟨file, hparse, hsettle⟩ := bind_eq_ok_iff.mp hrest
      obtain ⟨hmade, bytes, hbytes, rfl⟩ := (readText_eq_ok_iff hs).mp hread
      exact ⟨file, _, .found hfinds hmade hbytes hparse, hsettle⟩
    · rintro ⟨file, configFile, hprovides, hsettle⟩
      cases hprovides with
      | found there made read parse =>
        have hread := (readText_eq_ok_iff hs).mpr ⟨made, _, read, rfl⟩
        exact bind_eq_ok_iff.mpr ⟨_, hread, bind_eq_ok_iff.mpr ⟨_, parse, hsettle⟩⟩
      | absent missing unnamed => exact absurd hfinds missing
  · rw [loaded_of_not_finds hs hfinds]
    constructor
    · intro h
      cases hnamed : named.filter (· != "") with
      | some given =>
        rw [hnamed] at h
        cases h
      | none =>
        rw [hnamed] at h
        exact ⟨{}, none, .absent hfinds hnamed, h⟩
    · rintro ⟨file, configFile, hprovides, hsettle⟩
      cases hprovides with
      | found there => exact absurd there hfinds
      | absent missing unnamed =>
        rw [unnamed]
        exact hsettle

theorem loaded_eq_ok_iff (hcwd : ∀ n ∈ cwd, Path.Proper n) {l : LoadedConfig} :
    s.loaded yaml cwd input (t.commandOptions named) = .ok l ↔
      ∃ file, s.Provides yaml cwd (projectPath cwd input named) named file l.configFile ∧
        l.Settled t cwd input (projectPath cwd input named) file := by
  rw [loaded_eq_ok_iff_settle hs]
  constructor
  · rintro ⟨file, configFile, hprovides, hsettle⟩
    obtain ⟨rfl, hsettled⟩ := (settle_eq_ok_iff hcwd).mp hsettle
    exact ⟨file, hprovides, hsettled⟩
  · rintro ⟨file, hprovides, hsettled⟩
    exact ⟨file, _, hprovides, (settle_eq_ok_iff hcwd).mpr ⟨rfl, hsettled⟩⟩

omit hs in
theorem not_isMissing_of_settle {path : String} {file : ProjectFile} {configFile : Option String}
    {e : Thrown} (h : t.settle cwd input path file configFile = .error e) : ¬e.IsMissing := by
  obtain ⟨-, rfl⟩ := settle_eq_error h
  rw [Thrown.isMissing_complaint_iff]
  simp

theorem not_isMissing_of_finds (hfinds : s.Finds cwd (projectPath cwd input named)) {e : Thrown}
    (h : s.loaded yaml cwd input (t.commandOptions named) = .error e) : ¬e.IsMissing := by
  rw [loaded_of_finds hs hfinds] at h
  rcases bind_eq_error_iff.mp h with hread | ⟨content, -, hrest⟩
  · exact not_isMissing_of_readText hs hread
  rcases bind_eq_error_iff.mp hrest with hparse | ⟨file, -, hsettle⟩
  · exact ProjectFile.not_isMissing_of_parse hparse
  · exact not_isMissing_of_settle hsettle

theorem loaded_isMissing_iff {e : Thrown} :
    s.loaded yaml cwd input (t.commandOptions named) = .error e ∧ e.IsMissing ↔
      ∃ given, named = some given ∧ given ≠ "" ∧
        ¬s.Finds cwd (Path.render (Path.resolve cwd given)) ∧
        e = .ofProblem (.settings (.missing given (Path.render (Path.resolve cwd given)))) := by
  constructor
  · rintro ⟨he, hmissing⟩
    have hfinds : ¬s.Finds cwd (projectPath cwd input named) := fun hfinds =>
      not_isMissing_of_finds hs hfinds he hmissing
    rw [loaded_of_not_finds hs hfinds] at he
    cases hnamed : named.filter (· != "") with
    | some given =>
      rw [hnamed] at he
      obtain ⟨rfl, hgiven⟩ := Option.filter_eq_some_iff.mp hnamed
      have hne : given ≠ "" := by simpa using hgiven
      rw [projectPath_of_named hne] at hfinds he
      exact ⟨given, rfl, hne, hfinds, (Except.error.inj he).symm⟩
    | none =>
      rw [hnamed] at he
      exact absurd hmissing (not_isMissing_of_settle he)
  · rintro ⟨given, rfl, hne, hfinds, rfl⟩
    have hpath : projectPath cwd input (some given) = Path.render (Path.resolve cwd given) :=
      projectPath_of_named hne
    rw [← hpath] at hfinds ⊢
    rw [loaded_of_not_finds hs hfinds]
    simp [Option.filter, hne, Thrown.isMissing_complaint_iff]

theorem loaded_of_absent (hnamed : ∀ given, named = some given → given = "")
    (hfinds : ¬s.Finds cwd (projectPath cwd input named)) :
    ((∃ l, s.loaded yaml cwd input (t.commandOptions named) = .ok l) ↔
      t.depth.isPositiveInteger = true) ∧
    ∀ e, s.loaded yaml cwd input (t.commandOptions named) = .error e →
      e = .ofProblem (.settings (.depth (.number t.depth))) := by
  have hunnamed : named.filter (· != "") = none := by
    cases named with
    | none => rfl
    | some given => simp [hnamed given rfl]
  have hdepth : (t.layered cwd input (projectPath cwd input named) {}).depth = t.depth := by
    rw [depth_layered]
    rfl
  rw [loaded_of_not_finds hs hfinds, hunnamed]
  refine ⟨?_, fun e he => ?_⟩
  · cases hpositive : t.depth.isPositiveInteger with
    | false =>
      rw [← hdepth] at hpositive
      dsimp only
      rw [settle_of_depth _ hpositive]
      simp [Config.complain]
    | true =>
      rw [← hdepth] at hpositive
      exact iff_of_true ⟨_, settle_of_valid _ hpositive⟩ rfl
  · rw [(settle_eq_error he).2, hdepth]

end loading

open TypedOptions in
/-- Loading settings. They are loaded exactly if a project file that is found can be read as one, or
none is found and none is named, and the limit is valid; each is then the option of the command
if it is given, or else that of the project file, or else the default. They are valid, and neither
checking them again nor running with them changes them. A project file is told to be missing
exactly if it is named and not found; one that is missing beside the input leaves only the limit
to be refused. -/
theorem loaded_takes_precedence {s : Machine} (hs : s.Steady) (yaml : YamlReader) {cwd : Names}
    (hcwd : ∀ n ∈ cwd, Path.Proper n) (input : String) (t : TypedOptions)
    (named : Option String) :
    let path := projectPath cwd input named
    let loaded := s.loaded yaml cwd input (t.commandOptions named)
    (∀ l, loaded = .ok l ↔
      ∃ file, s.Provides yaml cwd path named file l.configFile ∧ l.Settled t cwd input path file) ∧
    (∀ l, loaded = .ok l → l.config.Sound ∧
      (∀ cwd', Config.ofOptions cwd' l.config.toOptions = .ok l.config) ∧
      ∀ input', Config.forInput cwd l.config.toOptions input' = .ok l.config) ∧
    (∀ e, loaded = .error e ∧ e.IsMissing ↔
      ∃ given, named = some given ∧ given ≠ "" ∧
        ¬s.Finds cwd (Path.render (Path.resolve cwd given)) ∧
        e = .ofProblem (.settings (.missing given (Path.render (Path.resolve cwd given))))) ∧
    ((∀ given, named = some given → given = "") → ¬s.Finds cwd path →
      ((∃ l, loaded = .ok l) ↔ t.depth.isPositiveInteger = true) ∧
      ∀ e, loaded = .error e → e = .ofProblem (.settings (.depth (.number t.depth)))) := by
  intro path loaded
  refine ⟨fun l => loaded_eq_ok_iff hs hcwd, fun l h => ?_, fun e => loaded_isMissing_iff hs,
    loaded_of_absent hs⟩
  obtain ⟨file, -, hsettled⟩ := (loaded_eq_ok_iff hs hcwd).mp h
  have hfixed := hsettled.ofOptions_eq hcwd
  exact ⟨hsettled.sound hcwd, hfixed, fun input' => hfixed cwd⟩

def configured : Machine :=
  { tree := ⟨[(["w"], .directory), (["w", "in"], .file []), (["w", "conf"], .directory),
      (["w", "conf", "p"], .file (Text.encodeUtf8 "maxDepth: 7\nbaseDirectory: lib")),
      (["w", ".shpp.yml"], .file (Text.encodeUtf8 "maxDepth: 5"))]⟩ }

theorem parse_configured :
    ProjectFile.parse Yaml.load (Text.decodeUtf8 (Text.encodeUtf8 "maxDepth: 7\nbaseDirectory: lib"))
      "/w/conf/p" = .ok { maxDepth := some (.count 7), baseDirectory := some (.whole "lib") } :=
  ProjectFile.eq_ok_of_fields (by decide +kernel)

open TypedOptions in
theorem configured_loaded_takes_precedence :
    let t : TypedOptions := { debug := some true }
    configured.Steady ∧ (∀ n ∈ ["w"], Path.Proper n) ∧
    configured.loaded Yaml.load ["w"] "in" (t.commandOptions (some "conf/p")) =
      .ok ⟨⟨.bool true, .count 7, ["w", "conf", "lib"]⟩, some "/w/conf/p", []⟩ ∧
    configured.loaded Yaml.load ["w"] "in" (t.commandOptions (some "p")) =
      .error (.ofProblem (.settings (.missing "p" "/w/p"))) ∧
    ∃ l, configured.loaded Yaml.load ["w"] "conf/p" (t.commandOptions (some "")) = .ok l := by
  intro t
  have hs : configured.Steady := steady_of_faults_eq_nil rfl
  have hcwd : ∀ n ∈ ["w"], Path.Proper n := by
    intro n hn
    obtain rfl := List.mem_singleton.mp hn
    exact ⟨by decide, by decide, by decide, by decide⟩
  have hpath : projectPath ["w"] "in" (some "conf/p") = "/w/conf/p" := by rfl
  have hmissing : projectPath ["w"] "conf/p" (some "") = "/w/conf/.shpp.yml" := by rfl
  obtain ⟨hloaded, -⟩ := loaded_takes_precedence hs Yaml.load hcwd "in" t (some "conf/p")
  obtain ⟨-, -, hmissed, -⟩ := loaded_takes_precedence hs Yaml.load hcwd "in" t (some "p")
  obtain ⟨-, -, -, himplicit⟩ := loaded_takes_precedence hs Yaml.load hcwd "conf/p" t (some "")
  refine ⟨hs, hcwd, ?_, ?_, ?_⟩
  · refine (hloaded _).mpr ⟨_, .found ⟨rfl, _, rfl⟩ rfl rfl (hpath ▸ parse_configured), ?_⟩
    exact ⟨rfl, rfl, by decide, rfl, rfl⟩
  · refine ((hmissed _).mpr ⟨"p", rfl, by decide, ?_, rfl⟩).1
    rintro ⟨-, found, hfound⟩
    cases hfound
  · refine (himplicit (fun given h => (Option.some.inj h).symm) ?_).1.mpr (by decide)
    rw [hmissing]
    rintro ⟨-, found, hfound⟩
    cases hfound

end Machine
end Inliner
