import Inliner.Proofs.Resolution
import Inliner.Proofs.TypedOptions

/-! Loading the settings of a command: the options and the project file, where it is named or beside
the input, come to settings that are checked as those of any run are. -/
namespace Inliner

namespace TypedOptions

def commandOptions (t : TypedOptions) (named : Option String) : CommandOptions :=
  { t.toCommandOptions with config := named.elim .absent .text }

/-- Where the project file is looked for: where it is named, or beside the input. -/
def projectPath (cwd : Names) (input : String) (named : Option String) : String :=
  Path.render ((named.filter (· != "")).elim
    (Config.directoryOf cwd input ++ [Config.projectFile]) (Path.resolve cwd))

/-- The base directory: as given, or as the project file at `path` has it, or that of the input. -/
def layeredBase (t : TypedOptions) (cwd : Names) (input path : String) (file : ProjectFile) :
    Names :=
  match t.baseDirectory.filter (· != ""), file.baseDirectory with
  | some given, _ => Path.resolve cwd given
  | none, some base => Path.resolve (Config.directoryOf cwd path) base.shown
  | none, none => Config.directoryOf cwd input

/-- What a command makes of its settings and of a project file before they are checked. -/
def layered (t : TypedOptions) (cwd : Names) (input path : String) (file : ProjectFile) :
    TypedOptions where
  debug := t.debug.or file.debug
  maxIncludeDepth := t.maxIncludeDepth.or file.maxDepth
  baseDirectory := some (Path.render (t.layeredBase cwd input path file))

variable (t : TypedOptions) (named : Option String) (cwd : Names) (input path : String)
  (file : ProjectFile)

theorem isTruthy_config_commandOptions :
    (t.commandOptions named).config.isTruthy = (named.filter (· != "")).isSome := by
  cases named with
  | none => rfl
  | some given =>
    by_cases hgiven : given = "" <;>
      simp [commandOptions, Value.isTruthy, Option.filter, hgiven]

theorem configPath_commandOptions :
    (t.commandOptions named).configPath cwd input = .ok (projectPath cwd input named) := by
  cases named with
  | none => rfl
  | some given =>
    by_cases hgiven : given = ""
    · subst hgiven
      rfl
    · simp [commandOptions, CommandOptions.configPath, projectPath, Value.isTruthy, hgiven,
        Config.pathOf, Option.filter, bind, Except.bind, pure, Except.pure]

theorem baseOf_commandOptions :
    (t.commandOptions named).baseOf cwd input path (file.baseDirectory.map Text.Wide.shown) =
      .ok (t.layeredBase cwd input path file) := by
  obtain ⟨debug, maxIncludeDepth, baseDirectory⟩ := t
  obtain ⟨debug', maxDepth', fileBase, warnings⟩ := file
  cases baseDirectory with
  | none => cases fileBase <;> rfl
  | some base =>
    by_cases hbase : base = ""
    · subst hbase
      cases fileBase <;> rfl
    · simp [commandOptions, toCommandOptions, CommandOptions.baseOf, layeredBase,
        Value.isTruthy, hbase, Config.pathOf, Option.filter]

theorem merge_commandOptions :
    (t.commandOptions named).merge cwd input path file =
      .ok (t.layered cwd input path file).toOptions := by
  rw [CommandOptions.merge, baseOf_commandOptions]
  obtain ⟨debug, maxIncludeDepth, baseDirectory⟩ := t
  obtain ⟨debug', maxDepth', fileBase, warnings⟩ := file
  cases debug <;> cases maxIncludeDepth <;> cases debug' <;> cases maxDepth' <;> rfl

def settle (configFile : Option String) : Except Thrown LoadedConfig :=
  (Config.forInput cwd (t.layered cwd input path file).toOptions input).map fun c =>
    ⟨c, configFile, file.warnings⟩

variable {t cwd input path file}

theorem projectPath_of_named {given : String} (h : given ≠ "") :
    projectPath cwd input (some given) = Path.render (Path.resolve cwd given) := by
  simp [projectPath, Option.filter, h]

theorem depth_layered :
    (t.layered cwd input path file).depth =
      t.maxIncludeDepth.getD (file.maxDepth.getD (.count 100)) := by
  rw [depth, layered]
  cases t.maxIncludeDepth <;> rfl

theorem valid_layered (h : (t.layered cwd input path file).depth.isPositiveInteger = true) :
    (t.layered cwd input path file).Valid :=
  ⟨h, by simp [layered, Path.render_ne_empty]⟩

theorem settle_of_valid (configFile : Option String)
    (h : (t.layered cwd input path file).depth.isPositiveInteger = true) :
    t.settle cwd input path file configFile =
      .ok ⟨(t.layered cwd input path file).config cwd input, configFile, file.warnings⟩ := by
  rw [settle, forInput_of_valid cwd input (valid_layered h)]
  rfl

theorem settle_of_depth (configFile : Option String)
    (h : (t.layered cwd input path file).depth.isPositiveInteger = false) :
    t.settle cwd input path file configFile =
      Config.complain (.depth (.number (t.layered cwd input path file).depth)) := by
  rw [settle, forInput_of_depth cwd input h]
  rfl

theorem settle_eq_error {configFile : Option String} {e : Thrown}
    (h : t.settle cwd input path file configFile = .error e) :
    (t.layered cwd input path file).depth.isPositiveInteger = false ∧
      e = .ofProblem (.settings (.depth (.number (t.layered cwd input path file).depth))) := by
  cases hdepth : (t.layered cwd input path file).depth.isPositiveInteger with
  | false =>
    rw [settle_of_depth configFile hdepth] at h
    cases h
    exact ⟨rfl, rfl⟩
  | true =>
    rw [settle_of_valid configFile hdepth] at h
    cases h

end TypedOptions

namespace LoadedConfig

open TypedOptions

theorem run_settle (t : TypedOptions) (named : Option String) (cwd : Names) (input path : String)
    (file : ProjectFile) (configFile : Option String) :
    (do
      let options ← lift ((t.commandOptions named).merge cwd input path file)
      let config ← lift (Config.ofOptions cwd options)
      pure (⟨config, configFile, file.warnings⟩ : LoadedConfig) :
        ExceptT Thrown Id LoadedConfig).run = t.settle cwd input path file configFile := by
  have hchecked : Config.forInput cwd (t.layered cwd input path file).toOptions input =
      Config.ofOptions cwd (t.layered cwd input path file).toOptions := rfl
  rw [t.merge_commandOptions named cwd input path file, settle, hchecked]
  generalize (t.layered cwd input path file).toOptions = o
  show (lift (Config.ofOptions cwd o) >>= fun config => pure ⟨config, _, _⟩ :
    ExceptT Thrown Id LoadedConfig).run = _
  cases Config.ofOptions cwd o <;> rfl

/-- What loading the settings comes to, for any answers of the workspace. -/
theorem load_eq (yaml : YamlReader) (v : Workspace Id) (input : String) (t : TypedOptions)
    (named : Option String) :
    (load yaml v input (t.commandOptions named)).run =
      let path := projectPath v.cwd input named
      if Id.run (v.exists? path) then
        (v.readText path .utf8).run.bind fun content =>
          (ProjectFile.parse yaml content path).bind fun file =>
            t.settle v.cwd input path file (some path)
      else
        match named.filter (· != "") with
        | some given => .error (.ofProblem (.settings (.missing given path)))
        | none => t.settle v.cwd input path {} none := by
  unfold load
  rw [t.configPath_commandOptions named v.cwd input]
  dsimp only
  rw [run_bind_eq]
  show ((ExceptT.lift (v.exists? (projectPath v.cwd input named)) >>= _ :
    ExceptT Thrown Id LoadedConfig)).run = _
  cases hthere : v.exists? (projectPath v.cwd input named) with
  | true =>
    refine (run_bind_eq (v.readText (projectPath v.cwd input named) .utf8) _).trans ?_
    refine congrArg _ (funext fun content => (run_bind_eq (lift _) _).trans ?_)
    exact congrArg _ (funext fun file => run_settle t named v.cwd input _ file _)
  | false =>
    show (if (t.commandOptions named).config.isTruthy = true then _ else _ :
      ExceptT Thrown Id LoadedConfig).run = _
    rw [t.isTruthy_config_commandOptions named]
    cases hnamed : named.filter (· != "") with
    | some given =>
      obtain ⟨rfl, -⟩ := Option.filter_eq_some_iff.mp hnamed
      rfl
    | none => exact run_settle t named v.cwd input _ {} none

end LoadedConfig

/-- The complaint names the project file in which something is wrong. -/
def Complaint.IsAbout (file : String) : Complaint → Prop
  | .unparsable f _ | .notMapping f | .debugKind f _ | .depthKind f _ | .baseKind f _ => f = file
  | _ => False

/-- The error is a complaint about the project file. -/
def Thrown.Blames (file : String) (e : Thrown) : Prop :=
  ∃ c : Complaint, c.IsAbout file ∧ e = .ofProblem (.settings c)

namespace ProjectFile

variable {file : String} {fields : Fields} {e : Thrown}

theorem debugOf_eq_error (h : debugOf file fields = .error e) : e.Blames file := by
  unfold debugOf at h
  split at h
  · cases h
  · cases h
  · cases h
    exact ⟨.debugKind file _, rfl, rfl⟩

theorem depthOf_eq_error (h : depthOf file fields = .error e) : e.Blames file := by
  unfold depthOf at h
  split at h
  · cases h
  · split at h
    · cases h
    · cases h
      exact ⟨.depthKind file _, rfl, rfl⟩

theorem baseOf_eq_error (h : baseOf file fields = .error e) : e.Blames file := by
  unfold baseOf at h
  split at h
  · cases h
  · split at h
    · cases h
      exact ⟨.baseKind file _, rfl, rfl⟩
    · cases h
  · cases h
  · cases h
    exact ⟨.baseKind file _, rfl, rfl⟩

theorem ofFields_eq_error (h : ofFields file fields = .error e) : e.Blames file := by
  rcases bind_eq_error_iff.mp h with hdebug | ⟨debug, -, h⟩
  · exact debugOf_eq_error hdebug
  rcases bind_eq_error_iff.mp h with hdepth | ⟨depth, -, h⟩
  · exact depthOf_eq_error hdepth
  rcases bind_eq_error_iff.mp h with hbase | ⟨base, -, h⟩
  · exact baseOf_eq_error hbase
  · cases h

theorem parse_eq_error {yaml : YamlReader} {content : String}
    (h : parse yaml content file = .error e) : e.Blames file := by
  unfold parse at h
  split at h
  · cases h
    exact ⟨.unparsable file _, rfl, rfl⟩
  · unfold ofValue at h
    split at h
    · cases h
    · cases h
    · exact ofFields_eq_error h
    · cases h
    · exact ofFields_eq_error h
    · cases h
      exact ⟨.notMapping file, rfl, rfl⟩

theorem eq_ok_of_fields {x : Except Thrown ProjectFile} {f : ProjectFile}
    (h : (x.toOption.map fun f => (f.debug, f.maxDepth, f.baseDirectory, f.warnings)) =
      some (f.debug, f.maxDepth, f.baseDirectory, f.warnings)) : x = .ok f := by
  obtain ⟨debug, maxDepth, baseDirectory, warnings⟩ := f
  cases x with
  | error e => cases h
  | ok g =>
    obtain ⟨debug', maxDepth', baseDirectory', warnings'⟩ := g
    cases h
    rfl

end ProjectFile

end Inliner
