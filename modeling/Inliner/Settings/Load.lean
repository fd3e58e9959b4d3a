import Inliner.Settings.ProjectFile

/-! The settings of a command: an option given on the command line wins over the project file, and
that over the default. -/
namespace Inliner

structure CommandOptions where
  debug : Value := .absent
  maxDepth : Value := .absent
  baseDir : Value := .absent
  config : Value := .absent
  deriving Repr, Inhabited

structure LoadedConfig where
  config : Config
  configFile : Option String
  warnings : List String
  deriving Repr, Inhabited

namespace CommandOptions

/-- Where the project file is looked for; an empty text counts as not given. -/
def configPath (cwd : Names) (o : CommandOptions) (input : String) : Except Thrown String := do
  if o.config.isTruthy then pure (Path.render (← Config.pathOf cwd o.config))
  else pure (Path.render (Config.directoryOf cwd input ++ [Config.projectFile]))

/-- The base directory: as given, or as in the project file beside it, or that of the input. -/
def baseOf (cwd : Names) (o : CommandOptions) (input configPath : String)
    (fileBase : Option String) : Except Thrown Names :=
  if o.baseDir.isTruthy then Config.pathOf cwd o.baseDir
  else match fileBase with
    | some b => .ok (Path.resolve (Config.directoryOf cwd configPath) b)
    | none => .ok (Config.directoryOf cwd input)

def merge (cwd : Names) (o : CommandOptions) (input configPath : String) (file : ProjectFile) :
    Except Thrown Options := do
  let base ← baseOf cwd o input configPath (file.baseDirectory.map Text.Wide.shown)
  pure
    { debug := o.debug.orElse ((file.debug.map .bool).getD .absent)
      maxIncludeDepth := o.maxDepth.orElse ((file.maxDepth.map .number).getD .absent)
      baseDirectory := .text (Path.render base) }

end CommandOptions

namespace LoadedConfig

variable {m : Type → Type} [Monad m]

def lift {α : Type} (x : Except Thrown α) : ExceptT Thrown m α := ExceptT.mk (pure x)

def load (yaml : YamlReader) (w : Workspace m) (input : String) (o : CommandOptions) :
    ExceptT Thrown m LoadedConfig := do
  let path ← lift (o.configPath w.cwd input)
  let (file, configFile) ←
    if ← (w.exists? path : m Bool) then do
      w.log (.debug ("Loading config from: " ++ path))
      let content ← w.readText path .utf8
      let file ← lift (ProjectFile.parse yaml content path)
      pure (file, some path)
    else if o.config.isTruthy then
      throw (.ofProblem (.settings (.missing o.config.toText path)))
    else do
      w.log (.debug "No project config file, using defaults")
      pure (({} : ProjectFile), none)
  let options ← lift (o.merge w.cwd input path file)
  let config ← lift (Config.ofOptions w.cwd options)
  pure ⟨config, configFile, file.warnings⟩

end LoadedConfig
end Inliner
