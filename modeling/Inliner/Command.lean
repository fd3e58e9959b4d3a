import Inliner.CommandLine
import Inliner.Console
import Inliner.Preprocessor

/-! The command: check the input, load the settings, expand, write, and tell the user what
matters. -/
namespace Inliner.Command

variable {m : Type → Type} [Monad m] (yaml : YamlReader)

inductive Outcome where
  | written (outputPath : String) (warnings : List String)
  | failed (error : String)
  /-- The failure itself could not be logged, because it holds a value that contains itself. -/
  | endless
  deriving DecidableEq, Repr, Inhabited

def perform (w : Workspace m) (tell : Message → m Unit) (input output : String)
    (o : CommandOptions) : ExceptT Thrown m (List String) := do
  let loaded ← LoadedConfig.load yaml w input o
  if loaded.config.marks then
    if let some file := loaded.configFile then
      tell ⟨.info, "Using config file " ++ file⟩
  for warning in loaded.warnings do
    tell ⟨.warn, warning⟩
  Preprocessor.processFile w loaded.config.toOptions input output
  if loaded.config.marks then
    tell ⟨.success, "Processed " ++ input ++ " -> " ++ output⟩
  pure loaded.warnings

/-- Expand `input` into `output`; messages go to `tell`. -/
def run (w : Workspace m) (tell : Message → m Unit) (input output : String) (o : CommandOptions) :
    m Outcome := do
  if !(← w.exists? input) then
    pure (.failed ("Input file does not exist: " ++ input))
  else if !(← w.isRegularFile input) then
    pure (.failed ("Input path is not a file: " ++ input))
  else
    match ← (perform yaml w tell input output o).run with
    | .ok warnings => pure (.written (Path.render (Path.resolve w.cwd output)) warnings)
    | .error e =>
      let record := Log.recordOf e
      if (← w.logs record.level) && record.isEndless then pure .endless
      else
        w.log record
        pure (.failed (Log.summary e))

/-- The whole program on its arguments, which `parse` reads: what it writes at once, or the exit
code after a run that told everything to `tell`. -/
def dispatch (parse : List String → Except CommandLine.Ending CommandLine.Request)
    (w : Workspace m) (tell : Message → m Unit) (args : List String) : m CommandLine.Ending := do
  match parse args with
  | .error ending => pure ending
  | .ok r =>
    match ← run yaml w tell r.input r.output r.options with
    | .written .. => pure { exit := 0 }
    | .failed error =>
      tell ⟨.error, error⟩
      pure { exit := 1 }
    | .endless =>
      w.log (Log.recordOf Log.endlessError)
      pure { exit := 1, err := Log.summary Log.endlessError ++ "\n" }

inductive Uncaught where
  | exception | rejection
  deriving DecidableEq, Repr

def Uncaught.record (u : Uncaught) (t : Thrown) : Log.Record :=
  match u with
  | .exception => ⟨.error, "Uncaught exception occurred", t⟩
  | .rejection => ⟨.error, "Unhandled promise rejection", t⟩

end Inliner.Command
