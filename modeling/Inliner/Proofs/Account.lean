import Inliner.Command
import Inliner.Proofs.Loading
import Inliner.Proofs.Scope

/-! What a report tells of an error: its message, the files that were open, and each cause. A
command raises nothing but errors, so that it always has such a report. -/
namespace Inliner

/-- What is told of an error. -/
structure Account where
  message : String
  openFiles : List String
  causes : List Cause

namespace Account

def lines (a : Account) : List String :=
  ("Error: " ++ a.message) ::
    ((if a.openFiles = [] then [] else ["  Include stack: " ++ chainText a.openFiles]) ++
      a.causes.map fun c => "  Caused by: " ++ c.message)

def text (a : Account) : String := "\n".intercalate a.lines

end Account

namespace Thrown

/-- The account of an error; a bare value has none. -/
def account? : Thrown → Option Account
  | .failure f => some ⟨f.message, f.includeStack.getD [], f.causes⟩
  | .error e => some ⟨e.message, [], e.causes⟩
  | .value _ => none

def IsError (e : Thrown) : Prop := ∃ a, e.account? = some a

theorem summary_of_account {e : Thrown} {a : Account} (h : e.account? = some a) :
    Log.summary e = a.text := by
  cases e with
  | value v => cases h
  | error e =>
    cases h
    rfl
  | failure f =>
    cases h
    simp only [Log.summary, report, Account.text, Account.lines]
    rcases f.includeStack with _ | ⟨_ | ⟨path, rest⟩⟩
    · rfl
    · rfl
    · rfl

theorem IsOwn.isError {e : Thrown} (h : e.IsOwn) : e.IsError := by
  cases e with
  | failure f => exact ⟨_, rfl⟩
  | error e => exact absurd trivial h
  | value v => exact absurd trivial h

theorem isError_ofProblem (p : Problem) : (Thrown.ofProblem p).IsError := ⟨_, rfl⟩

end Thrown

open Thrown

namespace Config

variable {cwd : Names} {e : Thrown}

theorem isError_of_pathOf {given : Value} (h : pathOf cwd given = .error e) : e.IsError := by
  unfold pathOf at h
  split at h
  · cases h
  · cases h
    exact ⟨_, rfl⟩

theorem isError_of_ofOptions {o : Options} (h : ofOptions cwd o = .error e) : e.IsError := by
  obtain ⟨complaint, rfl⟩ | ⟨plain, rfl⟩ := ofOptions_eq_error h
  · exact isError_ofProblem _
  · exact ⟨_, rfl⟩

end Config

namespace CommandOptions

variable {cwd : Names} {o : CommandOptions} {input : String} {e : Thrown}

theorem isError_of_configPath (h : o.configPath cwd input = .error e) : e.IsError := by
  unfold configPath at h
  split at h
  · rcases bind_eq_error_iff.mp h with hpath | ⟨base, -, hok⟩
    · exact Config.isError_of_pathOf hpath
    · cases hok
  · cases h

theorem isError_of_merge {path : String} {file : ProjectFile}
    (h : o.merge cwd input path file = .error e) : e.IsError := by
  rcases bind_eq_error_iff.mp h with hbase | ⟨base, -, hok⟩
  · unfold baseOf at hbase
    split at hbase
    · exact Config.isError_of_pathOf hbase
    · split at hbase
      · cases hbase
      · cases hbase
  · cases hok

end CommandOptions

theorem ProjectFile.isError_of_parse {yaml : YamlReader} {content file : String} {e : Thrown}
    (h : parse yaml content file = .error e) : e.IsError := by
  obtain ⟨c, -, rfl⟩ := parse_eq_error h
  exact isError_ofProblem _

/-! ### Commands raise errors only -/

section raising

variable {σ α : Type} (w : Workspace (StateM σ)) (tell : Message → StateM σ Unit)
  (input output : String)

theorem raises_settled {x : Except Thrown α} (h : ∀ e, x = .error e → e.IsError) :
    Raises IsError (LoadedConfig.lift x : ExceptT Thrown (StateM σ) α) := fun _ e he => h e he

theorem raises_isError_onPath (path : String) (location : Option Location)
    (x : ExceptT Thrown (StateM σ) α) : Raises IsError (onPath path location x) :=
  (raises_onPath path location x).mono fun _ => IsOwn.isError

theorem raises_writeText (path content : String) :
    Raises IsError (w.writeText path content .utf8) := by
  have hdirectory : Raises IsError (w.ensureDirectory (Path.parent path)) :=
    (raises_isError_onPath _ _ _).bind fun _ => raises_lift _
  refine hdirectory.bind fun _ => ?_
  exact (raises_isError_onPath _ _ _).bind fun _ => raises_lift _

theorem raises_processFile (o : Options) :
    Raises IsError (Preprocessor.processFile w o input output) := by
  have hprocess : Raises IsError (Preprocessor.process w.toHost o input) := by
    refine (Preprocessor.raises_process w.toHost o input).mono fun e he => ?_
    rcases he with hown | hsettings
    · exact hown.isError
    · exact Config.isError_of_ofOptions hsettings
  refine hprocess.bind fun text => ?_
  exact (raises_writeText w output text).bind fun _ => raises_lift _

theorem raises_load (yaml : YamlReader) (o : CommandOptions) :
    Raises IsError (LoadedConfig.load yaml w input o) := by
  have hsettle (path : String) (found : ProjectFile × Option String) : Raises IsError (do
      let options ← LoadedConfig.lift (o.merge w.cwd input path found.1)
      let config ← LoadedConfig.lift (Config.ofOptions w.cwd options)
      pure ⟨config, found.2, found.1.warnings⟩ : ExceptT Thrown (StateM σ) LoadedConfig) := by
    refine (raises_settled fun e => CommandOptions.isError_of_merge).bind fun options => ?_
    exact (raises_settled fun e => Config.isError_of_ofOptions).bind fun config => raises_pure _
  refine (raises_settled fun e => CommandOptions.isError_of_configPath).bind fun path => ?_
  refine (raises_lift _).bind fun there => ?_
  cases there with
  | true =>
    refine (raises_lift _).bind fun _ => ?_
    refine ((raises_isError_onPath _ _ _).bind fun bytes => raises_pure _).bind fun content => ?_
    refine (raises_settled fun e => ProjectFile.isError_of_parse).bind fun file => ?_
    exact (raises_pure _).bind (hsettle path)
  | false =>
    dsimp only
    rw [if_neg Bool.false_ne_true]
    split
    · exact (raises_throw (isError_ofProblem _)).bind (hsettle path)
    · refine (raises_lift _).bind fun _ => ?_
      exact (raises_pure _).bind (hsettle path)

end raising
end Inliner
