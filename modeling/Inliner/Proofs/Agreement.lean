import Inliner.Proofs.Loading
import Inliner.Proofs.Snapshot
import Inliner.Proofs.Taxonomy

/-! Where the command line and a program agree. From the same settings both come to the same run,
except that a command takes an empty base directory for none. -/
namespace Inliner

namespace TypedOptions

/-- The settings as a command takes them: an empty base directory counts as none. -/
def nonempty (t : TypedOptions) : TypedOptions :=
  { t with baseDirectory := t.baseDirectory.filter (· != "") }

/-- What a command makes of its settings before they are checked, without a project file. -/
def merged (t : TypedOptions) (cwd : Names) (input : String) : TypedOptions :=
  { t with
    baseDirectory := some (Path.render
      (t.nonempty.baseDirectory.elim (Config.directoryOf cwd input) (Path.resolve cwd))) }

def checked (t : TypedOptions) (cwd : Names) (input : String) : TypedOptions where
  debug := some (t.debug.getD Config.defaultDebug)
  maxIncludeDepth := some t.depth
  baseDirectory := some (Path.render (t.config cwd input).baseDirectory)

variable (t : TypedOptions) (cwd : Names) (input : String)

theorem toOptions_config : (t.config cwd input).toOptions = (t.checked cwd input).toOptions := rfl

theorem layered_empty (path : String) : t.layered cwd input path {} = t.merged cwd input := by
  obtain ⟨debug, maxIncludeDepth, baseDirectory⟩ := t
  cases debug <;> cases maxIncludeDepth <;> cases h : baseDirectory.filter (· != "") <;>
    simp [layered, layeredBase, merged, nonempty, h]

variable {t}

theorem nonempty_eq (h : t.baseDirectory ≠ some "") : t.nonempty = t := by
  obtain ⟨debug, maxIncludeDepth, _ | base⟩ := t
  · rfl
  · have hbase : base ≠ "" := fun he => h (congrArg some he)
    simp [nonempty, Option.filter, hbase]

theorem valid_nonempty (h : t.depth.isPositiveInteger = true) : t.nonempty.Valid :=
  ⟨h, by simp [nonempty]⟩

theorem valid_merged (h : t.depth.isPositiveInteger = true) : (t.merged cwd input).Valid :=
  ⟨h, by simp [merged, Path.render_ne_empty]⟩

theorem valid_checked (h : t.depth.isPositiveInteger = true) : (t.checked cwd input).Valid :=
  ⟨h, by simp [checked, Path.render_ne_empty]⟩

end TypedOptions

theorem LoadedConfig.load_of_missing {yaml : YamlReader} {v : Workspace Id} {input : String}
    (t : TypedOptions)
    (hmissing : v.exists?
      (Path.render (Config.directoryOf v.cwd input ++ [Config.projectFile])) = false) :
    (LoadedConfig.load yaml v input t.toCommandOptions).run =
      (Config.forInput v.cwd (t.merged v.cwd input).toOptions input).map
        fun c => ⟨c, none, []⟩ := by
  have hfound : ¬Id.run (v.exists? (TypedOptions.projectPath v.cwd input none)) = true :=
    ne_true_of_eq_false hmissing
  refine (load_eq yaml v input t none).trans ((if_neg hfound).trans ?_)
  show t.settle v.cwd input _ {} none = _
  rw [TypedOptions.settle, TypedOptions.layered_empty]

namespace Preprocessor

theorem outcomeOf_of_base {v : Host Id} {o o' : Options} {input : String} {c : Config}
    {base : Names} (hc : Config.forInput v.cwd o input = .ok c)
    (hc' : Config.forInput v.cwd o' input = .ok { c with baseDirectory := base })
    (hbase : Path.resolve v.cwd (Path.render base) =
      Path.resolve v.cwd (Path.render c.baseDirectory)) :
    outcomeOf v o' input = outcomeOf v o input := by
  have hr : resolverOf v { c with baseDirectory := base } = resolverOf v c := by
    rw [resolverOf_eq, resolverOf_eq, hbase]
  rw [outcomeOf_of_config v o input hc, outcomeOf_of_config v o' input hc', hr]
  rfl

/-- With settings as a command checks and gives them again, a run ends as with an empty base
directory left out. -/
theorem outcomeOf_checked {v : Host Id} (t : TypedOptions) (input : String)
    (hdepth : t.depth.isPositiveInteger = true) :
    outcomeOf v ((t.merged v.cwd input).checked v.cwd input).toOptions input =
      outcomeOf v t.nonempty.toOptions input := by
  have hagain (names : Names) : Path.resolve v.cwd (Path.render
      (Path.resolve v.cwd (Path.render names))) = Path.resolve v.cwd (Path.render names) :=
    Path.resolve_render v.cwd (Path.proper_of_mem_resolve (.inl (Path.isAbsolute_render names)))
  have hc := TypedOptions.forInput_of_valid v.cwd input (t.valid_nonempty hdepth)
  have hc' := TypedOptions.forInput_of_valid v.cwd input
    ((t.merged v.cwd input).valid_checked v.cwd input hdepth)
  refine outcomeOf_of_base hc hc' ?_
  dsimp only [TypedOptions.checked, TypedOptions.config, TypedOptions.merged, Option.getD_some]
  cases t.nonempty.baseDirectory with
  | none => simp only [Option.elim_none, Option.getD_none, hagain]
  | some base => simp only [Option.elim_some, Option.getD_some, hagain]

end Preprocessor

theorem Value.isEndless_texts (items : List String) : (texts items).isEndless = false := by
  rw [texts, isEndless]
  induction items with
  | nil => rfl
  | cons item rest ih =>
    rw [List.map_cons, anyItemEndless, ih]
    rfl

/-- What a run with valid settings fails with. -/
inductive Problem.IsUsual : Problem → Prop
  | found {p : Problem} (h : p.IsFound) : IsUsual p
  | denied (path : String) (location : Option Location) : IsUsual (.denied path location)
  | io (path : String) (location : Option Location) : IsUsual (.io path location)

namespace Explains

variable {P : Failure → Prop} {raised : List Thrown} {e : Thrown}

theorem exists_failure (h : Explains P raised e) :
    ∃ f, e = .failure f ∧ f.problem.IsUsual ∧ f.codeMark = none := by
  cases h with
  | @found f problem causes mark known => exact ⟨f, rfl, .found problem, mark⟩
  | @call f t path location foreign problem causes mark known =>
    refine ⟨f, rfl, ?_, mark⟩
    have hclass := Problem.isClassOf_onPath foreign path location
    rw [← problem, Problem.IsClassOf] at hclass
    split at hclass
    · obtain ⟨path', location', hp⟩ := hclass
      exact hp ▸ .found (.notFound path' location')
    · split at hclass
      · obtain ⟨path', location', hp⟩ := hclass
        exact hp ▸ .denied path' location'
      · obtain ⟨path', location', hp⟩ := hclass
        exact hp ▸ .io path' location'

end Explains

theorem head?_toList_append {a b : String} {c : Char} (h : a.toList.head? = some c) :
    (a ++ b).toList.head? = some c := by
  rw [String.toList_append, List.head?_append, h, Option.some_or]

namespace Problem.IsUsual

variable {p : Problem} (h : p.IsUsual)
include h

theorem isEndless_code : p.code.isEndless = false := by
  rcases h with ⟨_ | _ | _ | _⟩ | _ | _ <;> rfl

theorem isEndless_details : ((p.details.map Value.record).getD .absent).isEndless = false := by
  have hlocation (l : Option Location) :
      Value.anyFieldEndless (Location.optionalFields l) = false := by
    cases l <;> rfl
  cases h with
  | denied path l => exact hlocation l
  | io path l => exact hlocation l
  | found h =>
    cases h with
    | invalidDirective text l => rfl
    | notFound path l => exact hlocation l
    | tooDeep path limit l => exact hlocation l
    | circular chain l =>
      show ((Value.texts chain).isEndless ||
        Value.anyFieldEndless (Location.optionalFields l)) = false
      rw [Value.isEndless_texts, hlocation]
      rfl

theorem head?_message (causes : List Cause) :
    ∃ c, (p.message causes).toList.head? = some c ∧ c ≠ 'B' := by
  have hfirst {first a b : String} {c : Char} (h : first.toList.head? = some c) :
      (first ++ a ++ b).toList.head? = some c := head?_toList_append (head?_toList_append h)
  cases h with
  | denied path l => exact ⟨'P', hfirst rfl, by decide⟩
  | io path l => exact ⟨'I', hfirst (hfirst rfl), by decide⟩
  | found h =>
    cases h with
    | invalidDirective text l => exact ⟨'I', head?_toList_append (hfirst rfl), by decide⟩
    | notFound path l => exact ⟨'F', hfirst rfl, by decide⟩
    | circular chain l => exact ⟨'C', hfirst rfl, by decide⟩
    | tooDeep path limit l => exact ⟨'M', hfirst (hfirst rfl), by decide⟩

end Problem.IsUsual

theorem Log.isEndless_recordOf {f : Failure} (h : f.problem.IsUsual) (hmark : f.codeMark = none) :
    (recordOf (.failure f)).isEndless = false := by
  have hcode : f.code.isEndless = false := by
    rw [Failure.code, hmark]
    exact h.isEndless_code
  have hstack : ((f.includeStack.map Value.texts).getD .absent).isEndless = false := by
    cases f.includeStack with
    | none => rfl
    | some stack => exact Value.isEndless_texts stack
  show (f.code.isEndless || (((f.details.map Value.record).getD .absent).isEndless ||
    (((f.includeStack.map Value.texts).getD .absent).isEndless || false))) = false
  rw [hcode, hstack, Failure.details, h.isEndless_details]
  rfl

theorem Thrown.report_failure (f : Failure) :
    ∃ rest, (Thrown.failure f).report = "Error: " ++ (f.message ++ rest) := by
  obtain ⟨more, hmore⟩ : ∃ more, (Thrown.failure f).report =
      "\n".intercalate (("Error: " ++ f.message) :: more) := ⟨_, rfl⟩
  refine ⟨"\n".intercalate ("" :: more), ?_⟩
  rw [hmore, String.intercalate_cons_append, ← String.intercalate_cons_append (t := f.message),
    String.append_empty]

theorem Problem.IsUsual.report_ne {f : Failure} (h : f.problem.IsUsual) :
    (Thrown.failure f).report ≠ (Thrown.ofProblem (.settings .emptyBase)).report := by
  obtain ⟨rest, hrest⟩ := Thrown.report_failure f
  obtain ⟨rest', hrest'⟩ := Thrown.report_failure { problem := .settings .emptyBase }
  obtain ⟨c, hc, hne⟩ : ∃ c, f.message.toList.head? = some c ∧ c ≠ 'B' :=
    h.head?_message f.causes
  intro heq
  have hsame : f.message ++ rest = "Base directory must not be empty" ++ rest' :=
    (String.append_right_inj "Error: ").mp (hrest.symm.trans (heq.trans hrest'))
  have hhead := congrArg (·.toList.head?) hsame
  rw [head?_toList_append hc, head?_toList_append (c := 'B') rfl] at hhead
  exact hne (Option.some.inj hhead)

namespace Machine

variable {s : Machine} {yaml : YamlReader} {tell : Message → Run Unit} {cwd : Names}
  {input output : String}

theorem exists_failure_of_outcome (hs : s.Steady) {o : Options} {c : Config}
    (hc : Config.forInput cwd o input = .ok c) {e : Thrown}
    (h : s.outcome cwd o input = .error e) :
    ∃ f, e = .failure f ∧ f.problem.IsUsual ∧ f.codeMark = none := by
  obtain ⟨ended, s', raised, hrun, -, -, herror⟩ := Preprocessor.noted_run
    (h := (host cwd : Host (StateM Machine))) (host_honest cwd)
    (Config.isPositiveInteger_of_forInput hc) input (s := s) hs.foreign
  have hended : ended = .error e := by
    rw [← Preprocessor.process_of_ok (h := (host cwd : Host (StateM Machine))) hc] at hrun
    exact (congrArg Prod.fst hrun).symm.trans h
  exact (herror e hended).exists_failure

theorem loaded_eq (hs : s.Steady) (yaml : YamlReader) (cwd : Names) (input : String)
    (o : CommandOptions) :
    s.loaded yaml cwd input o = (LoadedConfig.load yaml (s.workspaceView cwd) input o).run := by
  obtain ⟨s', -, hrun⟩ := (workspace_corresponds hs cwd).loadConfig yaml input o s (Akin.refl s)
  exact congrArg Prod.fst hrun

theorem untouched_conclude_failed (s : Machine) (cwd : Names) (output : String) {e : Thrown}
    (h : (Log.recordOf e).isEndless = false) :
    s.untouched.Rel (conclude cwd output (.error e)) (.failed (Log.summary e)) := by
  refine s.untouched.sequence (s.untouched_logs (Log.recordOf e).level) ?_
  rw [h, Bool.and_false, if_neg Bool.false_ne_true]
  exact s.untouched.sequence (s.untouched_log _) (s.untouched.value _)

/-- A command comes to what a run of a program comes to: it has written the text, or ends with the
report of the error and has changed no file. -/
structure Agrees (s : Machine) (yaml : YamlReader) (tell : Message → Run Unit) (cwd : Names)
    (input output : String) (command : CommandOptions) (o : Options) : Prop where
  written : ∀ text, s.outcome cwd o input = .ok text →
    let ended := (Command.run yaml (workspace cwd) tell input output command).run s
    ended.1 = .written (Path.render (Path.resolve cwd output)) [] ∧
      s.tree.Delivers cwd output (Text.encodeUtf8 text) ended.2.tree
  failed : ∀ e, s.outcome cwd o input = .error e →
    let ended := (Command.run yaml (workspace cwd) tell input output command).run s
    ended.1 = .failed e.report ∧ ended.2.tree = s.tree

/-- A command can be given the paths: the input is a regular file without a project file beside it,
and whatever comes out can be written. -/
structure Workable (s : Machine) (cwd : Names) (input output : String) : Prop where
  exists? : (((workspace cwd).exists? input).run s).1 = true
  regular : (((workspace cwd).isRegularFile input).run s).1 = true
  bare : (((workspace cwd).exists?
    (Path.render (Config.directoryOf cwd input ++ [Config.projectFile]))).run s).1 = false
  writable : ∀ text, ∃ t, s.Writes cwd output text t

theorem Workable.loaded_eq (h : s.Workable cwd input output) (hs : s.Steady) (yaml : YamlReader)
    (t : TypedOptions) :
    s.loaded yaml cwd input t.toCommandOptions =
      (Config.forInput cwd (t.merged cwd input).toOptions input).map fun c => ⟨c, none, []⟩ := by
  rw [Machine.loaded_eq hs]
  refine LoadedConfig.load_of_missing (v := s.workspaceView cwd) t ?_
  obtain ⟨s', -, hrun⟩ := (workspace_corresponds hs cwd).exists?
    (Path.render (Config.directoryOf cwd input ++ [Config.projectFile])) s (Akin.refl s)
  exact (congrArg Prod.fst hrun).symm.trans h.bare

theorem Workable.run_failed (h : s.Workable cwd input output) (hs : s.Steady)
    {command : CommandOptions} {e : Thrown}
    (hperform : s.Reaches (Command.perform yaml (workspace cwd) tell input output command).run
      (pure (.error e)))
    (hendless : (Log.recordOf e).isEndless = false) :
    let ended := (Command.run yaml (workspace cwd) tell input output command).run s
    ended.1 = .failed (Log.summary e) ∧ ended.2.tree = s.tree := by
  have hconclude := s.untouched_conclude_failed cwd output hendless
  obtain ⟨s', h', hrun⟩ := ((reaches_run hs h.exists? h.regular).trans
    ((hperform.bind _).trans (reaches_bind hconclude pure))) s (Akin.refl s)
  dsimp only
  rw [hrun]
  exact ⟨rfl, h'.tree⟩

theorem Workable.run_written (h : s.Workable cwd input output) (hs : s.Steady)
    (htell : Quiet tell) {command : CommandOptions} {loaded : LoadedConfig} {text : String}
    (hload : s.loaded yaml cwd input command = .ok loaded)
    (houtcome : s.outcome cwd loaded.config.toOptions input = .ok text) :
    let ended := (Command.run yaml (workspace cwd) tell input output command).run s
    ended.1 = .written (Path.render (Path.resolve cwd output)) loaded.warnings ∧
      s.tree.Delivers cwd output (Text.encodeUtf8 text) ended.2.tree := by
  obtain ⟨t, hwrites⟩ := h.writable text
  have hperform := (reaches_perform hs htell output hload).bind (conclude cwd output)
  obtain ⟨s₁, h₁, hrun⟩ :=
    ((reaches_run hs h.exists? h.regular).trans hperform) s (Akin.refl s)
  obtain ⟨s₂, hprocess, htree⟩ := exists_processFile_of_writes hs h₁ houtcome hwrites
  obtain ⟨s₃, h₃, hsuccess⟩ := untouched_success htell s₂ loaded
    ⟨.success, "Processed " ++ input ++ " -> " ++ output⟩ s₂ (Akin.refl s₂)
  have hfinish : (finish cwd tell input output loaded).run.run s₁ = (.ok loaded.warnings, s₃) :=
    bind_run_eq_ok_iff.mpr ⟨(), s₂, hprocess, hsuccess⟩
  have hended : (Command.run yaml (workspace cwd) tell input output command).run s =
      (.written (Path.render (Path.resolve cwd output)) loaded.warnings, s₃) := by
    rw [hrun, StateT.run_bind, hfinish]
    rfl
  dsimp only
  rw [hended, h₃.tree, htree]
  exact ⟨rfl, hwrites.delivers⟩

theorem Agrees.of_outcome_eq {command : CommandOptions} {o o' : Options}
    (h : s.Agrees yaml tell cwd input output command o)
    (houtcome : s.outcome cwd o' input = s.outcome cwd o input) :
    s.Agrees yaml tell cwd input output command o' :=
  ⟨fun text htext => h.written text (houtcome ▸ htext), fun e he => h.failed e (houtcome ▸ he)⟩

theorem outcome_of_settings (hs : s.Steady) {o : Options} {e : Thrown}
    (hc : Config.forInput cwd o input = .error e) : s.outcome cwd o input = .error e := by
  rw [outcome_eq hs]
  exact Preprocessor.outcomeOf_of_settings (s.view cwd) o input hc

theorem Workable.agrees_of_settings (h : s.Workable cwd input output) (hs : s.Steady)
    {command : CommandOptions} {o : Options} {e : Thrown}
    (hload : s.loaded yaml cwd input command = .error e) (hc : Config.forInput cwd o input = .error e)
    (hendless : (Log.recordOf e).isEndless = false) (hsummary : Log.summary e = e.report) :
    s.Agrees yaml tell cwd input output command o := by
  have houtcome := outcome_of_settings hs hc
  constructor
  · intro text htext
    rw [houtcome] at htext
    cases htext
  · intro e' he
    rw [houtcome] at he
    cases he
    rw [← hsummary]
    exact h.run_failed hs (reaches_perform_error hs hload) hendless

/-- A command agrees with a run that is given the settings the command has loaded. -/
theorem Workable.agrees_of_loaded (h : s.Workable cwd input output) (hs : s.Steady)
    (htell : Quiet tell) {command : CommandOptions} {c c' : Config}
    (hload : s.loaded yaml cwd input command = .ok ⟨c, none, []⟩)
    (hc : Config.forInput cwd c.toOptions input = .ok c') :
    s.Agrees yaml tell cwd input output command c.toOptions := by
  constructor
  · intro text htext
    exact h.run_written hs htell hload htext
  · intro e he
    obtain ⟨f, rfl, husual, hmark⟩ := exists_failure_of_outcome hs hc he
    exact h.run_failed hs (reaches_perform_of_expansion hs htell output hload he)
      (Log.isEndless_recordOf husual hmark)

theorem Workable.agrees_nonempty (h : s.Workable cwd input output) (hs : s.Steady)
    (yaml : YamlReader) (htell : Quiet tell) (t : TypedOptions) :
    s.Agrees yaml tell cwd input output t.toCommandOptions t.nonempty.toOptions := by
  have hload := h.loaded_eq hs yaml t
  cases hdepth : t.depth.isPositiveInteger with
  | false =>
    rw [TypedOptions.forInput_of_depth cwd input (t := t.merged cwd input) hdepth] at hload
    exact h.agrees_of_settings hs hload
      (TypedOptions.forInput_of_depth cwd input (t := t.nonempty) hdepth) rfl rfl
  | true =>
    have hchecked := TypedOptions.valid_checked cwd input (t := t.merged cwd input) hdepth
    have houtcome := Preprocessor.outcomeOf_checked (v := s.view cwd) t input hdepth
    rw [TypedOptions.forInput_of_valid cwd input (TypedOptions.valid_merged cwd input hdepth)]
      at hload
    have hc := TypedOptions.forInput_of_valid cwd input hchecked
    rw [← TypedOptions.toOptions_config] at hc
    refine (h.agrees_of_loaded hs htell hload hc).of_outcome_eq ?_
    rw [TypedOptions.toOptions_config, outcome_eq hs, outcome_eq hs]
    exact houtcome.symm

/-- Settings that a program is refused for an empty base directory are nothing that a command fails
with. -/
theorem Workable.not_agrees (h : s.Workable cwd input output) (hs : s.Steady) (htell : Quiet tell)
    {t : TypedOptions} (hdepth : t.depth.isPositiveInteger = true)
    (hbase : t.baseDirectory = some "") :
    ¬s.Agrees yaml tell cwd input output t.toCommandOptions t.toOptions := by
  intro hagrees
  have hempty := TypedOptions.forInput_of_base cwd input hdepth hbase
  obtain ⟨hended, -⟩ := hagrees.failed _ (outcome_of_settings hs hempty)
  have hnonempty := h.agrees_nonempty hs yaml htell t
  cases houtcome : s.outcome cwd t.nonempty.toOptions input with
  | ok text =>
    obtain ⟨hwritten, -⟩ := hnonempty.written text houtcome
    cases hended.symm.trans hwritten
  | error e =>
    obtain ⟨f, rfl, husual, -⟩ := exists_failure_of_outcome hs
      (TypedOptions.forInput_of_valid cwd input (TypedOptions.valid_nonempty hdepth)) houtcome
    obtain ⟨hfailed, -⟩ := hnonempty.failed _ houtcome
    have heq := hended.symm.trans hfailed
    injection heq with hreport
    exact husual.report_ne hreport.symm

/-- A command line and a program agree. Settings said to a builder one by one are the settings that
are given at once. A command comes to what a run with the same settings comes to, with an empty
base directory left out; so it comes to what a run with these very settings comes to, unless the
base directory is empty and the limit is valid, and in that case it does not. -/
theorem run_agrees_iff {s : Machine} (hs : s.Steady) (yaml : YamlReader)
    {tell : Message → Run Unit} (htell : Quiet tell) {cwd : Names} {input output : String}
    (h : s.Workable cwd input output) (t : TypedOptions) :
    t.toBuilder.build = t.toOptions ∧
    s.Agrees yaml tell cwd input output t.toCommandOptions t.nonempty.toOptions ∧
    (s.Agrees yaml tell cwd input output t.toCommandOptions t.toOptions ↔
      (t.baseDirectory = some "" → t.depth.isPositiveInteger = false)) := by
  have hagrees := h.agrees_nonempty hs yaml htell t
  refine ⟨t.build_toBuilder, hagrees, fun hsame hbase => ?_, fun hcase => ?_⟩
  · by_contra hdepth
    exact h.not_agrees hs htell (by simpa using hdepth) hbase hsame
  · by_cases hbase : t.baseDirectory = some ""
    · have hdepth := hcase hbase
      refine hagrees.of_outcome_eq ?_
      have hnonempty := TypedOptions.forInput_of_depth cwd input (t := t.nonempty) hdepth
      rw [outcome_of_settings hs (TypedOptions.forInput_of_depth cwd input hdepth),
        outcome_of_settings hs hnonempty]
      rfl
    · rwa [TypedOptions.nonempty_eq hbase] at hagrees

theorem workable_aliasing : aliasing.Workable ["w"] "a" "out" where
  exists? := by decide +kernel
  regular := by decide +kernel
  bare := by decide +kernel
  writable text := by
    have hmakes : aliasing.tree.makeDirectory ["w"] (Path.parent "out") =
        (.ok (), aliasing.tree) := rfl
    have hplace : aliasing.tree.locate true ["w"] "out" = .ok (.vacant ["w", "out"]) := by
      decide +kernel
    exact ⟨_, rfl, rfl, aliasing.tree, hmakes, by rw [FileTree.write, hplace]⟩

theorem aliasing_run_agrees_iff :
    let t : TypedOptions := { debug := some true, baseDirectory := some "." }
    aliasing.Steady ∧ Quiet record ∧ aliasing.Workable ["w"] "a" "out" ∧
    aliasing.Agrees Yaml.load record ["w"] "a" "out" t.toCommandOptions t.toOptions ∧
    ∃ text, aliasing.outcome ["w"] t.toOptions "a" = .ok text := by
  intro t
  have hs : aliasing.Steady := steady_of_faults_eq_nil rfl
  have hagrees := run_agrees_iff hs Yaml.load quiet_record workable_aliasing t
  refine ⟨hs, quiet_record, workable_aliasing, hagrees.2.2.mpr ?_, ?_⟩
  · intro hbase
    exact absurd hbase (by decide)
  · exact ⟨_, eq_ok_of_toOption
      (a := "# --- Included from b ---\ny\n# --- End of b ---\nx\n") (by decide +kernel)⟩

/-- An empty base directory is refused by a run, and a command writes with it. -/
theorem aliasing_empty_base :
    let t : TypedOptions := { baseDirectory := some "" }
    aliasing.Steady ∧ Quiet record ∧ aliasing.Workable ["w"] "a" "out" ∧
    aliasing.outcome ["w"] t.toOptions "a" = .error (.ofProblem (.settings .emptyBase)) ∧
    ((Command.run Yaml.load (workspace ["w"]) record "a" "out" t.toCommandOptions).run aliasing).1 =
      .written "/w/out" [] ∧
    ¬aliasing.Agrees Yaml.load record ["w"] "a" "out" t.toCommandOptions t.toOptions := by
  intro t
  have hs : aliasing.Steady := steady_of_faults_eq_nil rfl
  have hrefused : aliasing.outcome ["w"] t.toOptions "a" =
      .error (.ofProblem (.settings .emptyBase)) :=
    outcome_of_settings hs (TypedOptions.forInput_of_base ["w"] "a" (by decide +kernel) rfl)
  have hwritten : ((Command.run Yaml.load (workspace ["w"]) record "a" "out" t.toCommandOptions).run
      aliasing).1 = .written "/w/out" [] := by decide +kernel
  refine ⟨hs, quiet_record, workable_aliasing, hrefused, hwritten, fun hagrees => ?_⟩
  cases hwritten.symm.trans (hagrees.failed _ hrefused).1

end Machine
end Inliner
