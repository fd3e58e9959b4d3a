import Inliner.Proofs.Workspace
import Inliner.Yaml.Document

/-! What a command does to the tree. Until the text is there nothing is changed; the file is then
written as the tree of the start tells. -/
namespace Inliner
namespace Machine

section command

variable {s : Machine} {yaml : YamlReader} {tell : Message → Run Unit} {cwd : Names}
  {input output : String}

theorem reaches_processFile_error (hs : s.Steady) {o : Options} {e : Thrown} (output : String)
    (h : s.outcome cwd o input = .error e) :
    s.Reaches (Preprocessor.processFile (workspace cwd) o input output).run
      (pure (.error e)) :=
  reaches_of_error (untouched_process hs h) _

theorem reaches_processFile (hs : s.Steady) {o : Options} {text : String} (output : String)
    (h : s.outcome cwd o input = .ok text) :
    s.Reaches (Preprocessor.processFile (workspace cwd) o input output).run
      (do
        (workspace cwd).writeText output text .utf8
        (workspace cwd).log (.info ("Preprocessed " ++ input ++ " -> " ++ output)) :
          ExceptT Thrown Run Unit).run :=
  reaches_of_ok (untouched_process hs h) _

theorem untouched_tellAll (htell : Quiet tell) (s : Machine) (warnings : List String) :
    s.untouched.Ends (forIn warnings PUnit.unit fun warning _ => do
      tell ⟨.warn, warning⟩
      pure (ForInStep.yield PUnit.unit)) (.ok PUnit.unit) := by
  induction warnings with
  | nil => exact s.untouched.ends_pure PUnit.unit
  | cons warning rest ih =>
    have hstep : s.untouched.Ends (do
        tell ⟨.warn, warning⟩
        pure (ForInStep.yield PUnit.unit) : ExceptT Thrown Run (ForInStep PUnit))
        (.ok (ForInStep.yield PUnit.unit)) :=
      (Correspondence.ends_lift (untouched_tell htell s _)).bind fun _ _ => s.untouched.ends_pure _
    intro s' h
    rw [List.forIn_cons]
    obtain ⟨s₁, h₁, hrun⟩ := reaches_of_ok hstep _ s' h
    obtain ⟨s₂, h₂, hrest⟩ := ih s₁ h₁
    exact ⟨s₂, h₂, hrun.trans hrest⟩

def finish (cwd : Names) (tell : Message → Run Unit) (input output : String)
    (loaded : LoadedConfig) : ExceptT Thrown Run (List String) := do
  Preprocessor.processFile (workspace cwd) loaded.config.toOptions input output
  if loaded.config.marks then
    tell ⟨.success, "Processed " ++ input ++ " -> " ++ output⟩
  pure loaded.warnings

theorem reaches_perform_error (hs : s.Steady) {o : CommandOptions} {e : Thrown}
    (h : s.loaded yaml cwd input o = .error e) :
    s.Reaches (Command.perform yaml (workspace cwd) tell input output o).run (pure (.error e)) :=
  reaches_of_error (untouched_load hs h) _

theorem reaches_perform (hs : s.Steady) (htell : Quiet tell) {o : CommandOptions}
    {loaded : LoadedConfig} (output : String) (h : s.loaded yaml cwd input o = .ok loaded) :
    s.Reaches (Command.perform yaml (workspace cwd) tell input output o).run
      (finish cwd tell input output loaded).run := by
  have hwarned := reaches_of_ok (untouched_tellAll htell s loaded.warnings)
    fun _ => finish cwd tell input output loaded
  have htold (message : Message) := (reaches_of_ok
    (Correspondence.ends_lift (untouched_tell htell s message)) fun _ => do
      for warning in loaded.warnings do
        tell ⟨.warn, warning⟩
      finish cwd tell input output loaded).trans hwarned
  refine (reaches_of_ok (untouched_load hs h) _).trans ?_
  dsimp only
  by_cases hmarks : loaded.config.marks = true
  · rw [if_pos hmarks]
    cases loaded.configFile with
    | some file => exact htold _
    | none => exact hwarned
  · rw [if_neg hmarks]
    exact hwarned

theorem Writes.delivers {path text : String} {t : FileTree} (h : s.Writes cwd path text t) :
    s.tree.Delivers cwd path (Text.encodeUtf8 text) t := by
  obtain ⟨t₁, hmade, hwritten⟩ := h.tree
  exact FileTree.delivers_of_write hmade hwritten

theorem Writes.of_akin {s' : Machine} {path text : String} {t : FileTree} (hs' : s.Akin s')
    (h : s'.Writes cwd path text t) : s.Writes cwd path text t := by
  refine ⟨?_, ?_, ?_⟩
  · rw [← hs'.refusal_eq]
    exact h.makes
  · rw [← hs'.refusal_eq]
    exact h.stores
  · rw [← hs'.tree]
    exact h.tree

/-- A run that ends well has written the text of its expansion. -/
theorem processFile_writes (hs : s.Steady) {s₁ s₂ : Machine} (h₁ : s.Akin s₁) {o : Options}
    (h : (Preprocessor.processFile (workspace cwd) o input output).run s₁ = (.ok (), s₂)) :
    ∃ text, s.outcome cwd o input = .ok text ∧ s.Writes cwd output text s₂.tree ∧
      { s with tree := s₂.tree }.Akin s₂ := by
  cases houtcome : s.outcome cwd o input with
  | error e =>
    obtain ⟨s', -, hrun⟩ := reaches_processFile_error hs output houtcome s₁ h₁
    have herror := hrun.symm.trans h
    cases herror
  | ok text =>
    obtain ⟨s', h', hrun⟩ := reaches_processFile hs output houtcome s₁ h₁
    obtain ⟨⟨⟩, s₃, hwrite, hlog⟩ := bind_run_eq_ok_iff.mp (hrun.symm.trans h)
    have h₂ := akin_of_log (lift_run_eq_ok_iff.mp hlog)
    obtain ⟨hwrites, h₃⟩ := writes_of_run (h'.steady hs) hwrite
    refine ⟨text, rfl, .of_akin h' (by rw [h₂.tree]; exact hwrites), rfl, ?_, ?_⟩
    · rw [h₂.faults, h₃.faults, ← h'.faults]
    · rw [h₂.threshold, h₃.threshold, ← h'.threshold]

theorem exists_processFile_of_writes (hs : s.Steady) {s₁ : Machine} (h₁ : s.Akin s₁) {o : Options}
    {text : String} {t : FileTree} (houtcome : s.outcome cwd o input = .ok text)
    (h : s.Writes cwd output text t) :
    ∃ s', (Preprocessor.processFile (workspace cwd) o input output).run s₁ = (.ok (), s') ∧
      s'.tree = t := by
  obtain ⟨s₂, h₂, hrun⟩ := reaches_processFile hs output houtcome s₁ h₁
  have hwrites : s₂.Writes cwd output text t := h.of_akin h₂.symm
  obtain ⟨s₃, hwrite, h₃⟩ := exists_run_of_writes (h₂.steady hs) hwrites
  obtain ⟨s₄, h₄, hlog⟩ := exists_log s₃ (.info ("Preprocessed " ++ input ++ " -> " ++ output))
  refine ⟨s₄, hrun.trans ?_, h₄.tree.trans h₃.tree⟩
  exact bind_run_eq_ok_iff.mpr ⟨(), s₃, hwrite, lift_run_eq_ok_iff.mpr hlog⟩

theorem Reaches.bind {α β : Type} {x y : Run α} (h : s.Reaches x y) (f : α → Run β) :
    s.Reaches (x >>= f) (y >>= f) := by
  intro s' hs'
  obtain ⟨s'', hs'', hrun⟩ := h s' hs'
  refine ⟨s'', hs'', ?_⟩
  rw [StateT.run_bind, StateT.run_bind, hrun]

theorem untouched_logs (s : Machine) (level : Log.Level) :
    s.untouched.Rel (logs level) (level.enabledAt s.threshold) := by
  intro s' h
  refine ⟨s', h, ?_⟩
  rw [← h.threshold]
  rfl

def conclude (cwd : Names) (output : String) (r : Except Thrown (List String)) :
    Run Command.Outcome := do
  match r with
  | .ok warnings => pure (.written (Path.render (Path.resolve cwd output)) warnings)
  | .error e =>
    let record := Log.recordOf e
    if (← logs record.level) && record.isEndless then pure .endless
    else
      log record
      pure (.failed (Log.summary e))

theorem untouched_conclude (s : Machine) (cwd : Names) (output : String) (e : Thrown) :
    ∃ outcome, s.untouched.Rel (conclude cwd output (.error e)) outcome ∧
      ∀ path warnings, outcome ≠ .written path warnings := by
  let record := Log.recordOf e
  by_cases hendless : (record.level.enabledAt s.threshold && record.isEndless) = true
  · refine ⟨.endless, s.untouched.sequence (s.untouched_logs record.level) ?_, by simp⟩
    rw [if_pos hendless]
    exact s.untouched.value _
  · refine ⟨.failed (Log.summary e), s.untouched.sequence (s.untouched_logs record.level) ?_,
      by simp⟩
    rw [if_neg hendless]
    exact s.untouched.sequence (s.untouched_log record) (s.untouched.value _)

theorem reaches_perform_of_expansion (hs : s.Steady) (htell : Quiet tell) {o : CommandOptions}
    {loaded : LoadedConfig} {e : Thrown} (output : String)
    (load : s.loaded yaml cwd input o = .ok loaded)
    (expand : s.outcome cwd loaded.config.toOptions input = .error e) :
    s.Reaches (Command.perform yaml (workspace cwd) tell input output o).run (pure (.error e)) :=
  (reaches_perform hs htell output load).trans
    ((reaches_processFile_error hs output expand).bind (ExceptT.bindCont _))

/-- What a command runs on is not there, is no regular file, has no settings or cannot be
expanded. -/
inductive Unprepared (s : Machine) (yaml : YamlReader) (cwd : Names) (input : String)
    (o : CommandOptions) : Prop
  | missing (check : (((workspace cwd).exists? input).run s).1 = false)
  | irregular (check : (((workspace cwd).isRegularFile input).run s).1 = false)
  | settings {e : Thrown} (load : s.loaded yaml cwd input o = .error e)
  | expansion {loaded : LoadedConfig} {e : Thrown} (load : s.loaded yaml cwd input o = .ok loaded)
      (expand : s.outcome cwd loaded.config.toOptions input = .error e)

theorem prepared_of_not {o : CommandOptions} (h : ¬s.Unprepared yaml cwd input o) :
    (((workspace cwd).exists? input).run s).1 = true ∧
    (((workspace cwd).isRegularFile input).run s).1 = true ∧
    ∃ loaded text, s.loaded yaml cwd input o = .ok loaded ∧
      s.outcome cwd loaded.config.toOptions input = .ok text := by
  refine ⟨?_, ?_, ?_⟩
  · exact Bool.of_not_eq_false fun hcheck => h (.missing hcheck)
  · exact Bool.of_not_eq_false fun hcheck => h (.irregular hcheck)
  · cases hload : s.loaded yaml cwd input o with
    | error e => exact absurd (.settings hload) h
    | ok loaded =>
      cases hexpand : s.outcome cwd loaded.config.toOptions input with
      | error e => exact absurd (.expansion hload hexpand) h
      | ok text => exact ⟨loaded, text, rfl, hexpand⟩

theorem reaches_run (hs : s.Steady) {o : CommandOptions}
    (hexists : (((workspace cwd).exists? input).run s).1 = true)
    (hregular : (((workspace cwd).isRegularFile input).run s).1 = true) :
    s.Reaches (Command.run yaml (workspace cwd) tell input output o)
      ((Command.perform yaml (workspace cwd) tell input output o).run >>= conclude cwd output) := by
  have hw := workspace_corresponds hs cwd
  have hfirst := untouched_of_fst (hw.exists? input) hexists
  have hsecond := untouched_of_fst (hw.isRegularFile input) hregular
  exact (reaches_bind hfirst _).trans (reaches_bind hsecond _)

/-- A command that comes to no text is not told as one that has written, and changes nothing. -/
theorem run_unprepared (hs : s.Steady) (htell : Quiet tell) {o : CommandOptions}
    (output : String) (h : s.Unprepared yaml cwd input o) :
    ∃ outcome, s.Reaches (Command.run yaml (workspace cwd) tell input output o) (pure outcome) ∧
      ∀ path warnings, outcome ≠ .written path warnings := by
  have hw := workspace_corresponds hs cwd
  cases hexists : (((workspace cwd).exists? input).run s).1 with
  | false => exact ⟨_, reaches_bind (untouched_of_fst (hw.exists? input) hexists) _, by simp⟩
  | true =>
    cases hregular : (((workspace cwd).isRegularFile input).run s).1 with
    | false =>
      have hfirst := untouched_of_fst (hw.exists? input) hexists
      have hsecond := untouched_of_fst (hw.isRegularFile input) hregular
      exact ⟨_, (reaches_bind hfirst _).trans (reaches_bind hsecond _), by simp⟩
    | true =>
      have hperform : ∃ e, s.Reaches (Command.perform yaml (workspace cwd) tell input output o).run
          (pure (.error e)) := by
        cases h with
        | missing check => rw [hexists] at check; cases check
        | irregular check => rw [hregular] at check; cases check
        | @settings e load => exact ⟨e, reaches_perform_error hs load⟩
        | @expansion loaded e load expand =>
          exact ⟨e, reaches_perform_of_expansion hs htell output load expand⟩
      obtain ⟨e, herror⟩ := hperform
      obtain ⟨outcome, hconclude, hnot⟩ := untouched_conclude s cwd output e
      refine ⟨outcome, (reaches_run hs hexists hregular).trans ?_, hnot⟩
      exact (herror.bind _).trans (reaches_bind hconclude pure)

theorem untouched_success (htell : Quiet tell) (s : Machine) (loaded : LoadedConfig)
    (message : Message) :
    s.untouched.Ends (do
      if loaded.config.marks then
        tell message
      pure loaded.warnings) (.ok loaded.warnings) := by
  dsimp only
  split
  · exact (Correspondence.ends_lift (untouched_tell htell s _)).bind fun _ _ =>
      s.untouched.ends_pure loaded.warnings
  · exact s.untouched.ends_pure loaded.warnings

theorem finish_writes (hs : s.Steady) (htell : Quiet tell) {loaded : LoadedConfig}
    {s₁ s₂ : Machine} (h₁ : s.Akin s₁) {warnings : List String}
    (h : (finish cwd tell input output loaded).run s₁ = (.ok warnings, s₂)) :
    ∃ text, s.outcome cwd loaded.config.toOptions input = .ok text ∧
      s.Writes cwd output text s₂.tree := by
  obtain ⟨⟨⟩, s₃, hprocess, hrest⟩ := bind_run_eq_ok_iff.mp h
  obtain ⟨text, houtcome, hwrites, -⟩ := processFile_writes hs h₁ hprocess
  refine ⟨text, houtcome, ?_⟩
  have h₃ := akin_of_untouched (untouched_success htell s₃ loaded _) (Akin.refl s₃) hrest
  rw [h₃.tree]
  exact hwrites

theorem run_written (hs : s.Steady) (htell : Quiet tell) {o : CommandOptions} {path : String}
    {warnings : List String}
    (h : ((Command.run yaml (workspace cwd) tell input output o).run s).1 = .written path warnings) :
    ∃ loaded text, s.loaded yaml cwd input o = .ok loaded ∧
      s.outcome cwd loaded.config.toOptions input = .ok text ∧
      s.Writes cwd output text
        ((Command.run yaml (workspace cwd) tell input output o).run s).2.tree := by
  have hprepared : ¬s.Unprepared yaml cwd input o := by
    intro hun
    obtain ⟨outcome, hreaches, hnot⟩ := run_unprepared hs htell output hun
    obtain ⟨s', -, hrun⟩ := hreaches s (Akin.refl s)
    rw [hrun] at h
    exact hnot path warnings h
  obtain ⟨hexists, hregular, loaded, -, hload, -⟩ := prepared_of_not hprepared
  have hperform := (reaches_perform hs htell output hload).bind (conclude cwd output)
  obtain ⟨s₁, h₁, hrun⟩ := ((reaches_run hs hexists hregular).trans hperform) s (Akin.refl s)
  rw [hrun] at h ⊢
  rw [StateT.run_bind] at h ⊢
  rcases hfinish : (finish cwd tell input output loaded).run.run s₁ with ⟨e | ws, s₂⟩
  · rw [hfinish] at h
    obtain ⟨outcome, hconclude, hnot⟩ := untouched_conclude s₂ cwd output e
    obtain ⟨s₃, -, hend⟩ := hconclude s₂ (Akin.refl s₂)
    have houtcome : outcome = .written path warnings := (congrArg Prod.fst hend).symm.trans h
    exact absurd houtcome (hnot path warnings)
  · obtain ⟨text, houtcome, hwrites⟩ := finish_writes hs htell h₁ hfinish
    exact ⟨loaded, text, hload, houtcome, hwrites⟩

/-- No partial output, and a snapshot of the inputs. A command whose input is missing or no regular
file, whose settings cannot be loaded or whose input cannot be expanded leaves the tree as it is,
and so does a run whose expansion fails. One that ends well has put the text that the expansion
gives on the tree of the start into the file that the output path leads to, and has changed nothing
else but to make the directories that were missing above it. -/
theorem run_writes_snapshot {s : Machine} (hs : s.Steady) (yaml : YamlReader)
    {tell : Message → Run Unit} (htell : Quiet tell) (cwd : Names) (input output : String) :
    (∀ o : CommandOptions,
      let ended := (Command.run yaml (workspace cwd) tell input output o).run s
      (s.Unprepared yaml cwd input o →
        (∀ path warnings, ended.1 ≠ .written path warnings) ∧ ended.2.tree = s.tree) ∧
      ∀ path warnings, ended.1 = .written path warnings →
        ∃ loaded text, s.loaded yaml cwd input o = .ok loaded ∧
          s.outcome cwd loaded.config.toOptions input = .ok text ∧
          s.tree.Delivers cwd output (Text.encodeUtf8 text) ended.2.tree) ∧
    ∀ o : Options,
      let ended := (Preprocessor.processFile (workspace cwd) o input output).run s
      (∀ e, s.outcome cwd o input = .error e → ended.1 = .error e ∧ ended.2.tree = s.tree) ∧
      (ended.1 = .ok () →
        ∃ text, s.outcome cwd o input = .ok text ∧
          s.tree.Delivers cwd output (Text.encodeUtf8 text) ended.2.tree) := by
  refine ⟨fun o => ⟨fun hun => ?_, fun path warnings h => ?_⟩, fun o => ⟨fun e he => ?_, fun h => ?_⟩⟩
  · obtain ⟨outcome, hreaches, hnot⟩ := run_unprepared hs htell output hun
    obtain ⟨s', h', hrun⟩ := hreaches s (Akin.refl s)
    rw [hrun]
    exact ⟨hnot, h'.tree⟩
  · obtain ⟨loaded, text, hload, houtcome, hwrites⟩ := run_written hs htell h
    exact ⟨loaded, text, hload, houtcome, hwrites.delivers⟩
  · obtain ⟨s', h', hrun⟩ := reaches_processFile_error hs output he s (Akin.refl s)
    have hended : (Preprocessor.processFile (workspace cwd) o input output).run s = (.error e, s') :=
      hrun
    rw [hended]
    exact ⟨rfl, h'.tree⟩
  · obtain ⟨text, houtcome, hwrites, -⟩ :=
      processFile_writes hs (Akin.refl s) (Prod.ext h rfl)
    exact ⟨text, houtcome, hwrites.delivers⟩

end command

/-- A directory `/w` in which `l` is a link to the file `b`, which the file `a` includes. -/
def aliasing : Machine :=
  { tree := ⟨[(["w"], .directory), (["w", "a"], .file (Text.encodeUtf8 "#include b\nx\n")),
      (["w", "b"], .file (Text.encodeUtf8 "y\n")), (["w", "l"], .link "b")]⟩ }

theorem run_aliasing : ((Command.run Yaml.load (workspace ["w"]) record "a" "l" {}).run aliasing).1 =
    .written "/w/l" [] := by decide +kernel

theorem aliasing_run_writes_snapshot :
    aliasing.Steady ∧ Quiet record ∧
    ((Command.run Yaml.load (workspace ["w"]) record "a" "l" {}).run aliasing).1 =
      .written "/w/l" [] ∧
    ∃ loaded text, aliasing.loaded Yaml.load ["w"] "a" {} = .ok loaded ∧
      aliasing.outcome ["w"] loaded.config.toOptions "a" = .ok text ∧
      aliasing.tree.Delivers ["w"] "l" (Text.encodeUtf8 text)
        ((Command.run Yaml.load (workspace ["w"]) record "a" "l" {}).run aliasing).2.tree := by
  have hs : aliasing.Steady := steady_of_faults_eq_nil rfl
  have hcommand := (run_writes_snapshot hs Yaml.load quiet_record ["w"] "a" "l").1 {}
  exact ⟨hs, quiet_record, run_aliasing, hcommand.2 "/w/l" [] run_aliasing⟩

/-- The text is in the file that the link leads to. -/
example : ((Command.run Yaml.load (workspace ["w"]) record "a" "l" {}).run aliasing).2.tree.get?
    ["w", "b"] = some (.file (Text.encodeUtf8 "y\nx\n")) := by decide +kernel

end Machine
end Inliner
