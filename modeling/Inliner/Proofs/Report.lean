import Inliner.Proofs.Account
import Inliner.Proofs.KnownKeys
import Inliner.Proofs.Watching
import Inliner.Proofs.Workspace
import Inliner.Yaml.Document

/-! What a command reports: whether its output was stored, messages about its project file and its
output around that, and one report of a failure. -/
namespace Inliner

variable {σ : Type}

/-- The keys of a document, in the order in which they are listed; bytes have one for each
position. -/
def Value.keys : Value → List String
  | .record fields => (listingOrder fields).map (·.1)
  | .bytes b => b.zipIdx.map fun x => toString x.2
  | _ => []

namespace ProjectFile

def unknownKeys (v : Value) : List String := v.keys.filter fun key => !knownKeys.contains key

def warningAbout (file key : String) : String :=
  "Unknown key '" ++ key ++ "' in " ++ file ++ " ignored"

variable {file : String}

theorem warningsFor_eq (fields : Fields) : warningsFor file fields =
    ((fields.map (·.1)).filter fun key => !knownKeys.contains key).map (warningAbout file) := by
  rw [warningsFor, List.filter_map, List.map_map]
  rfl

theorem warnings_of_ofFields {fields : Fields} {p : ProjectFile}
    (h : ofFields file fields = .ok p) : p.warnings = warningsFor file fields := by
  have hchecked := ofFields_checked file fields
  rw [h] at hchecked
  generalize hx : (Except.ok p : Except Thrown ProjectFile) = x at hchecked
  cases hchecked with
  | passed admitted taken told =>
    cases hx
    exact told
  | refused => cases hx

theorem warnings_of_ofValue {v : Value} {p : ProjectFile} (h : ofValue file v = .ok p) :
    p.warnings = (unknownKeys v).map (warningAbout file) := by
  have hsilent : (Except.ok {} : Except Thrown ProjectFile) = .ok p → p.warnings = [] := by
    rintro ⟨⟩
    rfl
  unfold ofValue at h
  split at h
  · exact hsilent h
  · exact hsilent h
  · exact (warnings_of_ofFields h).trans (warningsFor_eq _)
  · exact hsilent h
  · rw [warnings_of_ofFields h, warningsFor_eq, List.map_map]
    rfl
  · cases h

theorem warnings_of_parse {yaml : YamlReader} {content : String} {p : ProjectFile}
    (h : parse yaml content file = .ok p) :
    ∃ v, yaml content = .ok v ∧ p.warnings = (unknownKeys v).map (warningAbout file) := by
  unfold parse at h
  split at h
  · cases h
  · next v hv => exact ⟨v, hv, warnings_of_ofValue h⟩

end ProjectFile

namespace LoadedConfig

/-- Where settings that are loaded come from: there is no project file and none is asked for, or it
is read and told of by its unknown keys. -/
inductive Stems (yaml : YamlReader) (w : Workspace (StateM σ)) (input : String)
    (o : CommandOptions) (l : LoadedConfig) (s : σ) : Prop
  | bare {path : String} {s₁ : σ} (place : o.configPath w.cwd input = .ok path)
      (gone : (w.exists? path).run s = (false, s₁)) (unasked : o.config.isTruthy = false)
      (file : l.configFile = none) (warnings : l.warnings = [])
  | file {path : String} {s₁ s₂ : σ} {bytes : Text.Bytes} {v : Value}
      (place : o.configPath w.cwd input = .ok path)
      (there : (w.exists? path).run s = (true, s₁))
      (read : ((w.load path).run.run s₂).1 = .ok bytes)
      (document : yaml (Text.decodeUtf8 bytes) = .ok v)
      (file : l.configFile = some path)
      (warnings : l.warnings = (ProjectFile.unknownKeys v).map (ProjectFile.warningAbout path))

theorem settled_run_eq_ok_iff {α : Type} {x : Except Thrown α} {a : α} {s s' : σ} :
    (LoadedConfig.lift x : ExceptT Thrown (StateM σ) α).run s = (.ok a, s') ↔
      x = .ok a ∧ s' = s := by
  show (x, s) = _ ↔ _
  rw [Prod.mk.injEq, eq_comm (a := s)]

theorem stems_of_load {yaml : YamlReader} {w : Workspace (StateM σ)} {input : String}
    {o : CommandOptions} {l : LoadedConfig} {s s' : σ}
    (hload : (load yaml w input o).run.run s = (.ok l, s')) :
    l.Stems yaml w input o s := by
  have hsettle (path : String) (found : ProjectFile × Option String) {s : σ}
      (h : (do
        let options ← LoadedConfig.lift (o.merge w.cwd input path found.1)
        let config ← LoadedConfig.lift (Config.ofOptions w.cwd options)
        pure (⟨config, found.2, found.1.warnings⟩ : LoadedConfig) :
          ExceptT Thrown (StateM σ) LoadedConfig).run s = (.ok l, s')) :
      l.configFile = found.2 ∧ l.warnings = found.1.warnings := by
    obtain ⟨options, _, -, h⟩ := bind_run_eq_ok_iff.mp h
    obtain ⟨config, _, -, h⟩ := bind_run_eq_ok_iff.mp h
    cases h
    exact ⟨rfl, rfl⟩
  obtain ⟨path, s₁, hpath, hafter⟩ := bind_run_eq_ok_iff.mp hload
  obtain ⟨hplace, rfl⟩ := settled_run_eq_ok_iff.mp hpath
  obtain ⟨there, s₂, hlook, hfind⟩ := bind_run_eq_ok_iff.mp hafter
  have hthere : (w.exists? path).run s₁ = (there, s₂) := lift_run_eq_ok_iff.mp hlook
  cases there with
  | true =>
    obtain ⟨_, s₃, -, hrest⟩ := bind_run_eq_ok_iff.mp hfind
    obtain ⟨content, s₄, hcontent, hread⟩ := bind_run_eq_ok_iff.mp hrest
    obtain ⟨bytes, _, hbytes, hdecode⟩ := bind_run_eq_ok_iff.mp hcontent
    obtain ⟨file, s₅, hfile, hparsed⟩ := bind_run_eq_ok_iff.mp hread
    obtain ⟨found, s₆, hfound, hsettled⟩ := bind_run_eq_ok_iff.mp hparsed
    cases hdecode
    cases hfound
    obtain ⟨v, hdocument, hwarnings⟩ :=
      ProjectFile.warnings_of_parse (settled_run_eq_ok_iff.mp hfile).1
    obtain ⟨hconfig, hsame⟩ := hsettle path (file, some path) hsettled
    exact .file hplace hthere (congrArg Prod.fst (onPath_run_eq_ok_iff.mp hbytes)) hdocument hconfig
      (hsame.trans hwarnings)
  | false =>
    dsimp only at hfind
    rw [if_neg Bool.false_ne_true] at hfind
    split at hfind
    · obtain ⟨_, _, hthrow, -⟩ := bind_run_eq_ok_iff.mp hfind
      cases hthrow
    · next hunasked =>
      obtain ⟨_, s₃, -, hrest⟩ := bind_run_eq_ok_iff.mp hfind
      obtain ⟨found, s₄, hfound, hsettled⟩ := bind_run_eq_ok_iff.mp hrest
      cases hfound
      obtain ⟨hconfig, hwarnings⟩ := hsettle path ({}, none) hsettled
      exact .bare hplace hthere (Bool.eq_false_iff.mpr hunasked) hconfig hwarnings

/-- What is told before a run: the project file that was read, if the run leaves marks, and the
warnings. -/
def announcements (l : LoadedConfig) : List Message :=
  (if l.config.marks then
    l.configFile.toList.map fun file => ⟨.info, "Using config file " ++ file⟩ else []) ++
  l.warnings.map fun warning => ⟨.warn, warning⟩

def closing (l : LoadedConfig) (input output : String) : List Message :=
  if l.config.marks then [⟨.success, "Processed " ++ input ++ " -> " ++ output⟩] else []

theorem tone_of_announcements (l : LoadedConfig) {message : Message}
    (h : message ∈ l.announcements) : message.tone ≠ .error := by
  rcases List.mem_append.mp h with hinfo | hwarn
  · split at hinfo
    · obtain ⟨file, -, rfl⟩ := List.mem_map.mp hinfo
      simp
    · cases hinfo
  · obtain ⟨warning, -, rfl⟩ := List.mem_map.mp hwarn
    simp

theorem tone_of_closing (l : LoadedConfig) {input output : String} {message : Message}
    (h : message ∈ l.closing input output) : message.tone ≠ .error := by
  rw [closing] at h
  split at h
  · obtain rfl := List.mem_singleton.mp h
    simp
  · cases h

end LoadedConfig

namespace Command

namespace Outcome

def isWritten : Outcome → Bool
  | written .. => true
  | _ => false

def errors : Outcome → List Message
  | failed error => [⟨.error, error⟩]
  | _ => []

def exit (outcome : Outcome) : Nat := if outcome.isWritten then 0 else 1

end Outcome

section courses

variable (yaml : YamlReader) (w : Workspace (StateM σ)) (tell : Message → StateM σ Unit)
  (input output : String)

/-- How a run that writes goes: it comes to no text or no directory for it, the text is not stored,
or it is. -/
inductive Attempts : List Deed → Except Thrown Unit → Prop
  | fruitless (e : Thrown) : Attempts [] (.error e)
  | refused (content : Text.Bytes) (t e : Thrown) :
      Attempts [.stored output content (.error t)] (.error e)
  | stored (content : Text.Bytes) : Attempts [.stored output content (.ok ())] (.ok ())

/-- How a command goes on once its settings are loaded and told: the run fails, or it ends well and
that is told. -/
inductive Concludes (l : LoadedConfig) : List Deed → Except Thrown (List String) → Prop
  | failed {deeds : List Deed} {e : Thrown} (error : e.IsError)
      (attempts : Attempts output deeds (.error e)) : Concludes l deeds (.error e)
  | written {deeds : List Deed} (attempts : Attempts output deeds (.ok ())) :
      Concludes l (deeds ++ (l.closing input output).map .told) (.ok l.warnings)

/-- How a command with a regular input goes. -/
inductive Performs (o : CommandOptions) (s : σ) :
    List Deed → Except Thrown (List String) → Prop
  | unloaded {e : Thrown} {s₁ : σ}
      (load : (LoadedConfig.load yaml w input o).run.run s = (.error e, s₁)) :
      Performs o s [] (.error e)
  | loaded {l : LoadedConfig} {s₁ : σ} {deeds : List Deed} {r : Except Thrown (List String)}
      (load : (LoadedConfig.load yaml w input o).run.run s = (.ok l, s₁))
      (concludes : Concludes input output l deeds r) :
      Performs o s (l.announcements.map .told ++ deeds) r

section

variable {m : Type → Type} [Monad m]

def conclude (w : Workspace m) (tell : Message → m Unit) (input output : String)
    (l : LoadedConfig) : ExceptT Thrown m (List String) := do
  Preprocessor.processFile w l.config.toOptions input output
  if l.config.marks then
    tell ⟨.success, "Processed " ++ input ++ " -> " ++ output⟩
  pure l.warnings

def announce (w : Workspace m) (tell : Message → m Unit) (input output : String)
    (l : LoadedConfig) : ExceptT Thrown m (List String) := do
  if l.config.marks then
    if let some file := l.configFile then
      tell ⟨.info, "Using config file " ++ file⟩
  for warning in l.warnings do
    tell ⟨.warn, warning⟩
  conclude w tell input output l

def ended (w : Workspace m) (output : String) (r : Except Thrown (List String)) : m Outcome := do
  match r with
  | .ok warnings => pure (.written (Path.render (Path.resolve w.cwd output)) warnings)
  | .error e =>
    let record := Log.recordOf e
    if (← w.logs record.level) && record.isEndless then pure .endless
    else
      w.log record
      pure (.failed (Log.summary e))

theorem run_eq (w : Workspace m) (tell : Message → m Unit) (input output : String)
    (o : CommandOptions) :
    run yaml w tell input output o = (do
      if !(← w.exists? input) then
        pure (.failed ("Input file does not exist: " ++ input))
      else if !(← w.isRegularFile input) then
        pure (.failed ("Input path is not a file: " ++ input))
      else
        (perform yaml w tell input output o).run >>= ended w output) := rfl

theorem perform_eq (w : Workspace m) (tell : Message → m Unit) (input output : String)
    (o : CommandOptions) :
    perform yaml w tell input output o =
      LoadedConfig.load yaml w input o >>= announce w tell input output := rfl

end

theorem exists_records_writeText (content : String) (s : σ) :
    ∃ deeds r s', Attempts output deeds r ∧
      Records (w.watched.writeText output content .utf8).run (w.writeText output content .utf8).run s
        deeds r s' := by
  have hmake := (unseen σ).ends_ensureDirectory w (Path.parent output)
  rcases hmade : (w.ensureDirectory (Path.parent output)).run.run s with ⟨e | ⟨⟩, s₁⟩
  · exact ⟨_, _, _, .fruitless e, (records_silent hmake hmade).stop⟩
  · have hfirst := records_silent hmake hmade
    rcases hstored : (w.store output (Text.encodeUtf8 content)).run.run s₁ with ⟨t | ⟨⟩, s₂⟩
    · have hstore := (records_written hstored fun answer =>
        [Deed.stored output (Text.encodeUtf8 content) answer]).onPath output none
      exact ⟨_, _, _, .refused _ t _, hfirst.then hstore.stop⟩
    · have hstore := (records_written hstored fun answer =>
        [Deed.stored output (Text.encodeUtf8 content) answer]).onPath output none
      have hlog := (records_carry (w.log (.debug ("Wrote file: " ++ output))) s₂).lift
      exact ⟨_, _, _, .stored _, hfirst.then (hstore.then hlog)⟩

theorem exists_attempts (o : Options) (s : σ) :
    ∃ deeds r s', Attempts output deeds r ∧
      Records (Preprocessor.processFile w.watched o input output).run
        (Preprocessor.processFile w o input output).run s deeds r s' := by
  have hprocess := (unseen σ).ends_process w.toHost o input
  rcases hexpanded : (Preprocessor.process w.toHost o input).run.run s with ⟨e | text, s₁⟩
  · exact ⟨_, _, _, .fruitless e, (records_silent hprocess hexpanded).stop⟩
  · have hfirst := records_silent hprocess hexpanded
    obtain ⟨deeds, r, s₂, hattempts, hwrite⟩ := exists_records_writeText w output text s₁
    cases r with
    | error e => exact ⟨_, _, _, hattempts, hfirst.then hwrite.stop⟩
    | ok u =>
      have hlog := (records_carry
        (w.log (.info ("Preprocessed " ++ input ++ " -> " ++ output))) s₂).lift
      rw [← List.append_nil deeds] at hattempts
      exact ⟨_, _, _, hattempts, hfirst.then (hwrite.then hlog)⟩

theorem exists_records_warnings (warnings : List String) (s : σ) :
    ∃ s', Records (forIn warnings PUnit.unit fun warning _ => do
        watchedPort tell ⟨.warn, warning⟩
        pure (ForInStep.yield PUnit.unit) :
          ExceptT Thrown (StateT (List Deed) (StateM σ)) PUnit).run
      (forIn warnings PUnit.unit fun warning _ => do
        tell ⟨.warn, warning⟩
        pure (ForInStep.yield PUnit.unit) : ExceptT Thrown (StateM σ) PUnit).run s
      (warnings.map fun warning => .told ⟨.warn, warning⟩) (.ok PUnit.unit) s' := by
  induction warnings generalizing s with
  | nil => exact ⟨s, records_pure _ s⟩
  | cons warning rest ih =>
    obtain ⟨s', hrest⟩ := ih ((tell ⟨.warn, warning⟩).run s).2
    refine ⟨s', ?_⟩
    rw [List.forIn_cons, List.forIn_cons]
    have hone := (records_told tell ⟨.warn, warning⟩ s).lift
    exact Records.then (hone.then (f := fun _ => pure (ForInStep.yield PUnit.unit))
      (g := fun _ => pure (ForInStep.yield PUnit.unit)) (records_pure _ _)) hrest

theorem exists_concludes (l : LoadedConfig) (s : σ) :
    ∃ deeds r s', Concludes input output l deeds r ∧
      Records (conclude w.watched (watchedPort tell) input output l).run
        (conclude w tell input output l).run s deeds r s' := by
  obtain ⟨deeds, r, s₁, hattempts, hprocess⟩ := exists_attempts w input output l.config.toOptions s
  cases r with
  | error e =>
    have herror : e.IsError :=
      raises_processFile w input output _ s e (congrArg Prod.fst hprocess.plain)
    exact ⟨_, _, _, .failed herror hattempts, hprocess.stop⟩
  | ok u =>
    have hclosing : ∃ s', Records (do
          if l.config.marks then
            watchedPort tell ⟨.success, "Processed " ++ input ++ " -> " ++ output⟩
          pure l.warnings : ExceptT Thrown (StateT (List Deed) (StateM σ)) (List String)).run
        (do
          if l.config.marks then
            tell ⟨.success, "Processed " ++ input ++ " -> " ++ output⟩
          pure l.warnings : ExceptT Thrown (StateM σ) (List String)).run s₁
        ((l.closing input output).map .told) (.ok l.warnings) s' := by
      rw [LoadedConfig.closing]
      dsimp only
      by_cases hmarks : l.config.marks = true
      · rw [if_pos hmarks, if_pos hmarks, if_pos hmarks]
        have htold := records_told tell ⟨.success, "Processed " ++ input ++ " -> " ++ output⟩ s₁
        exact ⟨_, htold.lift.then (records_pure _ _)⟩
      · rw [if_neg hmarks, if_neg hmarks, if_neg hmarks]
        exact ⟨_, records_pure _ s₁⟩
    obtain ⟨s', hclosing⟩ := hclosing
    exact ⟨_, _, _, .written hattempts, hprocess.then hclosing⟩

theorem exists_records_announce (l : LoadedConfig) (s : σ) :
    ∃ deeds r s', Concludes input output l deeds r ∧
      Records (announce w.watched (watchedPort tell) input output l).run
        (announce w tell input output l).run s (l.announcements.map .told ++ deeds) r s' := by
  have hwarned (s : σ) : ∃ deeds r s', Concludes input output l deeds r ∧
      Records (do
        for warning in l.warnings do
          watchedPort tell ⟨.warn, warning⟩
        conclude w.watched (watchedPort tell) input output l :
          ExceptT Thrown (StateT (List Deed) (StateM σ)) (List String)).run
      (do
        for warning in l.warnings do
          tell ⟨.warn, warning⟩
        conclude w tell input output l : ExceptT Thrown (StateM σ) (List String)).run s
      (l.warnings.map (fun warning => .told ⟨.warn, warning⟩) ++ deeds) r s' := by
    obtain ⟨s₁, hwarnings⟩ := exists_records_warnings tell l.warnings s
    obtain ⟨deeds, r, s', hconcludes, hconclude⟩ := exists_concludes w tell input output l s₁
    exact ⟨deeds, r, s', hconcludes, hwarnings.then hconclude⟩
  simp only [announce, LoadedConfig.announcements, List.map_append, List.map_map,
    List.append_assoc]
  by_cases hmarks : l.config.marks = true
  · simp only [if_pos hmarks]
    cases l.configFile with
    | some file =>
      have htold := (records_told tell ⟨.info, "Using config file " ++ file⟩ s).lift
      obtain ⟨deeds, r, s', hconcludes, hrest⟩ := hwarned
        ((tell ⟨.info, "Using config file " ++ file⟩).run s).2
      exact ⟨deeds, r, s', hconcludes, htold.then hrest⟩
    | none => exact hwarned s
  · simp only [if_neg hmarks]
    exact hwarned s

theorem exists_performs (o : CommandOptions) (s : σ) :
    ∃ deeds r s', Performs yaml w input output o s deeds r ∧
      Records (perform yaml w.watched (watchedPort tell) input output o).run
        (perform yaml w tell input output o).run s deeds r s' := by
  rw [perform_eq, perform_eq]
  have hload := (unseen σ).ends_load w yaml input o
  rcases hloaded : (LoadedConfig.load yaml w input o).run.run s with ⟨e | l, s₁⟩
  · exact ⟨_, _, _, .unloaded hloaded, (records_silent hload hloaded).stop⟩
  · obtain ⟨deeds, r, s', hconcludes, hannounce⟩ := exists_records_announce w tell input output l s₁
    exact ⟨_, r, s', .loaded hloaded hconcludes, (records_silent hload hloaded).then hannounce⟩

/-! ### Whole runs -/

/-- The checks of the input are passed. -/
def Passes (s s' : σ) : Prop :=
  ∃ s₁, (w.exists? input).run s = (true, s₁) ∧ (w.isRegularFile input).run s₁ = (true, s')

def Loads (o : CommandOptions) (s : σ) (l : LoadedConfig) : Prop :=
  ∃ s₁ s₂, Passes w input s s₁ ∧ (LoadedConfig.load yaml w input o).run.run s₁ = (.ok l, s₂)

/-- A run comes to load its settings, and from there to the error `e`. -/
def Breaks (o : CommandOptions) (s : σ) (e : Thrown) (s' : σ) : Prop :=
  ∃ s₁, Passes w input s s₁ ∧ (perform yaml w tell input output o).run.run s₁ = (.error e, s')

/-- The trace of an error cannot be logged, though it is asked for. -/
def Unloggable (e : Thrown) (s : σ) : Prop :=
  ((w.logs .debug).run s).1 = true ∧ (Log.recordOf e).isEndless = true

/-- How a command ends: the input is not there, or is no regular file; or what follows is performed,
or comes to an error, of which there is an account. -/
inductive Ends (o : CommandOptions) (s : σ) : Outcome → Prop
  | missing {s₁ : σ} (gone : (w.exists? input).run s = (false, s₁)) :
      Ends o s (.failed ("Input file does not exist: " ++ input))
  | irregular {s₁ s₂ : σ} (found : (w.exists? input).run s = (true, s₁))
      (irregular : (w.isRegularFile input).run s₁ = (false, s₂)) :
      Ends o s (.failed ("Input path is not a file: " ++ input))
  | written {s₁ s₂ : σ} {warnings : List String} (passes : Passes w input s s₁)
      (performed : (perform yaml w tell input output o).run.run s₁ = (.ok warnings, s₂)) :
      Ends o s (.written (Path.render (Path.resolve w.cwd output)) warnings)
  | failed {e : Thrown} {s₁ : σ} {a : Account} (breaks : Breaks yaml w tell input output o s e s₁)
      (loggable : ¬Unloggable w e s₁) (account : e.account? = some a) :
      Ends o s (.failed a.text)
  | endless {e : Thrown} {s₁ : σ} (breaks : Breaks yaml w tell input output o s e s₁)
      (unloggable : Unloggable w e s₁) : Ends o s .endless

/-- How a run goes: its checks fail and nothing is done, or what follows them is performed. -/
inductive Goes (o : CommandOptions) (s : σ) : List Deed → Outcome → Prop
  | unchecked (text : String) (fails : ∀ s₁, ¬Passes w input s s₁) : Goes o s [] (.failed text)
  | performed {deeds : List Deed} {r : Except Thrown (List String)} {s₁ : σ} {outcome : Outcome}
      (passes : Passes w input s s₁) (performs : Performs yaml w input output o s₁ deeds r)
      (written : outcome.isWritten = r.toBool) : Goes o s deeds outcome

theorem exists_records_ended (e : Thrown) (s : σ) :
    ∃ outcome s', Records (ended w.watched output (.error e)) (ended w output (.error e)) s []
        outcome s' ∧
      (¬Unloggable w e s ∧ outcome = .failed (Log.summary e) ∨
        Unloggable w e s ∧ outcome = .endless) := by
  have hlevel : (Log.recordOf e).level = .debug := by cases e <;> rfl
  rcases hlogs : (w.logs .debug).run s with ⟨logged, s₁⟩
  have hasked : Records (w.watched.logs .debug) (w.logs .debug) s [] logged s₁ :=
    records_unseen rfl hlogs
  unfold ended
  dsimp only
  rw [hlevel]
  by_cases hendless : (logged && (Log.recordOf e).isEndless) = true
  · obtain ⟨hlogged, hrecord⟩ := Bool.and_eq_true_iff.mp hendless
    refine ⟨.endless, s₁, hasked.bind ?_, .inr ⟨⟨?_, hrecord⟩, rfl⟩⟩
    · rw [if_pos hendless, if_pos hendless]
      exact records_pure _ _
    · rw [hlogs]
      exact hlogged
  · have hlog := records_carry (w.log (Log.recordOf e)) s₁
    refine ⟨.failed (Log.summary e), ((w.log (Log.recordOf e)).run s₁).2, hasked.bind ?_,
      .inl ⟨?_, rfl⟩⟩
    · rw [if_neg hendless, if_neg hendless]
      exact hlog.bind (records_pure _ _)
    · rintro ⟨hlogged, hrecord⟩
      rw [hlogs] at hlogged
      exact hendless (Bool.and_eq_true_iff.mpr ⟨hlogged, hrecord⟩)

theorem Performs.isError {o : CommandOptions} {s : σ} {deeds : List Deed} {e : Thrown}
    (h : Performs yaml w input output o s deeds (.error e)) : e.IsError := by
  cases h with
  | unloaded load => exact raises_load w input yaml o s e (congrArg Prod.fst load)
  | loaded load concludes =>
    cases concludes with
    | failed error attempts => exact error

theorem exists_run (o : CommandOptions) (s : σ) :
    ∃ outcome deeds s', Ends yaml w tell input output o s outcome ∧
      Goes yaml w input output o s deeds outcome ∧
      Records (run yaml w.watched (watchedPort tell) input output o)
        (run yaml w tell input output o) s deeds outcome s' := by
  rw [run_eq, run_eq]
  rcases hfound : (w.exists? input).run s with ⟨_ | _, s₁⟩
  · have hfirst := records_unseen ((unseen σ).carry_exists? w input) hfound
    have hfails (s' : σ) : ¬Passes w input s s' := by
      rintro ⟨s₂, hthere, -⟩
      rw [hfound] at hthere
      cases hthere
    exact ⟨_, _, _, .missing hfound, .unchecked _ hfails, hfirst.bind (records_pure _ s₁)⟩
  have hfirst := records_unseen ((unseen σ).carry_exists? w input) hfound
  rcases hregular : (w.isRegularFile input).run s₁ with ⟨_ | _, s₂⟩
  · have hsecond := records_unseen ((unseen σ).carry_isRegularFile w input) hregular
    have hfails (s' : σ) : ¬Passes w input s s' := by
      rintro ⟨s₂, hthere, hfile⟩
      rw [hfound] at hthere
      cases hthere
      rw [hregular] at hfile
      cases hfile
    exact ⟨_, _, _, .irregular hfound hregular, .unchecked _ hfails,
      hfirst.bind (hsecond.bind (records_pure _ s₂))⟩
  have hsecond := records_unseen ((unseen σ).carry_isRegularFile w input) hregular
  have hpasses : Passes w input s s₂ := ⟨s₁, hfound, hregular⟩
  obtain ⟨deeds, r, s₃, hperforms, hperform⟩ := exists_performs yaml w tell input output o s₂
  have hwhole {outcome : Outcome} {s₄ : σ}
      (hended : Records (ended w.watched output r) (ended w output r) s₃ [] outcome s₄) :
      Records (run yaml w.watched (watchedPort tell) input output o)
        (run yaml w tell input output o) s deeds outcome s₄ := by
    have hrest := hperform.bind hended
    rw [List.append_nil] at hrest
    exact hfirst.bind (hsecond.bind hrest)
  cases r with
  | ok warnings =>
    exact ⟨_, _, _, .written hpasses hperform.plain, .performed hpasses hperforms rfl,
      hwhole (records_pure _ s₃)⟩
  | error e =>
    have hbreaks : Breaks yaml w tell input output o s e s₃ := ⟨s₂, hpasses, hperform.plain⟩
    obtain ⟨outcome, s₄, hended, ⟨hlog, rfl⟩ | ⟨hlog, rfl⟩⟩ := exists_records_ended w output e s₃
    · obtain ⟨a, ha⟩ := hperforms.isError
      rw [Thrown.summary_of_account ha] at hended
      exact ⟨_, _, _, .failed hbreaks hlog ha, .performed hpasses hperforms rfl, hwhole hended⟩
    · exact ⟨_, _, _, .endless hbreaks hlog, .performed hpasses hperforms rfl, hwhole hended⟩

/-! ### What deeds show -/

/-- The only file that is stored is the output, and it has been stored exactly if `done`. -/
structure Delivers (deeds : List Deed) (done : Bool) : Prop where
  stored_iff : done = true ↔ ∃ content, .stored output content (.ok ()) ∈ deeds
  only : ∀ {path content answer}, .stored path content answer ∈ deeds → path = output

variable {yaml w tell input output}

section deeds

variable {deeds : List Deed} {l : LoadedConfig} {done : Bool}

theorem Delivers.between (h : Delivers output deeds done) (before after : List Message) :
    Delivers output (before.map .told ++ (deeds ++ after.map .told)) done := by
  have hmem {path : String} {content : Text.Bytes} {answer : Except Thrown Unit} :
      .stored path content answer ∈ before.map .told ++ (deeds ++ after.map .told) ↔
        .stored path content answer ∈ deeds := by
    simp
  constructor
  · simp only [hmem]
    exact h.stored_iff
  · intro path content answer hstored
    exact h.only (hmem.mp hstored)

theorem delivers_nil : Delivers output [] false := by
  constructor
  · simp
  · intro path content answer h
    cases h

theorem delivers_stored (content : Text.Bytes) (answer : Except Thrown Unit) :
    Delivers output [.stored output content answer] answer.toBool := by
  constructor
  · cases answer <;> simp [Except.toBool]
  · intro path content' answer' h
    cases List.mem_singleton.mp h
    rfl

theorem Attempts.delivers {r : Except Thrown Unit} (h : Attempts output deeds r) :
    Delivers output deeds r.toBool := by
  cases h with
  | fruitless e => exact delivers_nil
  | refused content t e => exact delivers_stored content (.error t)
  | stored content => exact delivers_stored content (.ok ())

theorem Attempts.messages_eq {r : Except Thrown Unit} (h : Attempts output deeds r) :
    messages deeds = [] := by
  cases h <;> rfl

variable {r : Except Thrown (List String)}

theorem Concludes.delivers (h : Concludes input output l deeds r) (before : List Message) :
    Delivers output (before.map .told ++ deeds) r.toBool := by
  cases h with
  | failed error attempts =>
    have hall := attempts.delivers.between before []
    rwa [List.map_nil, List.append_nil] at hall
  | written attempts => exact attempts.delivers.between before _

theorem Concludes.messages_eq (h : Concludes input output l deeds r) :
    messages deeds = if r.toBool then l.closing input output else [] := by
  cases h with
  | failed error attempts => exact attempts.messages_eq
  | written attempts =>
    rw [messages_append, attempts.messages_eq, messages_map_told]
    rfl

end deeds

/-! ### Runs are determined -/

section determined

variable {o : CommandOptions} {s s₁ s₂ : σ} {e e' : Thrown}

theorem Passes.unique (h : Passes w input s s₁) (h' : Passes w input s s₂) : s₁ = s₂ := by
  obtain ⟨t, hthere, hfile⟩ := h
  obtain ⟨t', hthere', hfile'⟩ := h'
  rw [hthere] at hthere'
  cases hthere'
  rw [hfile] at hfile'
  cases hfile'
  rfl

theorem Loads.unique {l l' : LoadedConfig} (h : Loads yaml w input o s l)
    (h' : Loads yaml w input o s l') : l = l' := by
  obtain ⟨t, _, hpasses, hload⟩ := h
  obtain ⟨t', _, hpasses', hload'⟩ := h'
  obtain rfl := hpasses.unique hpasses'
  rw [hload] at hload'
  cases hload'
  rfl

theorem Breaks.unique (h : Breaks yaml w tell input output o s e s₁)
    (h' : Breaks yaml w tell input output o s e' s₂) : e = e' ∧ s₁ = s₂ := by
  obtain ⟨t, hpasses, hperform⟩ := h
  obtain ⟨t', hpasses', hperform'⟩ := h'
  obtain rfl := hpasses.unique hpasses'
  rw [hperform] at hperform'
  cases hperform'
  exact ⟨rfl, rfl⟩

theorem Ends.eq_endless_iff {outcome : Outcome} (h : Ends yaml w tell input output o s outcome) :
    outcome = .endless ↔ ∃ e s₁, Breaks yaml w tell input output o s e s₁ ∧ Unloggable w e s₁ := by
  constructor
  · rintro rfl
    cases h with
    | endless breaks unloggable => exact ⟨_, _, breaks, unloggable⟩
  · rintro ⟨e, s₁, hbreaks, hunloggable⟩
    have ⟨t, hpasses, hperform⟩ := hbreaks
    obtain ⟨t', hthere, hfile⟩ := hpasses
    cases h with
    | missing gone =>
      rw [hthere] at gone
      cases gone
    | irregular found irregular =>
      rw [hthere] at found
      cases found
      rw [hfile] at irregular
      cases irregular
    | written passes performed =>
      obtain rfl := passes.unique ⟨t', hthere, hfile⟩
      rw [hperform] at performed
      cases performed
    | failed breaks loggable account =>
      obtain ⟨rfl, rfl⟩ := breaks.unique hbreaks
      exact absurd hunloggable loggable
    | endless breaks unloggable => rfl

end determined

variable (yaml w tell input output) in
/-- What is known of a run that ends with an outcome after deeds. -/
structure Reports (o : CommandOptions) (s : σ) (deeds : List Deed) (outcome : Outcome) : Prop where
  ends : Ends yaml w tell input output o s outcome
  endless_iff : outcome = .endless ↔
    ∃ e s₁, Breaks yaml w tell input output o s e s₁ ∧ Unloggable w e s₁
  delivers : Delivers output deeds outcome.isWritten
  silent : (∀ l, ¬Loads yaml w input o s l) → messages deeds = []
  told : ∀ l, Loads yaml w input o s l → messages deeds =
    l.announcements ++ if outcome.isWritten then l.closing input output else []
  stems : ∀ l, Loads yaml w input o s l → ∃ s₁, Passes w input s s₁ ∧ l.Stems yaml w input o s₁
  calm : ∀ message ∈ messages deeds, message.tone ≠ .error

theorem Goes.reports {o : CommandOptions} {s : σ} {deeds : List Deed} {outcome : Outcome}
    (hends : Ends yaml w tell input output o s outcome)
    (h : Goes yaml w input output o s deeds outcome) :
    Reports yaml w tell input output o s deeds outcome := by
  have hstems (l : LoadedConfig) (hl : Loads yaml w input o s l) :
      ∃ s₁, Passes w input s s₁ ∧ l.Stems yaml w input o s₁ := by
    obtain ⟨s₁, s₂, hpasses, hload⟩ := hl
    exact ⟨s₁, hpasses, LoadedConfig.stems_of_load hload⟩
  cases h with
  | unchecked text fails =>
    have hnone (l : LoadedConfig) : ¬Loads yaml w input o s l :=
      fun ⟨s₁, _, hpasses, _⟩ => fails s₁ hpasses
    exact ⟨hends, hends.eq_endless_iff, delivers_nil, fun _ => rfl,
      fun l hl => absurd hl (hnone l), hstems, by simp [messages]⟩
  | performed passes performs written =>
    cases performs with
    | unloaded load =>
      have hnone (l : LoadedConfig) : ¬Loads yaml w input o s l := by
        rintro ⟨s₁, s₂, hpasses, hload⟩
        obtain rfl := passes.unique hpasses
        rw [load] at hload
        cases hload
      refine ⟨hends, hends.eq_endless_iff, ?_, fun _ => rfl, fun l hl => absurd hl (hnone l),
        hstems, by simp [messages]⟩
      rw [written]
      exact delivers_nil
    | @loaded l s₁ deeds r load concludes =>
      have hl : Loads yaml w input o s l := ⟨_, s₁, passes, load⟩
      have htold : messages (l.announcements.map .told ++ deeds) =
          l.announcements ++ if outcome.isWritten then l.closing input output else [] := by
        rw [messages_append, messages_map_told, concludes.messages_eq, written]
      refine ⟨hends, hends.eq_endless_iff, ?_, fun hnone => absurd hl (hnone l), fun l' hl' => ?_,
        hstems, ?_⟩
      · rw [written]
        exact concludes.delivers l.announcements
      · rw [htold, hl.unique hl']
      · rw [htold]
        intro message hmessage
        rcases List.mem_append.mp hmessage with hbefore | hafter
        · exact l.tone_of_announcements hbefore
        · split at hafter
          · exact l.tone_of_closing hafter
          · cases hafter

theorem exists_records_dispatch
    {parse : List String → Except CommandLine.Ending CommandLine.Request} {args : List String}
    {q : CommandLine.Request} (hparse : parse args = .ok q) {s s₁ : σ} {deeds : List Deed} {outcome : Outcome}
    (hrun : Records (run yaml w.watched (watchedPort tell) q.input q.output q.options)
      (run yaml w tell q.input q.output q.options) s deeds outcome s₁) :
    ∃ ending s', Records (dispatch yaml parse w.watched (watchedPort tell) args)
        (dispatch yaml parse w tell args) s (deeds ++ outcome.errors.map .told) ending s' ∧
      ending.out = "" ∧ ending.exit = outcome.exit := by
  unfold dispatch
  rw [hparse]
  cases outcome with
  | written path warnings => exact ⟨_, _, hrun.bind (records_pure _ s₁), rfl, rfl⟩
  | failed error =>
    have htold := records_told tell ⟨.error, error⟩ s₁
    exact ⟨_, _, hrun.bind (htold.bind (records_pure _ _)), rfl, rfl⟩
  | endless =>
    have hlog := records_carry (w.log (Log.recordOf Log.endlessError)) s₁
    exact ⟨_, _, hrun.bind (hlog.bind (records_pure _ _)), rfl, rfl⟩

end courses

/-- What a command reports is what happened. It ends as written exactly if its output was stored,
which is the only file that is; before that it has told of the project file and of its unknown keys,
and afterwards of the output, and nothing if no settings were loaded. A failure is told in the words
of the check that failed or with the account of the error, once, by the program, which exits with 0
after a success only. There is no outcome at all exactly if the trace of the error is to be logged
and contains itself. -/
theorem run_reports (yaml : YamlReader)
    (parse : List String → Except CommandLine.Ending CommandLine.Request)
    (w : Workspace (StateM σ)) (tell : Message → StateM σ Unit) (s : σ) :
    (∀ input output o, ∃ outcome deeds s',
      (run yaml w tell input output o).run s = (outcome, s') ∧
      ((run yaml w.watched (watchedPort tell) input output o).run []).run s =
        ((outcome, deeds), s') ∧
      Reports yaml w tell input output o s deeds outcome) ∧
    ∀ args q, parse args = .ok q → ∃ outcome deeds ending s₁ s',
      (run yaml w tell q.input q.output q.options).run s = (outcome, s₁) ∧
      ((run yaml w.watched (watchedPort tell) q.input q.output q.options).run []).run s =
        ((outcome, deeds), s₁) ∧
      Reports yaml w tell q.input q.output q.options s deeds outcome ∧
      (dispatch yaml parse w tell args).run s = (ending, s') ∧
      ((dispatch yaml parse w.watched (watchedPort tell) args).run []).run s =
        ((ending, deeds ++ outcome.errors.map .told), s') ∧
      ending.out = "" ∧ ending.exit = outcome.exit := by
  constructor
  · intro input output o
    obtain ⟨outcome, deeds, s', hends, hgoes, hrun⟩ := exists_run yaml w tell input output o s
    exact ⟨outcome, deeds, s', hrun.plain, hrun.writes [], hgoes.reports hends⟩
  · intro args q hparse
    obtain ⟨outcome, deeds, s₁, hends, hgoes, hrun⟩ :=
      exists_run yaml w tell q.input q.output q.options s
    obtain ⟨ending, s', hdispatch, hout, hexit⟩ := exists_records_dispatch hparse hrun
    exact ⟨outcome, deeds, ending, s₁, s', hrun.plain, hrun.writes [], hgoes.reports hends,
      hdispatch.plain, hdispatch.writes [], hout, hexit⟩

open Machine (workspace record)

/-- A file `in` in `/w` with a project file that asks for marks and has an unknown key. -/
def colourful : Machine :=
  { tree := ⟨[(["w"], .directory), (["w", "in"], .file (Text.encodeUtf8 "x")),
      (["w", ".shpp.yml"], .file (Text.encodeUtf8 "debug: true\ncolour: red"))]⟩ }

theorem colourful_run_reports :
    CommandLine.command ["in", "out"] = .ok ⟨"in", "out", {}⟩ ∧
    ∃ deeds ending s',
      Reports Yaml.load (workspace ["w"]) record "in" "out" {} colourful deeds
        (.written "/w/out" ["Unknown key 'colour' in /w/.shpp.yml ignored"]) ∧
      (dispatch Yaml.load CommandLine.command (workspace ["w"]) record ["in", "out"]).run colourful =
        (ending, s') ∧
      ending.exit = 0 ∧
      messages deeds = [⟨.info, "Using config file /w/.shpp.yml"⟩,
        ⟨.warn, "Unknown key 'colour' in /w/.shpp.yml ignored"⟩,
        ⟨.success, "Processed in -> out"⟩] := by
  have hparse : CommandLine.command ["in", "out"] = .ok ⟨"in", "out", {}⟩ := by rfl
  have hwritten : ((run Yaml.load (workspace ["w"]) record "in" "out" {}).run colourful).1 =
      .written "/w/out" ["Unknown key 'colour' in /w/.shpp.yml ignored"] := by
    decide +kernel
  have hmessages : messages (((run Yaml.load (workspace ["w"]).watched (watchedPort record) "in"
      "out" {}).run []).run colourful).1.2 = [⟨.info, "Using config file /w/.shpp.yml"⟩,
        ⟨.warn, "Unknown key 'colour' in /w/.shpp.yml ignored"⟩,
        ⟨.success, "Processed in -> out"⟩] := by
    decide +kernel
  obtain ⟨-, hall⟩ := run_reports Yaml.load CommandLine.command (workspace ["w"]) record colourful
  obtain ⟨outcome, deeds, ending, s₁, s', hrun, hwatched, hreports, hdispatch, -, -, hexit⟩ :=
    hall ["in", "out"] _ hparse
  dsimp only at hrun hwatched
  rw [hrun] at hwritten
  rw [hwatched] at hmessages
  obtain rfl : outcome = .written "/w/out" ["Unknown key 'colour' in /w/.shpp.yml ignored"] :=
    hwritten
  exact ⟨hparse, deeds, ending, s', hreports, hdispatch, hexit, hmessages⟩

/-- A file `in` in `/w` with a project file in which a list contains itself, on a machine that logs
everything. -/
def circling : Machine :=
  { threshold := some .debug
    tree := ⟨[(["w"], .directory), (["w", "in"], .file (Text.encodeUtf8 "x")),
      (["w", ".shpp.yml"], .file (Text.encodeUtf8 "debug: &a [*a]"))]⟩ }

/-- What is wrong with the project file is not told, since the trace of it contains itself. -/
theorem circling_run_is_endless :
    ((run Yaml.load (workspace ["w"]) record "in" "out" {}).run circling).1 = .endless ∧
    ((run Yaml.load (workspace ["w"]) record "in" "out" {}).run
      { circling with threshold := none }).1 =
        .failed "Error: /w/.shpp.yml: 'debug' must be a boolean" := by
  constructor <;> decide +kernel

end Command
end Inliner
