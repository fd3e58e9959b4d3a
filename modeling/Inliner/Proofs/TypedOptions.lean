import Inliner.Preprocessor
import Inliner.Proofs.Names
import Inliner.Settings.Load

/-! Settings of the kinds that callers are asked for. They are valid exactly if the limit is a
positive integer and the base directory is not empty, where they are given. -/
namespace Inliner

/-- Settings each of which has its kind or is left open. -/
structure TypedOptions where
  debug : Option Bool := none
  maxIncludeDepth : Option Number := none
  baseDirectory : Option String := none
  deriving Repr, DecidableEq

namespace TypedOptions

def toOptions (t : TypedOptions) : Options where
  debug := t.debug.elim .absent .bool
  maxIncludeDepth := t.maxIncludeDepth.elim .absent .number
  baseDirectory := t.baseDirectory.elim .absent .text

def toBuilder (t : TypedOptions) : Builder :=
  let b : Builder := t.debug.elim {} fun enabled => Builder.debugMode {} (.bool enabled)
  let b := t.maxIncludeDepth.elim b fun depth => b.maxIncludeDepth (.number depth)
  t.baseDirectory.elim b fun path => b.baseDirectory (.text path)

theorem build_toBuilder (t : TypedOptions) : t.toBuilder.build = t.toOptions := by
  obtain ⟨debug, maxIncludeDepth, baseDirectory⟩ := t
  cases debug <;> cases maxIncludeDepth <;> cases baseDirectory <;> rfl

def toCommandOptions (t : TypedOptions) : CommandOptions where
  debug := t.debug.elim .absent .bool
  maxDepth := t.maxIncludeDepth.elim .absent .number
  baseDir := t.baseDirectory.elim .absent .text

def depth (t : TypedOptions) : Number := t.maxIncludeDepth.getD (.count Config.defaultDepth)

/-- A run can be made with the settings. -/
structure Valid (t : TypedOptions) : Prop where
  depth : t.depth.isPositiveInteger = true
  base : t.baseDirectory ≠ some ""

def config (t : TypedOptions) (cwd : Names) (input : String) : Config where
  debug := .bool (t.debug.getD Config.defaultDebug)
  maxIncludeDepth := t.depth
  baseDirectory := Path.resolve cwd
    (t.baseDirectory.getD (Path.render (Config.directoryOf cwd input)))

variable (t : TypedOptions) (cwd : Names) (input : String)

theorem depth_toOptions :
    t.toOptions.maxIncludeDepth.orElse (.number (.count Config.defaultDepth)) =
      .number t.depth := by
  obtain ⟨debug, maxIncludeDepth, baseDirectory⟩ := t
  cases maxIncludeDepth <;> rfl

theorem debug_toOptions :
    t.toOptions.debug.orElse (.bool Config.defaultDebug) =
      .bool (t.debug.getD Config.defaultDebug) := by
  obtain ⟨debug, maxIncludeDepth, baseDirectory⟩ := t
  cases debug <;> rfl

theorem base_toOptions (default : String) :
    t.toOptions.baseDirectory.orElse (.text default) = .text (t.baseDirectory.getD default) := by
  obtain ⟨debug, maxIncludeDepth, baseDirectory⟩ := t
  cases baseDirectory <;> rfl

theorem depthOf_toOptions :
    Config.depthOf t.toOptions.maxIncludeDepth =
      if t.depth.isPositiveInteger then .ok t.depth
      else Config.complain (.depth (.number t.depth)) := by
  rw [Config.depthOf, depth_toOptions]
  dsimp only [Config.positiveInteger?]
  cases t.depth.isPositiveInteger <;> rfl

theorem base_getD_eq_empty_iff :
    t.baseDirectory.getD (Path.render (Config.directoryOf cwd input)) = "" ↔
      t.baseDirectory = some "" := by
  cases t.baseDirectory with
  | none => simp [Path.render_ne_empty]
  | some base => simp

theorem forInput_eq :
    Config.forInput cwd t.toOptions input =
      if !t.depth.isPositiveInteger then Config.complain (.depth (.number t.depth))
      else if t.baseDirectory = some "" then Config.complain .emptyBase
      else .ok (t.config cwd input) := by
  rw [Config.forInput, Config.ofOptions]
  dsimp only
  rw [depthOf_toOptions, base_toOptions, debug_toOptions]
  cases t.depth.isPositiveInteger with
  | false => rfl
  | true =>
    by_cases hbase : t.baseDirectory = some ""
    · rw [(base_getD_eq_empty_iff t cwd input).mpr hbase, if_pos hbase]
      rfl
    · rw [if_neg hbase]
      have hne := mt (base_getD_eq_empty_iff t cwd input).mp hbase
      simp [Value.isTruthy, hne, bind, Except.bind, Config.pathOf, config, pure, Except.pure]

variable {t}

theorem forInput_of_valid (h : t.Valid) :
    Config.forInput cwd t.toOptions input = .ok (t.config cwd input) := by
  rw [forInput_eq, h.depth, if_neg h.base]
  rfl

theorem forInput_of_depth (h : t.depth.isPositiveInteger = false) :
    Config.forInput cwd t.toOptions input = Config.complain (.depth (.number t.depth)) := by
  rw [forInput_eq, h]
  rfl

theorem forInput_of_base (hdepth : t.depth.isPositiveInteger = true)
    (hbase : t.baseDirectory = some "") :
    Config.forInput cwd t.toOptions input = Config.complain .emptyBase := by
  rw [forInput_eq, hdepth, if_pos hbase]
  rfl

theorem forInput_of_not_valid (h : ¬t.Valid) :
    ∃ complaint, Config.forInput cwd t.toOptions input = Config.complain complaint := by
  cases hdepth : t.depth.isPositiveInteger with
  | false => exact ⟨_, forInput_of_depth cwd input hdepth⟩
  | true =>
    have hbase : t.baseDirectory = some "" := by
      by_contra hbase
      exact h ⟨hdepth, hbase⟩
    exact ⟨_, forInput_of_base cwd input hdepth hbase⟩

end TypedOptions
end Inliner
