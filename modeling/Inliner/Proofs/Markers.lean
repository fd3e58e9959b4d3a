import Inliner.Proofs.Idempotence
import Inliner.Proofs.Termination

/-! Debug mode only adds marker lines: a run goes the same course without them. Where no source line
looks like a marker, they can be taken out again and are nested as the blocks are. -/
namespace Inliner

/-- The two kinds of marker lines. -/
inductive Marker where
  | opening (rawPath : String)
  | closing (rawPath : String)
  deriving DecidableEq, Repr

namespace Marker

def line : Marker → String
  | opening rawPath => Directive.beginMarker rawPath
  | closing rawPath => Directive.endMarker rawPath

/-- What stands between `before` and `after` on a line that has both. -/
def between? (before after line : String) : Option String :=
  let middle := String.ofList
    ((line.toList.drop before.length).take (line.length - before.length - after.length))
  if line = before ++ middle ++ after then some middle else none

def read? (line : String) : Option Marker :=
  match between? "# --- Included from " " ---" line with
  | some rawPath => some (.opening rawPath)
  | none => (between? "# --- End of " " ---" line).map .closing

theorem between?_eq_some_iff {before after line middle : String} :
    between? before after line = some middle ↔ line = before ++ middle ++ after := by
  constructor
  · intro h
    unfold between? at h
    dsimp only at h
    split at h
    · cases h
      assumption
    · cases h
  · rintro rfl
    have hrest : (before ++ middle ++ after).toList.drop before.length =
        middle.toList ++ after.toList := by
      rw [String.toList_append, String.toList_append, List.append_assoc, ← String.length_toList,
        List.drop_left]
    have hlength : (before ++ middle ++ after).length - before.length - after.length =
        middle.toList.length := by
      rw [String.length_append, String.length_append, String.length_toList]
      omega
    rw [between?, hrest, hlength, List.take_left, String.ofList_toList, if_pos rfl]

theorem between?_endMarker (rawPath : String) :
    between? "# --- Included from " " ---" (Directive.endMarker rawPath) = none := by
  rw [Option.eq_none_iff_forall_ne_some]
  intro middle hmiddle
  have hline := between?_eq_some_iff.mp hmiddle
  have hsixth := congrArg (·.toList[6]?) hline
  simp [Directive.endMarker] at hsixth

theorem read?_eq_some_iff {line : String} {k : Marker} : read? line = some k ↔ line = k.line := by
  constructor
  · intro h
    unfold read? at h
    split at h
    · rename_i rawPath hpath
      cases h
      exact between?_eq_some_iff.mp hpath
    · obtain ⟨rawPath, hpath, rfl⟩ := Option.map_eq_some_iff.mp h
      exact between?_eq_some_iff.mp hpath
  · rintro rfl
    cases k with
    | opening rawPath =>
      have hpath : between? "# --- Included from " " ---" (opening rawPath).line = some rawPath :=
        between?_eq_some_iff.mpr rfl
      rw [read?, hpath]
    | closing rawPath =>
      have hpath : between? "# --- End of " " ---" (closing rawPath).line = some rawPath :=
        between?_eq_some_iff.mpr rfl
      rw [read?, hpath, line, between?_endMarker]
      rfl

theorem read?_beginMarker (rawPath : String) :
    read? (Directive.beginMarker rawPath) = some (.opening rawPath) := read?_eq_some_iff.mpr rfl

theorem read?_endMarker (rawPath : String) :
    read? (Directive.endMarker rawPath) = some (.closing rawPath) := read?_eq_some_iff.mpr rfl

/-- Blocks one after the other and inside one another, each of them closed under the path under
which it was opened. -/
inductive Nested : List Marker → Prop
  | nil : Nested []
  | block {rawPath : String} {inside rest : List Marker} (within : Nested inside)
      (after : Nested rest) : Nested (opening rawPath :: inside ++ closing rawPath :: rest)

end Marker

namespace IncludeTree

open Marker

/-- The files that the directives of a tree stand for, in the order in which they are expanded. -/
def targets : IncludeTree → List String
  | done => []
  | line _ rest => rest.targets
  | block _ target inside rest => target :: inside.targets ++ rest.targets

@[simp] theorem flatten_marked (rawPath target : String) (inside rest : IncludeTree) :
    (block rawPath target inside rest).flatten true =
      Directive.beginMarker rawPath :: inside.flatten true ++
        Directive.endMarker rawPath :: rest.flatten true := by
  simp [flatten]

@[simp] theorem flatten_bare (rawPath target : String) (inside rest : IncludeTree) :
    (block rawPath target inside rest).flatten false =
      inside.flatten false ++ rest.flatten false := by
  simp [flatten]

theorem flatten_sublist (tree : IncludeTree) :
    (tree.flatten false).Sublist (tree.flatten true) := by
  induction tree with
  | done => exact .slnil
  | line text rest ih => exact ih.cons_cons text
  | block rawPath target inside rest ihi ihr =>
    rw [flatten_bare, flatten_marked]
    exact (ihi.cons _).append (ihr.cons _)

theorem length_flatten (tree : IncludeTree) :
    (tree.flatten true).length = (tree.flatten false).length + 2 * tree.targets.length := by
  induction tree with
  | done => rfl
  | line text rest ih =>
    simp only [flatten, targets, List.length_cons, ih]
    omega
  | block rawPath target inside rest ihi ihr =>
    simp only [flatten_bare, flatten_marked, targets, List.length_append, List.length_cons, ihi,
      ihr]
    omega

section unmarked

variable {tree : IncludeTree} (h : ∀ line ∈ tree.flatten false, read? line = none)
include h

theorem filter_flatten :
    (tree.flatten true).filter (fun line => (read? line).isNone) = tree.flatten false := by
  induction tree with
  | done => rfl
  | line text rest ih =>
    obtain ⟨htext, hrest⟩ := List.forall_mem_cons.mp h
    simp [flatten, htext, ih hrest]
  | block rawPath target inside rest ihi ihr =>
    rw [flatten_bare] at h
    obtain ⟨hinside, hrest⟩ := List.forall_mem_append.mp h
    simp [read?_beginMarker, read?_endMarker, ihi hinside, ihr hrest]

theorem nested_flatten : Nested ((tree.flatten true).filterMap read?) := by
  induction tree with
  | done => exact .nil
  | line text rest ih =>
    obtain ⟨htext, hrest⟩ := List.forall_mem_cons.mp h
    rw [flatten, List.filterMap_cons_none htext]
    exact ih hrest
  | block rawPath target inside rest ihi ihr =>
    rw [flatten_bare] at h
    obtain ⟨hinside, hrest⟩ := List.forall_mem_append.mp h
    have hmarkers : ((block rawPath target inside rest).flatten true).filterMap read? =
        opening rawPath :: (inside.flatten true).filterMap read? ++
          closing rawPath :: (rest.flatten true).filterMap read? := by
      simp [read?_beginMarker, read?_endMarker]
    rw [hmarkers]
    exact .block (ihi hinside) (ihr hrest)

end unmarked

variable {v : Host Id} {r : Resolver} {path : String}

theorem Grows.source {number : Nat} {lines : List String} {tree : IncludeTree}
    (h : Grows v r path number lines tree) {line : String} (hline : line ∈ tree.flatten false) :
    line ∈ lines ∨ ∃ file ∈ tree.targets, ∃ text, v.textOf file = .ok text ∧
      line ∈ Text.splitLines text := by
  induction h with
  | done => cases hline
  | @line path number text lines rest plain below ih =>
    rcases List.mem_cons.mp hline with rfl | hline
    · exact .inl (by simp)
    · exact (ih hline).imp_left (List.mem_cons_of_mem text)
  | @block path target content text number lines d inside rest asks resolves reads within below
      ihw ihb =>
    rw [flatten_bare] at hline
    rcases List.mem_append.mp hline with hline | hline
    · rcases ihw hline with hhere | ⟨file, hfile, hbelow⟩
      · exact .inr ⟨target, by simp [targets], content, reads, hhere⟩
      · exact .inr ⟨file, by simp [targets, hfile], hbelow⟩
    · rcases ihb hline with hhere | ⟨file, hfile, hbelow⟩
      · exact .inl (List.mem_cons_of_mem text hhere)
      · exact .inr ⟨file, by simp [targets, hfile], hbelow⟩

theorem IsTreeOf.source {tree : IncludeTree} (h : IsTreeOf v r tree path) {line : String}
    (hline : line ∈ tree.flatten false) :
    ∃ file ∈ path :: tree.targets, ∃ text, v.textOf file = .ok text ∧
      line ∈ Text.splitLines text := by
  obtain ⟨text, htext, hgrows⟩ := h
  rcases hgrows.source hline with hhere | ⟨file, hfile, hbelow⟩
  · exact ⟨path, by simp, text, htext, hhere⟩
  · exact ⟨file, List.mem_cons_of_mem path hfile, hbelow⟩

end IncludeTree

namespace Expansion

open IncludeTree

variable {v : Host Id} {r : Resolver} {debug : Bool} {l : Ledger} {task : Task}
  {visits : List Visit}

/-- The tree of what there is to expand. -/
def Task.HasTree (v : Host Id) (r : Resolver) : Task → IncludeTree → Prop
  | .file path, tree => IsTreeOf v r tree path
  | .lines path number rest, tree => Grows v r path number rest tree

/-- The files that are read where a task with the given tree is done. -/
def Task.reads : Task → IncludeTree → List String
  | .file path, tree => path :: tree.targets
  | .lines .., tree => tree.targets

/-- A course that comes to lines goes through the tree of its task, file by file. -/
theorem Course.exists_tree {out : List String} (hc : Course v r debug l task (.ok out) visits) :
    ∃ tree, task.HasTree v r tree ∧ out = tree.flatten debug ∧
      visits.map Visit.path = task.reads tree := by
  generalize hout : Except.ok out = ended at hc
  induction hc generalizing out with
  | unreadable | malformed | unresolved | refused | failed => cases hout
  | readable read below ih =>
    obtain ⟨tree, htree, hflat, hvisits⟩ := ih (mapError_eq_ok_iff.mp hout.symm).symm
    exact ⟨tree, ⟨_, read, htree⟩, hflat, by rw [List.map_cons, hvisits]; rfl⟩
  | done =>
    cases hout
    exact ⟨.done, .done, rfl, rfl⟩
  | @plain l path line number rest out' visits parse below ih =>
    obtain ⟨more, hmore, rfl⟩ := map_eq_ok_iff.mp hout.symm
    obtain ⟨tree, htree, rfl, hvisits⟩ := ih hmore.symm
    exact ⟨.line line tree, .line parse htree, rfl, hvisits⟩
  | @inlined l l' path line target number rest d lines out' visits more parse resolve enter inside
      below ihi ihb =>
    obtain ⟨after, hafter, rfl⟩ := map_eq_ok_iff.mp hout.symm
    obtain ⟨within, ⟨text, read, hwithin⟩, rfl, hvisits⟩ := ihi rfl
    obtain ⟨tree, htree, rfl, hmore⟩ := ihb hafter.symm
    refine ⟨.block d.rawPath target within tree, .block parse resolve read hwithin htree, ?_, ?_⟩
    · rw [flatten, Expansion.block]
      rfl
    · rw [List.map_append, hvisits, hmore]
      rfl

/-- Whether there are markers makes no difference to the course of an expansion, the files that it
visits and the way in which it fails. -/
theorem Course.exists_withDebug {out : Except Thrown (List String)}
    (hc : Course v r debug l task out visits) (debug' : Bool) :
    ∃ out', Course v r debug' l task out' visits ∧ ∀ e, out' = .error e ↔ out = .error e := by
  induction hc with
  | unreadable read => exact ⟨_, .unreadable read, fun e => Iff.rfl⟩
  | readable read below ih =>
    obtain ⟨out', hbelow, hsame⟩ := ih
    exact ⟨_, .readable read hbelow, fun e => by simp only [mapError_eq_error_iff, hsame]⟩
  | done => exact ⟨_, .done, fun e => Iff.rfl⟩
  | plain parse below ih =>
    obtain ⟨out', hbelow, hsame⟩ := ih
    exact ⟨_, .plain parse hbelow, fun e => by simp only [map_eq_error_iff, hsame]⟩
  | malformed parse => exact ⟨_, .malformed parse, fun e => Iff.rfl⟩
  | unresolved parse resolve => exact ⟨_, .unresolved parse resolve, fun e => Iff.rfl⟩
  | refused parse resolve enter => exact ⟨_, .refused parse resolve enter, fun e => Iff.rfl⟩
  | @failed l l' path line target number rest d e visits parse resolve enter inside ih =>
    obtain ⟨inner, hinside, hsame⟩ := ih
    obtain rfl := (hsame e).mpr rfl
    exact ⟨_, .failed parse resolve enter hinside, fun e => Iff.rfl⟩
  | inlined parse resolve enter inside below ihi ihb =>
    obtain ⟨inner, hinside, hnone⟩ := ihi
    obtain ⟨out', hbelow, hsame⟩ := ihb
    cases inner with
    | error e => cases (hnone e).mp rfl
    | ok lines =>
      exact ⟨_, .inlined parse resolve enter hinside hbelow,
        fun e => by simp only [map_eq_error_iff, hsame]⟩

end Expansion

def Options.withDebug (o : Options) (debug : Value) : Options := { o with debug }

def Config.withDebug (c : Config) (debug : Value) : Config :=
  { c with debug := debug.orElse (.bool defaultDebug) }

theorem Config.marks_withDebug (c : Config) (debug : Value) :
    (c.withDebug debug).marks = debug.isTruthy := by
  cases debug <;> rfl

theorem Config.forInput_withDebug (cwd : Names) (o : Options) (input : String)
    (debug debug' : Value) :
    forInput cwd (o.withDebug debug') input =
      (forInput cwd (o.withDebug debug) input).map fun c => c.withDebug debug' := by
  unfold forInput ofOptions Options.withDebug
  dsimp only
  cases depthOf o.maxIncludeDepth with
  | error e => rfl
  | ok n =>
    generalize o.baseDirectory.orElse _ = base
    cases base.isTruthy with
    | false => rfl
    | true => cases pathOf cwd base <;> rfl

theorem Config.marks_of_forInput {cwd : Names} {o : Options} {input : String} {c : Config}
    (h : forInput cwd o input = .ok c) : c.marks = o.debug.isTruthy := by
  have hsame : forInput cwd o input = (forInput cwd o input).map fun c => c.withDebug o.debug :=
    forInput_withDebug cwd o input o.debug o.debug
  rw [h] at hsame
  have hself : c = c.withDebug o.debug := Except.ok.inj hsame
  rw [hself, marks_withDebug]

namespace Preprocessor

open Expansion IncludeTree Marker

section runs

variable {s : Machine} (hs : s.Steady) {cwd : Names} {o : Options} {input : String}
  {c : Config} {file : String} {r : Resolver}
include hs

theorem recorded_of_course (hc : Config.forInput cwd o input = .ok c)
    (hfile : fileOf (s.view cwd) input = .ok file) (hr : resolverOf (s.view cwd) c = .ok r)
    {out : Except Thrown (List String)} {visits : List Visit}
    (hcourse : Course (s.view cwd) r c.marks (opening c file) (.file file) out visits) :
    s.outcome cwd o input = out.map Text.renderLines ∧
      (s.recorded cwd o input).2 = visits.map Visit.path := by
  have htraced := Machine.recording_traced hs cwd
  rw [Machine.outcome_eq hs, outcomeOf_of_course (v := s.view cwd) hc hfile hr hcourse,
    Machine.recorded_of_ends (ends_process htraced hc hfile hr hcourse)]
  exact ⟨rfl, rfl⟩

theorem EndsEarly.withDebug {e : Thrown} {debug : Value}
    (h : EndsEarly (s.view cwd) (o.withDebug debug) input e) (debug' : Value) :
    s.outcome cwd (o.withDebug debug') input = .error e ∧
      (s.recorded cwd (o.withDebug debug') input).2 = [] := by
  have h' : EndsEarly (s.view cwd) (o.withDebug debug') input e :=
    h.of_map (Config.forInput_withDebug (s.view cwd).cwd o input debug debug') fun _ => rfl
  rw [Machine.outcome_eq hs, h'.outcomeOf_eq,
    Machine.recorded_of_ends (h'.ends (Machine.recording_traced hs cwd))]
  exact ⟨rfl, rfl⟩

theorem lines_of_recorded (hc : Config.forInput cwd o input = .ok c)
    (hfile : fileOf (s.view cwd) input = .ok file) (hr : resolverOf (s.view cwd) c = .ok r)
    {tree : IncludeTree} (htree : IsTreeOf (s.view cwd) r tree file) {text : String}
    (h : s.outcome cwd o input = .ok text) :
    Text.splitLines text = tree.flatten c.marks ∧
      Text.renderLines (tree.flatten c.marks) = text := by
  rw [Machine.outcome_eq hs] at h
  obtain ⟨one, hone, rfl⟩ := isTreeOf_of_outcomeOf (v := s.view cwd) hc hfile hr h
  obtain rfl := htree.unique hone
  refine ⟨Text.splitLines_renderLines fun line hline => ?_, rfl⟩
  exact (hone.ordinary c.marks line hline).whole

end runs

/-- Debug mode only adds nested markers. A run with markers fails as the run without them does, with
the same error, or both return a text; and the two read the same files. Of two texts, the one with
markers has all lines of the other in their order and two more for each directive that was
expanded. If no line of a file that was read has the form of a marker, the text without markers is
what is left when all lines of that form are taken out, and these are nested, each end under the
path of the beginning that it belongs to. -/
theorem process_debug_adds_markers {s : Machine} (hs : s.Steady) (cwd : Names) (o : Options)
    (input : String) {on off : Value} (hon : on.isTruthy = true) (hoff : off.isTruthy = false) :
    let marked := s.outcome cwd (o.withDebug on) input
    let bare := s.outcome cwd (o.withDebug off) input
    let reads := (s.recorded cwd (o.withDebug off) input).2
    (∀ e, marked = .error e ↔ bare = .error e) ∧
    ((∃ text, marked = .ok text) ↔ ∃ text, bare = .ok text) ∧
    (s.recorded cwd (o.withDebug on) input).2 = reads ∧
    ∀ text text', bare = .ok text → marked = .ok text' →
      (Text.splitLines text).Sublist (Text.splitLines text') ∧
      (∃ c file r tree, Config.forInput cwd (o.withDebug off) input = .ok c ∧
        fileOf (s.view cwd) input = .ok file ∧ resolverOf (s.view cwd) c = .ok r ∧
        IsTreeOf (s.view cwd) r tree file ∧ reads = file :: tree.targets ∧
        (Text.splitLines text').length =
          (Text.splitLines text).length + 2 * tree.targets.length) ∧
      ((∀ path ∈ reads, ∀ source, (s.view cwd).textOf path = .ok source →
          ∀ line ∈ Text.splitLines source, read? line = none) →
        Text.renderLines ((Text.splitLines text').filter fun line => (read? line).isNone) = text ∧
        Nested ((Text.splitLines text').filterMap read?)) := by
  rcases starts_or_endsEarly (s.view cwd) (o.withDebug off) input with
    ⟨c, file, r, hc, hfile, hr⟩ | ⟨e, he⟩
  · have hc : Config.forInput cwd (o.withDebug off) input = .ok c := hc
    have hc' : Config.forInput cwd (o.withDebug on) input = .ok (c.withDebug on) := by
      rw [Config.forInput_withDebug cwd o input off on, hc]
      rfl
    have hmarks : (c.withDebug on).marks = true := (c.marks_withDebug on).trans hon
    have hbare : c.marks = false := (Config.marks_of_forInput hc).trans hoff
    have hkept := kept_opening (Config.isPositiveInteger_of_forInput hc) file
    obtain ⟨out, visits, hcourse⟩ := @exists_course (s.view cwd) r c.marks _ hkept file
    obtain ⟨out', hcourse', hsame⟩ := hcourse.exists_withDebug (c.withDebug on).marks
    obtain ⟨hbareEnds, hbareReads⟩ := recorded_of_course hs hc hfile hr hcourse
    obtain ⟨hmarkedEnds, hmarkedReads⟩ := recorded_of_course hs hc' hfile hr hcourse'
    have hfails (e : Thrown) : s.outcome cwd (o.withDebug on) input = .error e ↔
        s.outcome cwd (o.withDebug off) input = .error e := by
      rw [hmarkedEnds, hbareEnds, map_eq_error_iff, map_eq_error_iff, hsame]
    dsimp only
    rw [hmarkedReads, hbareReads]
    refine ⟨hfails, exists_ok_iff_of_error_iff hfails, rfl, fun text text' htext htext' => ?_⟩
    rw [hbareEnds] at htext
    obtain ⟨lines, rfl, hlines⟩ := map_eq_ok_iff.mp htext
    obtain ⟨tree, htree, -, hvisits⟩ := hcourse.exists_tree
    have hreads : visits.map Visit.path = file :: tree.targets := hvisits
    obtain ⟨hsplit, hrender⟩ := lines_of_recorded hs hc hfile hr htree (hbareEnds.trans htext)
    obtain ⟨hsplit', -⟩ := lines_of_recorded hs hc' hfile hr htree htext'
    rw [hmarks] at hsplit'
    rw [hbare] at hsplit hrender
    rw [hsplit, hsplit']
    refine ⟨tree.flatten_sublist, ⟨c, file, r, tree, hc, hfile, hr, htree, hreads,
      tree.length_flatten⟩, fun hsources => ?_⟩
    have hcopied (line : String) (hline : line ∈ tree.flatten false) : read? line = none := by
      obtain ⟨path, hpath, source, hsource, hmem⟩ := htree.source hline
      exact hsources path (hreads ▸ hpath) source hsource line hmem
    rw [filter_flatten hcopied]
    exact ⟨hrender, nested_flatten hcopied⟩
  · obtain ⟨hbareEnds, hbareReads⟩ := he.withDebug hs off
    obtain ⟨hmarkedEnds, hmarkedReads⟩ := he.withDebug hs on
    dsimp only
    rw [hbareEnds, hmarkedEnds, hbareReads, hmarkedReads]
    refine ⟨fun _ => Iff.rfl, Iff.rfl, rfl, fun text text' htext => ?_⟩
    cases htext

theorem nested_process_debug_adds_markers :
    let lines := ["# --- Included from b ---", "y", "# --- End of b ---", "x"]
    nested.outcome ["w"] (({} : Options).withDebug (.bool true)) "a" =
      .ok (Text.renderLines lines) ∧
    nested.outcome ["w"] (({} : Options).withDebug (.bool false)) "a" = .ok "y\nx\n" ∧
    (nested.recorded ["w"] (({} : Options).withDebug (.bool false)) "a").2 = ["/w/a", "/w/b"] ∧
    Text.renderLines (lines.filter fun line => (read? line).isNone) = "y\nx\n" ∧
    Nested (lines.filterMap read?) := by
  have hs : nested.Steady := Machine.steady_of_faults_eq_nil rfl
  intro lines
  have hmarked : nested.outcome ["w"] (({} : Options).withDebug (.bool true)) "a" =
      .ok (Text.renderLines lines) := eq_ok_of_toOption (by decide +kernel)
  have hbare : nested.outcome ["w"] (({} : Options).withDebug (.bool false)) "a" =
      .ok "y\nx\n" := eq_ok_of_toOption (by decide +kernel)
  have hreads : (nested.recorded ["w"] (({} : Options).withDebug (.bool false)) "a").2 =
      ["/w/a", "/w/b"] := by decide +kernel
  have houter : (nested.view ["w"]).textOf "/w/a" = .ok "#include b\nx\n" :=
    eq_ok_of_toOption (by decide +kernel)
  have hinner : (nested.view ["w"]).textOf "/w/b" = .ok "y" :=
    eq_ok_of_toOption (by decide +kernel)
  have hlines : Text.splitLines (Text.renderLines lines) = lines := by decide +kernel
  have hon : (Value.bool true).isTruthy = true := rfl
  have hoff : (Value.bool false).isTruthy = false := rfl
  obtain ⟨-, -, -, htexts⟩ := process_debug_adds_markers hs ["w"] {} "a" hon hoff
  obtain ⟨-, -, hmarkers⟩ := htexts _ _ hbare hmarked
  rw [hreads, hlines] at hmarkers
  refine ⟨hmarked, hbare, hreads, hmarkers fun path hpath source hsource => ?_⟩
  rcases List.mem_pair.mp hpath with rfl | rfl
  · rw [houter] at hsource
    cases hsource
    decide +kernel
  · rw [hinner] at hsource
    cases hsource
    decide +kernel

end Preprocessor
end Inliner
