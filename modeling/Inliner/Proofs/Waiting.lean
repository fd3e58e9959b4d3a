import Inliner.Proofs.Climbing
import Inliner.Proofs.Disclosure
import Inliner.Proofs.Termination

/-! Runs that wait for each of their calls. Such a run ends as its expansion goes its course, or
waits for ever where the links of the tree lead `realpath` around. -/
namespace Inliner
namespace Machine

open Preprocessor

/-- `realpath` is called on `path` and never comes back. -/
def Hangs (s : Machine) (cwd : Names) (path : String) : Prop :=
  s.Makes cwd .realpath path ∧ s.tree.realpath cwd path = .error .endless

theorem not_hangs {s : Machine} {cwd : Names} (hcwd : ∀ n ∈ cwd, Path.Proper n)
    (hfirst : s.tree.ClimbsFirst) (path : String) : ¬s.Hangs cwd path :=
  fun h => hfirst.realpath_ne_endless (.inr hcwd) h.2

/-- What a run that waits for its calls ends with, or the call that it waits for in the end, and the
paths that it reads. -/
def awaited (s : Machine) (cwd : Names) (o : Options) (input : String) :
    Except Hang (Except Thrown String) × List String :=
  let h := (host cwd).recording.awaiting fun path => StateT.lift (endlessAt cwd path)
  (((process h o input).run.run.run []).run s).1

theorem endlessAt_iff {s : Machine} {cwd : Names} {path : String} :
    ((endlessAt cwd path).run s).1 = true ↔ s.Hangs cwd path := by
  have hendless : s.tree.isEndless cwd path = true ↔
      s.tree.realpath cwd path = .error .endless := by
    unfold FileTree.isEndless
    split
    · rename_i h
      simp [h]
    · rename_i h
      simpa using h
  show (_ && _ && _) = true ↔ _
  simp [hendless, Hangs, Makes]

theorem settled_endlessAt (s : Machine) (cwd : Names) (path : String) :
    s.settled.Rel (endlessAt cwd path) ((endlessAt cwd path).run s).1 :=
  fun err => ⟨err, rfl⟩

/-- Computations that come to a value on `s`, or wait for ever after some of what they read. -/
def waiting (s : Machine) (cwd : Names) : Tracing (ExceptT Hang (StateT (List String) Run)) where
  Rel x a reads := s.tracing.Rel x.run (.ok a) reads ∨
    ∃ hang before, s.Hangs cwd hang.path ∧ before <+: reads ∧
      s.tracing.Rel x.run (.error hang) before
  value a := .inl (s.tracing.value (Except.ok a))
  sequence {α β x a f b reads more} hx hf := by
    rcases hx with hx | ⟨hang, before, hhangs, hbefore, hx⟩
    · rcases hf with hf | ⟨hang, before, hhangs, hbefore, hf⟩
      · exact .inl (s.tracing.sequence (f := ExceptT.bindCont f) hx hf)
      · exact .inr ⟨hang, reads ++ before, hhangs, (List.prefix_append_right_inj reads).mpr hbefore,
          s.tracing.sequence (f := ExceptT.bindCont f) hx hf⟩
    · have hstop := s.tracing.sequence (f := ExceptT.bindCont f) hx
        (s.tracing.value (Except.error hang))
      rw [List.append_nil] at hstop
      exact .inr ⟨hang, before, hhangs, hbefore.trans (List.prefix_append _ _), hstop⟩

theorem waiting_lift {s : Machine} {cwd : Names} {α : Type} {x : StateT (List String) Run α} {a : α}
    {reads : List String} (h : s.tracing.Rel x a reads) :
    (s.waiting cwd).Rel (ExceptT.lift x) a reads := by
  refine .inl ?_
  show s.tracing.Rel (Except.ok <$> x) (Except.ok a) reads
  rw [map_eq_pure_bind, ← List.append_nil reads]
  exact s.tracing.sequence h (s.tracing.value (Except.ok a))

theorem awaiting_traced {s : Machine} (hs : s.Steady) (cwd : Names) :
    ((host cwd).recording.awaiting fun path => StateT.lift (endlessAt cwd path)).Traced
      (s.waiting cwd) (s.view cwd) where
  quiet :=
    { cwd := rfl
      log := fun record => waiting_lift ((recording_traced hs cwd).quiet.log record)
      realpath := fun path => by
        have hasked : (s.waiting cwd).Rel _ _ [] :=
          waiting_lift (tracing_lift (settled_endlessAt s cwd path))
        refine (s.waiting cwd).sequence hasked ?_
        cases hendless : ((endlessAt cwd path).run s).1 with
        | false => exact waiting_lift ((recording_traced hs cwd).quiet.realpath path)
        | true =>
          exact .inr ⟨⟨path⟩, [], endlessAt_iff.mp hendless, List.nil_prefix,
            s.tracing.value (Except.error _)⟩
      isFile := fun path => waiting_lift ((recording_traced hs cwd).quiet.isFile path)
      assertReadable := fun path =>
        waiting_lift ((recording_traced hs cwd).quiet.assertReadable path)
      read := fun _ h => h.elim }
  read path := waiting_lift ((recording_traced hs cwd).read path)

/-- Waiting for its calls, a run reads what is in `reads` and ends with `out`, or it comes on its way
to a call that never comes back. -/
def Comes (s : Machine) (cwd : Names) (o : Options) (input : String) (out : Except Thrown String)
    (reads : List String) : Prop :=
  s.awaited cwd o input = (.ok out, reads) ∨
    ∃ hang before, s.Hangs cwd hang.path ∧ before <+: reads ∧
      s.awaited cwd o input = (.error hang, before)

theorem comes_of_ends {s : Machine} {cwd : Names} {o : Options} {input : String}
    {out : Except Thrown String} {reads : List String}
    (h : (s.waiting cwd).Ends (process ((host cwd).recording.awaiting fun path =>
      StateT.lift (endlessAt cwd path)) o input) out reads) : s.Comes cwd o input out reads := by
  rcases h with h | ⟨hang, before, hhangs, hbefore, h⟩
  · obtain ⟨err, hrun⟩ := h s.err
    exact .inl (congrArg Prod.fst (hrun []))
  · obtain ⟨err, hrun⟩ := h s.err
    exact .inr ⟨hang, before, hhangs, hbefore, congrArg Prod.fst (hrun [])⟩

end Machine

namespace Preprocessor

open IncludeGraph Expansion Machine

/-- A run ends unless it waits for ever for a canonical path. It is over before its expansion starts,
or its expansion goes a finite course: the run ends as the course does and reads one file for each
of its visits, or hangs on the way. At each visit no more files are open than the limit and than
the regular files below the base directory with the input; so as much room is enough, and a limit
above the number of these files is never met. No run hangs on a tree whose links go up only where
their targets begin. -/
theorem process_ends_or_hangs {s : Machine} (hs : s.Steady) (cwd : Names) (o : Options)
    (input : String) :
    ((∀ n ∈ cwd, Path.Proper n) → s.tree.ClimbsFirst → ∀ path, ¬s.Hangs cwd path) ∧
    ((∃ e, EndsEarly (s.view cwd) o input e ∧ s.Comes cwd o input (.error e) [] ∧ ¬e.IsTooDeep) ∨
    ∃ c file r out visits, Config.forInput cwd o input = .ok c ∧
      fileOf (s.view cwd) input = .ok file ∧ resolverOf (s.view cwd) c = .ok r ∧
      Course (s.view cwd) r c.marks (opening c file) (.file file) out visits ∧
      s.Comes cwd o input (out.map Text.renderLines) (visits.map Visit.path) ∧
      let files := s.tree.filesBelow (Path.resolve [] r.root)
      let bound := min c.maxIncludeDepth.floorNat (1 + files.card)
      (∀ visit ∈ visits, visit.stack.length ≤ bound) ∧
      (∀ room, bound ≤ room →
        (expandWithin (s.view cwd) r c.marks room file).result (opening c file) = out) ∧
      (files.card < c.maxIncludeDepth.floorNat → ∀ e, out = .error e → ¬e.IsTooDeep)) := by
  refine ⟨not_hangs, ?_⟩
  have htraced := awaiting_traced hs cwd
  rcases starts_or_endsEarly (s.view cwd) o input with ⟨c, file, r, hc, hfile, hr⟩ | ⟨e, he⟩
  · have hpos := Config.isPositiveInteger_of_forInput hc
    have hkept := kept_opening hpos file
    obtain ⟨out, visits, hcourse⟩ := @exists_course (s.view cwd) r c.marks _ hkept file
    have hbound (visit : Visit) (hvisit : visit ∈ visits) :=
      length_le_of_inside hs hr (hcourse.inside hkept visit hvisit)
    refine .inr ⟨c, file, r, out, visits, hc, hfile, hr, hcourse,
      comes_of_ends (ends_process htraced hc hfile hr hcourse), hbound, fun room hroom => ?_,
      fun hcard e he => ?_⟩
    · refine hcourse.result_of_room fun visit hvisit => ?_
      exact Nat.lt_succ_of_le ((hbound visit hvisit).trans hroom)
    · have hresult : (expandWithin (s.view cwd) r c.marks (c.maxIncludeDepth.floorNat + 1)
          file).result (opening c file) = .error e := by
        rw [hcourse.result_eq hkept (by rw [opening_capacity, opening_depth]; omega), he]
      exact not_isTooDeep_of_expansion hs hpos hr hcard hresult
  · exact .inl ⟨e, he, comes_of_ends (he.ends htraced),
      he.not_isTooDeep (Machine.raisesForeign hs cwd)⟩

def aliased : Machine :=
  { tree := ⟨[(["w"], .directory), (["w", "a"], .file (Text.encodeUtf8 "#include l")),
      (["w", "l"], .link "a")]⟩ }

theorem aliased_process_ends :
    let o : Options := { maxIncludeDepth := .number (.count 1000000) }
    let l := opening ⟨.bool false, .count 1000000, ["w"]⟩ "/w/a"
    let v := aliased.view ["w"]
    (aliased.tree.filesBelow ["w"]).card = 1 ∧
    (∀ path, ¬aliased.Hangs ["w"] path) ∧
    ∃ out visits, Course v ⟨"/w"⟩ false l (.file "/w/a") out visits ∧
      aliased.awaited ["w"] o "a" = (.ok (out.map Text.renderLines), visits.map Visit.path) ∧
      (∀ visit ∈ visits, visit.stack.length ≤ 2) ∧
      (expandWithin v ⟨"/w"⟩ false 2 "/w/a").result l = out ∧
      ∀ e, out = .error e → ¬e.IsTooDeep := by
  have hfile : fileOf (aliased.view ["w"]) "a" = .ok "/w/a" := by rfl
  have hr : resolverOf (aliased.view ["w"]) ⟨.bool false, .count 1000000, ["w"]⟩ =
      .ok ⟨"/w"⟩ := by rfl
  have hroot : Path.resolve [] "/w" = ["w"] := by rfl
  have hcard : (aliased.tree.filesBelow ["w"]).card = 1 := by decide
  intro o l v
  have hs : aliased.Steady := Machine.steady_of_faults_eq_nil rfl
  have hc : Config.forInput ["w"] o "a" = .ok ⟨.bool false, .count 1000000, ["w"]⟩ := by rfl
  have hcwd : ∀ n ∈ ["w"], Path.Proper n := by
    intro n hn
    obtain rfl := List.mem_singleton.mp hn
    exact ⟨by decide, by decide, by decide, by decide⟩
  have hfirst : aliased.tree.ClimbsFirst := by decide +kernel
  obtain ⟨hends, hcourses⟩ := process_ends_or_hangs hs ["w"] o "a"
  have hnot := hends hcwd hfirst
  rcases hcourses with
    ⟨e, he, -⟩ | ⟨c, file, r, out, visits, hc', hfile', hr', hcourse, hcomes, hlimits⟩
  · exact absurd he (not_endsEarly (v := v) hc hfile hr e)
  · rw [hc] at hc'
    cases hc'
    rw [hfile] at hfile'
    cases hfile'
    rw [hr] at hr'
    cases hr'
    simp only [hroot, hcard] at hlimits
    obtain ⟨hbound, hroom, hdeep⟩ := hlimits
    have hmin : min (Number.count 1000000).floorNat (1 + 1) = 2 := by decide
    rw [hmin] at hbound hroom
    rcases hcomes with hawaited | ⟨hang, before, hhangs, -⟩
    · exact ⟨hcard, hnot, out, visits, hcourse, hawaited, hbound, hroom 2 le_rfl,
        hdeep (by decide)⟩
    · exact absurd hhangs (hnot hang.path)

/-- A file that includes a link whose target goes through another link and up again. The system comes
to `/w/o/l`, and the names of the target alone come to the link. -/
def revolving : Machine :=
  { tree := ⟨[(["w"], .directory), (["w", "o"], .directory), (["w", "o", "dir"], .directory),
      (["w", "o", "l"], .file (Text.encodeUtf8 "x\n")), (["w", "d"], .link "o/dir"),
      (["w", "l"], .link "d/../l"), (["w", "main"], .file (Text.encodeUtf8 "#include l\n"))]⟩ }

theorem revolving_process_hangs :
    revolving.Steady ∧
    revolving.tree.read ["w"] "l" = .ok (Text.encodeUtf8 "x\n") ∧
    (∀ restarts, revolving.tree.realpathWithin restarts ["w", "l"] = .error .endless) ∧
    revolving.awaited ["w"] {} "main" = (.error ⟨"/w/l"⟩, ["/w/main"]) := by
  have hread : revolving.tree.read ["w"] "l" = .ok (Text.encodeUtf8 "x\n") :=
    eq_ok_of_toOption (by decide +kernel)
  have hendless : revolving.tree.realpath [] "/w/l" = .error .endless := by decide +kernel
  have hreads : (revolving.awaited ["w"] {} "main").2 = ["/w/main"] := by decide +kernel
  have hpath : (match (revolving.awaited ["w"] {} "main").1 with
      | .error hang => some hang
      | .ok _ => none) = some ⟨"/w/l"⟩ := by decide +kernel
  refine ⟨Machine.steady_of_faults_eq_nil rfl, hread, FileTree.realpath_eq_endless_iff.mp hendless,
    Prod.ext ?_ hreads⟩
  cases hend : (revolving.awaited ["w"] {} "main").1 with
  | ok out =>
    rw [hend] at hpath
    cases hpath
  | error hang =>
    rw [hend] at hpath
    cases hpath
    rfl

end Preprocessor
end Inliner
