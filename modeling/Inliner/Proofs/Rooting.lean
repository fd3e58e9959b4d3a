import Inliner.Proofs.Confinement
import Inliner.Proofs.Within

/-! Where a path as written points. An absolute one is read below the root and a relative one in the
directory of its file, and both come to the same walk along names. -/
namespace Inliner

namespace Path

theorem normalize_of_isAbsolute {path : String} (h : isAbsolute path = true) (base : Names) :
    normalize path = render (resolve base path) ++
      if endsInSlash path = true ∧ resolve base path ≠ [] then "/" else "" := by
  rw [normalize, resolve, h, if_pos rfl, if_pos rfl]
  cases walk [] (segments path) with
  | nil => simp [render]
  | cons n above => simp

theorem endsInSlash_render {names : Names} (hne : names ≠ []) (h : ∀ n ∈ names, Proper n) :
    endsInSlash (render names) = false := by
  obtain ⟨first, rest, rfl⟩ := List.exists_cons_of_ne_nil hne
  rw [endsInSlash, toList_render, ← slashed_cons]
  obtain ⟨before, last, hlast⟩ := List.eq_nil_or_concat' (first :: rest) |>.resolve_left hne
  have hproper : Proper last := h last (by rw [hlast]; simp)
  rw [hlast, slashed_append]
  have htext : slashed [last] = '/' :: last.toList := by simp
  have hend : (slashed before ++ slashed [last]).getLast? = last.toList.getLast? := by
    rw [htext, List.getLast?_append_of_ne_nil _ (by simp),
      List.getLast?_cons_of_ne_nil hproper.toList_ne_nil]
  rw [hend, beq_eq_false_iff_ne]
  intro hslash
  exact hproper.no_slash (List.mem_of_getLast? hslash)

theorem normalize_render {names : Names} (h : ∀ n ∈ names, Proper n) :
    normalize (render names) = render names := by
  rw [normalize_of_isAbsolute (isAbsolute_render names) [], resolve_render [] h]
  by_cases hne : names = []
  · simp [hne]
  · simp [endsInSlash_render hne h]

theorem ne_empty_of_isAbsolute {path : String} (h : isAbsolute path = true) : path ≠ "" := by
  rintro rfl
  exact absurd h (by decide)

theorem resolve_of_not_isAbsolute {path : String} (h : isAbsolute path = false) (base : Names) :
    resolve base path = (walk base.reverse (segments path)).reverse := by
  rw [resolve, h, if_neg Bool.false_ne_true]

end Path

namespace Resolver

variable {cwd : Names} {root : String} {d d' : Directive}

/-- The names that an absolute path stands for, walked from the root. -/
def below (cwd : Names) (root rawPath : String) : Names :=
  (Path.walk (Path.resolve cwd root).reverse (Path.segments rawPath)).reverse

theorem candidate_of_isAbsolute (hroot : Path.isAbsolute root = true)
    (h : Path.isAbsolute d.rawPath = true) :
    candidate cwd root d = Path.render (below cwd root d.rawPath) ∨
      candidate cwd root d = Path.render (below cwd root d.rawPath) ++ "/" := by
  have habs : Path.isAbsolute (root ++ "/" ++ d.rawPath) = true :=
    Path.isAbsolute_append (Path.isAbsolute_append hroot _) _
  rw [candidate, if_pos h, Path.join, if_neg (Path.ne_empty_of_isAbsolute hroot),
    Path.normalize_of_isAbsolute habs cwd,
    Path.resolve_append (Path.ne_empty_of_isAbsolute hroot), ← below]
  split
  · exact .inr rfl
  · exact .inl (by simp)

theorem candidate_of_not_isAbsolute (h : Path.isAbsolute d.rawPath = false) :
    candidate cwd root d =
      Path.render (Path.resolve (Path.resolve cwd (Path.parent d.sourceFile)) d.rawPath) := by
  rw [candidate, h, if_neg Bool.false_ne_true]

/-- At the root, an absolute path points to the same place as a relative one, but that it may be
written with a slash at the end. -/
theorem candidate_rooted (hroot : Path.isAbsolute root = true)
    (hrelative : Path.isAbsolute d'.rawPath = false) (hraw : d.rawPath = "/" ++ d'.rawPath)
    (hdir : Path.resolve cwd (Path.parent d'.sourceFile) = Path.resolve cwd root) :
    candidate cwd root d = candidate cwd root d' ∨
      candidate cwd root d = candidate cwd root d' ++ "/" := by
  have habs : Path.isAbsolute d.rawPath = true := by simp [hraw, Path.isAbsolute]
  have hsegments : Path.segments d.rawPath = "" :: Path.segments d'.rawPath := by
    rw [hraw, show "/" ++ d'.rawPath = "" ++ "/" ++ d'.rawPath by simp, Path.segments_append]
    rfl
  have hbelow : below cwd root d.rawPath =
      Path.resolve (Path.resolve cwd (Path.parent d'.sourceFile)) d'.rawPath := by
    rw [below, hsegments, Path.walk, if_pos (.inl rfl), hdir,
      Path.resolve_of_not_isAbsolute hrelative]
  rw [candidate_of_not_isAbsolute hrelative, ← hbelow]
  exact candidate_of_isAbsolute hroot habs

end Resolver

/-- Outcomes that differ in the words of an error at most: the same target, or failures of one
kind. -/
inductive SameKind : Except Thrown String → Except Thrown String → Prop
  | target (p : String) : SameKind (.ok p) (.ok p)
  | failure {f f' : Failure} (name : f.name = f'.name) :
      SameKind (.error (.failure f)) (.error (.failure f'))

theorem Problem.name_ofCode (code : Value) (path path' : String)
    (location location' : Option Location) :
    (ofCode code path location).name = (ofCode code path' location').name := by
  unfold ofCode
  split <;> rfl

theorem Thrown.name_onPath (t : Thrown) (path path' : String)
    (location location' : Option Location) :
    (t.onPath path location).name = (t.onPath path' location').name := by
  cases t with
  | failure f => rfl
  | error e => exact Problem.name_ofCode e.code path path' location location'
  | value v => cases v <;> rfl

namespace Resolver

variable {v : Host Id} {r : Resolver} {d d' : Directive}

theorem targetOf_of_below {p : String}
    (hwithin : Path.isWithinRoot v.cwd r.root (candidate v.cwd r.root d) = true)
    (hreal : v.realpath (candidate v.cwd r.root d) = Except.ok p)
    (hbelow : Path.isWithinRoot v.cwd r.root p = true) :
    r.targetOf v d = (checkFile v d (candidate v.cwd r.root d) p).map fun _ => p := by
  rw [targetOf_eq]
  simp only [hwithin, if_true, Host.canonicalOf_eq_ok_iff.mpr hreal, Except.bind, hbelow]
  cases checkFile v d (candidate v.cwd r.root d) p <;> rfl

theorem checkFile_sameKind (path path' p : String) :
    SameKind ((checkFile v d path p).map fun _ => p) ((checkFile v d' path' p).map fun _ => p) := by
  rw [checkFile, checkFile]
  cases hfile : v.isFile p with
  | error t => exact .failure (t.name_onPath _ _ _ _)
  | ok found =>
    cases found with
    | false => exact .failure rfl
    | true =>
      cases hread : v.assertReadable p with
      | error t => exact .failure (t.name_onPath _ _ _ _)
      | ok _ => exact .target p

/-- Directives resolve in the same way if their candidates are within the root alike and made
canonical alike. -/
theorem targetOf_sameKind
    (hwithin : Path.isWithinRoot v.cwd r.root (candidate v.cwd r.root d) =
      Path.isWithinRoot v.cwd r.root (candidate v.cwd r.root d'))
    (hreal : v.realpath (candidate v.cwd r.root d) = v.realpath (candidate v.cwd r.root d') ∨
      ∃ path path', v.realpath (candidate v.cwd r.root d) = Except.error (nulError path) ∧
        v.realpath (candidate v.cwd r.root d') = Except.error (nulError path')) :
    SameKind (r.targetOf v d) (r.targetOf v d') := by
  by_cases hw : Path.isWithinRoot v.cwd r.root (candidate v.cwd r.root d') = true
  · rcases hreal with hreal | ⟨path, path', herror, herror'⟩
    · cases hanswer : v.realpath (candidate v.cwd r.root d') with
      | error t =>
        rw [targetOf_of_realpath_error (hwithin.trans hw) (hreal.trans hanswer),
          targetOf_of_realpath_error hw hanswer]
        exact .failure (t.name_onPath _ _ _ _)
      | ok p =>
        by_cases hbelow : Path.isWithinRoot v.cwd r.root p = true
        · rw [targetOf_of_below (hwithin.trans hw) (hreal.trans hanswer) hbelow,
            targetOf_of_below hw hanswer hbelow]
          exact checkFile_sameKind _ _ p
        · rw [Bool.not_eq_true] at hbelow
          rw [targetOf_of_escape (hwithin.trans hw) (hreal.trans hanswer) hbelow,
            targetOf_of_escape hw hanswer hbelow]
          exact .failure rfl
    · rw [targetOf_of_realpath_error (hwithin.trans hw) herror,
        targetOf_of_realpath_error hw herror']
      exact .failure (Problem.name_ofCode (.text "ERR_INVALID_ARG_VALUE") _ _ _ _)
  · rw [Bool.not_eq_true] at hw
    rw [targetOf_of_not_within (hwithin.trans hw), targetOf_of_not_within hw]
    exact .failure rfl

end Resolver

/-- The problem as it is told of another place. -/
def Problem.toldAt (location : Location) : Problem → Problem
  | .invalidDirective text _ => .invalidDirective text location
  | .notFound path _ => .notFound path (some location)
  | .denied path _ => .denied path (some location)
  | .circular chain _ => .circular chain (some location)
  | .tooDeep path limit _ => .tooDeep path limit (some location)
  | .io path _ => .io path (some location)
  | .settings complaint => .settings complaint
  | .other message code details => .other message code details

def Thrown.toldAt (location : Location) : Thrown → Thrown
  | .failure f => .failure { f with problem := f.problem.toldAt location }
  | t => t

theorem Problem.toldAt_ofCode (code : Value) (path : String) (location location' : Location) :
    (ofCode code path (some location)).toldAt location' = ofCode code path (some location') := by
  unfold ofCode
  split <;> rfl

theorem Thrown.toldAt_onPath {t : Thrown} (h : t.IsForeign) (path : String)
    (location location' : Location) :
    (Thrown.failure (t.onPath path (some location))).toldAt location' =
      .failure (t.onPath path (some location')) := by
  cases t with
  | failure f => exact h.elim
  | error e => simp [onPath, toldAt, Problem.toldAt_ofCode]
  | value v => cases v <;> rfl

namespace Resolver

variable {v : Host Id} (hv : v.RaisesForeign) {r : Resolver} {d d' : Directive}
include hv

theorem checkFile_toldAt (path p : String) :
    checkFile v d' path p = (checkFile v d path p).mapError (Thrown.toldAt d'.location) := by
  rw [checkFile, checkFile]
  cases hfile : v.isFile p with
  | error t => simp [Except.bind, Except.mapError, Thrown.toldAt_onPath (hv.isFile hfile)]
  | ok found =>
    cases found with
    | false => rfl
    | true =>
      cases hread : v.assertReadable p with
      | error t =>
        simp [Except.bind, Except.mapError, Thrown.toldAt_onPath (hv.assertReadable hread)]
      | ok _ => simp [Except.bind, Except.mapError]

theorem targetOf_toldAt (hraw : d'.rawPath = d.rawPath)
    (hcandidate : candidate v.cwd r.root d' = candidate v.cwd r.root d) :
    r.targetOf v d' = (r.targetOf v d).mapError (Thrown.toldAt d'.location) := by
  have hescaped : escaped d' = (escaped d).toldAt d'.location := by
    rw [escaped, hraw]
    rfl
  by_cases hw : Path.isWithinRoot v.cwd r.root (candidate v.cwd r.root d) = true
  · cases hanswer : v.realpath (candidate v.cwd r.root d) with
    | error t =>
      rw [targetOf_of_realpath_error hw hanswer,
        targetOf_of_realpath_error (hcandidate ▸ hw) (hcandidate ▸ hanswer), hcandidate,
        Except.mapError, Thrown.toldAt_onPath (hv.realpath hanswer)]
    | ok p =>
      by_cases hbelow : Path.isWithinRoot v.cwd r.root p = true
      · rw [targetOf_of_below hw hanswer hbelow,
          targetOf_of_below (hcandidate ▸ hw) (hcandidate ▸ hanswer) hbelow, hcandidate,
          checkFile_toldAt hv (d := d)]
        cases checkFile v d (candidate v.cwd r.root d) p <;> rfl
      · rw [Bool.not_eq_true] at hbelow
        rw [targetOf_of_escape hw hanswer hbelow,
          targetOf_of_escape (hcandidate ▸ hw) (hcandidate ▸ hanswer) hbelow, hescaped]
        rfl
  · rw [Bool.not_eq_true] at hw
    rw [targetOf_of_not_within hw, targetOf_of_not_within (hcandidate ▸ hw), hescaped]
    rfl

end Resolver

namespace Machine

variable {s : Machine} (hs : s.Steady)
include hs

theorem answersIn_realpath_of_resolve {cwd : Names} {path path' : String}
    (hnames : Path.resolve cwd path = Path.resolve cwd path')
    (hnul : path.toList.contains (Char.ofNat 0) = path'.toList.contains (Char.ofNat 0)) :
    (s.view cwd).realpath path = (s.view cwd).realpath path' ∨
      (s.view cwd).realpath path = Except.error (nulError path) ∧
        (s.view cwd).realpath path' = Except.error (nulError path') := by
  have htree : realpathIn cwd path = realpathIn cwd path' := by
    funext t
    rw [realpathIn, realpathIn, FileTree.realpath, FileTree.realpath, hnames]
  rw [answersIn_realpath hs, answersIn_realpath hs, answer, answer, hnames, htree, hnul]
  split
  · exact .inl rfl
  · by_cases h : path'.toList.contains (Char.ofNat 0) = true
    · rw [if_pos h, if_pos h]
      exact .inr ⟨rfl, rfl⟩
    · rw [if_neg h, if_neg h]
      exact .inl rfl

theorem answersIn_realpath_slash {cwd : Names} {path path' : String} (hne : path' ≠ "")
    (h : path = path' ∨ path = path' ++ "/") :
    (s.view cwd).realpath path = (s.view cwd).realpath path' ∨
      ∃ text text', (s.view cwd).realpath path = Except.error (nulError text) ∧
        (s.view cwd).realpath path' = Except.error (nulError text') := by
  rcases h with rfl | rfl
  · exact .inl rfl
  · refine (answersIn_realpath_of_resolve hs (Path.resolve_trailing_slash hne cwd) ?_).imp_right
      fun h => ⟨_, _, h⟩
    rw [String.toList_append, List.contains_append]
    simp

theorem resolved_sameKind {cwd : Names} {r : Resolver} (hroot : Path.isAbsolute r.root = true)
    {d d' : Directive} (hrelative : Path.isAbsolute d'.rawPath = false)
    (hraw : d.rawPath = "/" ++ d'.rawPath)
    (hdir : Path.resolve cwd (Path.parent d'.sourceFile) = Path.resolve cwd r.root) :
    SameKind (s.resolved cwd r d) (s.resolved cwd r d') := by
  have hcandidate := Resolver.candidate_rooted hroot hrelative hraw hdir
  have hne : Resolver.candidate cwd r.root d' ≠ "" :=
    Path.ne_empty_of_isAbsolute (Resolver.isAbsolute_candidate hroot)
  have hwithin : Path.isWithinRoot cwd r.root (Resolver.candidate cwd r.root d) =
      Path.isWithinRoot cwd r.root (Resolver.candidate cwd r.root d') := by
    rcases hcandidate with h | h
    · rw [h]
    · rw [h, Path.isWithinRoot, Path.isWithinRoot, Path.resolve_trailing_slash hne]
  rw [resolved_eq hs, resolved_eq hs]
  exact Resolver.targetOf_sameKind hwithin (answersIn_realpath_slash hs hne hcandidate)

theorem resolved_toldAt {cwd : Names} {r : Resolver} {d d' : Directive}
    (hraw : d'.rawPath = d.rawPath)
    (hdir : Path.isAbsolute d.rawPath = true ∨
      Path.resolve cwd (Path.parent d'.sourceFile) =
        Path.resolve cwd (Path.parent d.sourceFile)) :
    s.resolved cwd r d' = (s.resolved cwd r d).mapError (Thrown.toldAt d'.location) := by
  rw [resolved_eq hs, resolved_eq hs]
  refine Resolver.targetOf_toldAt (raisesForeign hs cwd) hraw ?_
  rcases hdir with habs | hdir
  · rw [Resolver.candidate, Resolver.candidate, hraw, if_pos habs, if_pos habs]
  · show Resolver.candidate cwd r.root d' = Resolver.candidate cwd r.root d
    rw [Resolver.candidate, Resolver.candidate, hraw, hdir]

/-- Paths as written below a root: an absolute one resolves as the relative one does that is read
at the root, to the same file or by a failure of the same kind, whichever file asks for it; and
besides the path as written, only the directory of the asking file counts, for a relative path,
and nothing of that file, for an absolute one, but for the place that is told with a failure. -/
theorem resolved_rooted (cwd : Names) {r : Resolver} (hroot : Path.isAbsolute r.root = true) :
    (∀ (d d' : Directive) (path : String), Path.isAbsolute path = false →
      d.rawPath = "/" ++ path → d'.rawPath = path →
      Path.resolve cwd (Path.parent d'.sourceFile) = Path.resolve cwd r.root →
      SameKind (s.resolved cwd r d) (s.resolved cwd r d')) ∧
    (∀ d d' : Directive, Path.isAbsolute d.rawPath = true → d'.rawPath = d.rawPath →
      s.resolved cwd r d' = (s.resolved cwd r d).mapError (Thrown.toldAt d'.location)) ∧
    ∀ d d' : Directive, Path.isAbsolute d.rawPath = false → d'.rawPath = d.rawPath →
      Path.resolve cwd (Path.parent d'.sourceFile) = Path.resolve cwd (Path.parent d.sourceFile) →
      s.resolved cwd r d' = (s.resolved cwd r d).mapError (Thrown.toldAt d'.location) := by
  refine ⟨?_, ?_, ?_⟩
  · intro d d' path hrelative habs hraw hdir
    subst hraw
    exact resolved_sameKind hs hroot hrelative habs hdir
  · intro d d' habs hraw
    exact resolved_toldAt hs hraw (.inl habs)
  · intro d d' _ hraw hdir
    exact resolved_toldAt hs hraw (.inr hdir)

omit hs

def stray : Machine :=
  { tree := ⟨[(["w"], .directory), (["w", "b"], .file [])]⟩ }

/-- A path that climbs above the root and comes back, asked for from afar. -/
def far : Directive := ⟨.count 3, "/../w/b/", .bare, "/elsewhere/x"⟩

def near : Directive := ⟨.count 1, "../w/b/", .bare, "/w/a"⟩

theorem stray_resolved_rooted :
    stray.Steady ∧ stray.resolved ["tmp"] ⟨"/w"⟩ far = .ok "/w/b" ∧
      SameKind (stray.resolved ["tmp"] ⟨"/w"⟩ far) (stray.resolved ["tmp"] ⟨"/w"⟩ near) ∧
      stray.resolved ["tmp"] ⟨"/w"⟩ { far with sourceFile := "y" } =
        (stray.resolved ["tmp"] ⟨"/w"⟩ far).mapError (Thrown.toldAt ⟨"y", .count 3⟩) ∧
      stray.resolved ["tmp"] ⟨"/w"⟩ { near with sourceFile := "../w/z" } =
        (stray.resolved ["tmp"] ⟨"/w"⟩ near).mapError (Thrown.toldAt ⟨"../w/z", .count 1⟩) := by
  have hs : stray.Steady := steady_of_faults_eq_nil rfl
  obtain ⟨hkind, habs, hrelative⟩ := resolved_rooted hs ["tmp"] (r := ⟨"/w"⟩) (by decide)
  have hfar : stray.resolved ["tmp"] ⟨"/w"⟩ far = .ok "/w/b" := by rfl
  refine ⟨hs, hfar, ?_, ?_, ?_⟩
  · exact hkind far near "../w/b/" (by decide) (by cbv) rfl (by cbv)
  · exact habs far { far with sourceFile := "y" } (by decide) rfl
  · exact hrelative near { near with sourceFile := "../w/z" } (by decide) rfl (by cbv)

end Machine
end Inliner
