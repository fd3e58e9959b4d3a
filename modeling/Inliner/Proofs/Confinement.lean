import Inliner.Proofs.Canonical
import Inliner.Proofs.Contents
import Inliner.Proofs.Recording
import Inliner.Proofs.Steady

/-! Every file that a run reads is its canonical input or a regular file below the canonical base
directory, so the contents of all other files make no difference to it. -/
namespace Inliner

/-- The host with every path that is read written down, whether the read succeeds or not. -/
def Host.recording {m : Type → Type} [Monad m] (h : Host m) : Host (StateT (List String) m) where
  cwd := h.cwd
  log r := StateT.lift (h.log r)
  logs level := StateT.lift (h.logs level)
  realpath path := ExceptT.mk (StateT.lift (h.realpath path).run)
  isFile path := ExceptT.mk (StateT.lift (h.isFile path).run)
  assertReadable path := ExceptT.mk (StateT.lift (h.assertReadable path).run)
  read path := ExceptT.mk (written (fun _ => [path]) (h.read path).run)

theorem Resolver.isAbsolute_candidate {cwd : Names} {root : String} {d : Directive}
    (h : Path.isAbsolute root = true) : Path.isAbsolute (candidate cwd root d) = true := by
  unfold candidate
  split
  · have hne : root ≠ "" := by
      intro he
      simp [he, Path.isAbsolute] at h
    rw [Path.join, if_neg hne]
    apply Path.isAbsolute_normalize
    exact Path.isAbsolute_append (Path.isAbsolute_append h _) _
  · exact Path.isAbsolute_render _

namespace Machine

/-- What a run ends with, and the paths that it reads, in order. -/
def recorded (s : Machine) (cwd : Names) (o : Options) (input : String) :
    Except Thrown String × List String :=
  (((Preprocessor.process (host cwd).recording o input).run []).run s).1

/-- Computations that are settled on `s` and write down only paths of `files`. -/
def watched (s : Machine) (files : String → Prop) : Correspondence (StateT (List String) Run) where
  Rel x a := ∀ err, ∃ reads err', (∀ path ∈ reads, files path) ∧
    Writes x { s with err } reads a { s with err := err' }
  value a err := ⟨[], err, by simp, writes_pure a _⟩
  sequence {α β x a f b} hx hf err := by
    obtain ⟨reads, err₁, hreads, hx⟩ := hx err
    obtain ⟨more, err₂, hmore, hf⟩ := hf err₁
    refine ⟨reads ++ more, err₂, fun path hpath => ?_, hx.bind hf⟩
    exact (List.mem_append.mp hpath).elim (hreads path) (hmore path)

theorem watched_lift {s : Machine} {files : String → Prop} {α : Type} {x : Run α} {a : α}
    (h : s.settled.Rel x a) : (s.watched files).Rel (StateT.lift x) a := by
  intro err
  obtain ⟨err', hrun⟩ := h err
  exact ⟨[], err', by simp, writes_lift hrun⟩

theorem recording_corresponds {s : Machine} (hs : s.Steady) (cwd : Names) (files : String → Prop) :
    (host cwd).recording.Corresponds (s.watched files) files (s.view cwd) where
  cwd := rfl
  log r := watched_lift (s.settled_log r)
  realpath path := watched_lift (settled_reading hs cwd _ path _)
  isFile path := watched_lift (settled_reading hs cwd _ path _)
  assertReadable path := watched_lift (settled_reading hs cwd _ path _)
  read path hpath := by
    intro err
    obtain ⟨err', hread⟩ := (host_corresponds hs cwd files).read path hpath err
    exact ⟨[path], err', by simpa using hpath, writes_written hread _⟩

theorem recorded_eq {s : Machine} (hs : s.Steady) {cwd : Names} {o : Options} {input : String}
    {files : String → Prop}
    (hinput : ∀ file, Preprocessor.fileOf (s.view cwd) input = .ok file → files file)
    (htargets : ∀ config r, Config.forInput cwd o input = .ok config →
      Preprocessor.resolverOf (s.view cwd) config = .ok r →
      ∀ d target, r.targetOf (s.view cwd) d = .ok target → files target) :
    (s.recorded cwd o input).1 = s.outcome cwd o input ∧
      ∀ path ∈ (s.recorded cwd o input).2, files path := by
  obtain ⟨reads, err, hreads, hrun⟩ :=
    (recording_corresponds hs cwd files).process hinput htargets s.err
  have hrecorded : s.recorded cwd o input = (Preprocessor.outcomeOf (s.view cwd) o input, reads) :=
    congrArg Prod.fst (hrun [])
  rw [hrecorded, outcome_eq hs]
  exact ⟨rfl, hreads⟩

section canonical

variable {s : Machine} (hs : s.Steady) {cwd : Names}
include hs

theorem exists_place_of_realpath {path p : String}
    (h : (s.view cwd).realpath path = Except.ok p) :
    ∃ names, p = Path.render names ∧ s.tree.realpath cwd path = .ok names := by
  rw [answersIn_realpath hs] at h
  have htree := answer_eq_ok h
  unfold realpathIn at htree
  split at htree
  · rename_i names hnames
    cases htree
    exact ⟨names, rfl, hnames⟩
  · cases htree

theorem canonical_of_realpath {path p : String} (habs : Path.isAbsolute path = true)
    (h : (s.view cwd).realpath path = Except.ok p) :
    ∃ names, p = Path.render names ∧ s.tree.Canonical names := by
  obtain ⟨names, hp, hnames⟩ := exists_place_of_realpath hs h
  exact ⟨names, hp, FileTree.canonical_of_realpath habs hnames⟩

theorem canonical_of_fileOf {input file : String}
    (h : Preprocessor.fileOf (s.view cwd) input = .ok file) :
    ∃ names, file = Path.render names ∧ s.tree.Canonical names :=
  canonical_of_realpath hs (Path.isAbsolute_render _) (Host.canonicalOf_eq_ok_iff.mp h)

theorem canonical_of_resolverOf {c : Config} {r : Resolver}
    (h : Preprocessor.resolverOf (s.view cwd) c = .ok r) :
    ∃ names, r.root = Path.render names ∧ s.tree.Canonical names := by
  rw [Preprocessor.resolverOf_eq] at h
  obtain ⟨root, hroot, rfl⟩ := map_eq_ok_iff.mp h
  exact canonical_of_realpath hs (Path.isAbsolute_render _) (Host.canonicalOf_eq_ok_iff.mp hroot)

theorem isAbsolute_of_resolverOf {c : Config} {r : Resolver}
    (h : Preprocessor.resolverOf (s.view cwd) c = .ok r) : Path.isAbsolute r.root = true := by
  obtain ⟨names, hnames, -⟩ := canonical_of_resolverOf hs h
  rw [hnames]
  exact Path.isAbsolute_render names

/-- A directive that resolves stands for a regular file at a canonical path below the root. -/
theorem regular_of_targetOf {r : Resolver} (hroot : Path.isAbsolute r.root = true) {d : Directive}
    {target : String} (h : r.targetOf (s.view cwd) d = .ok target) :
    ∃ names content, target = Path.render names ∧ s.tree.Canonical names ∧
      s.tree.get? names = some (.file content) ∧ Path.resolve [] r.root <+: names := by
  obtain ⟨-, hreal, hwithin, hfile, -⟩ := Resolver.targetOf_eq_ok_iff.mp h
  obtain ⟨names, rfl, hnames⟩ :=
    canonical_of_realpath hs (Resolver.isAbsolute_candidate hroot) hreal
  obtain ⟨e, he, hstat⟩ := hnames.stat_eq cwd
  have hregular : ∃ content, e = .file content := by
    rw [answersIn_isFile hs] at hfile
    have htree := answer_eq_ok hfile
    simp only [isFileIn, statIn, hstat, Except.map, Except.ok.injEq] at htree
    split at htree
    · exact ⟨_, rfl⟩
    · cases htree
  obtain ⟨content, rfl⟩ := hregular
  refine ⟨names, content, rfl, hnames, he, ?_⟩
  rw [Path.isWithinRoot_render_iff hnames.proper] at hwithin
  rwa [Path.resolve_of_isAbsolute hroot (s.view cwd).cwd []] at hwithin

end canonical

theorem answer_with_tree {s : Machine} {t : FileTree} {cwd : Names} {call : Call} {path : String}
    {α : Type} {action : FileTree → Except Thrown α} (h : action t = action s.tree) :
    { s with tree := t }.answer cwd call path action = s.answer cwd call path action := by
  unfold answer
  rw [h]

theorem isFileIn_alike {t t' : FileTree} (h : t.Alike t') (cwd : Names) (path : String) :
    isFileIn cwd path t' = isFileIn cwd path t := by
  unfold isFileIn statIn
  rcases h.stat cwd path with heq | ⟨p, content, content', -, -, hstat, hstat'⟩
  · rw [heq]
  · rw [hstat, hstat']
    rfl

theorem accessIn_alike {t t' : FileTree} (h : t.Alike t') (cwd : Names) (path : String) :
    accessIn cwd path t' = accessIn cwd path t := by
  unfold accessIn statIn
  rcases h.stat cwd path with heq | ⟨p, content, content', -, -, hstat, hstat'⟩
  · rw [heq]
  · rw [hstat, hstat']
    rfl

/-- Machines whose trees are alike answer alike, and read the same where the trees do. -/
theorem corresponds_of_alike {s : Machine} (hs : s.Steady) {t : FileTree} (ht : s.tree.Alike t)
    {cwd : Names} {files : String → Prop}
    (hfiles : ∀ path, files path → t.read cwd path = s.tree.read cwd path) :
    ({ s with tree := t }.view cwd).Corresponds .plain files (s.view cwd) := by
  have hs' := hs.withTree t
  refine ⟨rfl, fun r => rfl, fun path => ?_, fun path => ?_, fun path => ?_, fun path hpath => ?_⟩
  · have hrealpath : realpathIn cwd path t = realpathIn cwd path s.tree := by
      rw [realpathIn, realpathIn, ht.realpath_eq]
    show (view { s with tree := t } cwd).realpath path = (s.view cwd).realpath path
    rw [answersIn_realpath hs', answersIn_realpath hs]
    exact answer_with_tree hrealpath
  · show (view { s with tree := t } cwd).isFile path = (s.view cwd).isFile path
    rw [answersIn_isFile hs', answersIn_isFile hs]
    exact answer_with_tree (isFileIn_alike ht cwd path)
  · show (view { s with tree := t } cwd).assertReadable path = (s.view cwd).assertReadable path
    rw [answersIn_assertReadable hs', answersIn_assertReadable hs]
    exact answer_with_tree (accessIn_alike ht cwd path)
  · show (view { s with tree := t } cwd).read path = (s.view cwd).read path
    rw [answersIn_read hs', answersIn_read hs]
    refine answer_with_tree ?_
    rw [hfiles path hpath]

/-- The canonical input of a run, and the regular files below its canonical base directory. -/
def MayRead (s : Machine) (cwd : Names) (o : Options) (input path : String) : Prop :=
  Preprocessor.fileOf (s.view cwd) input = .ok path ∨
  ∃ c r names content, Config.forInput cwd o input = .ok c ∧
    Preprocessor.resolverOf (s.view cwd) c = .ok r ∧ path = Path.render names ∧
    s.tree.Canonical names ∧ s.tree.get? names = some (.file content) ∧
    Path.resolve [] r.root <+: names

theorem mayRead_of_targetOf {s : Machine} (hs : s.Steady) {cwd : Names} {o : Options}
    {input : String} {c : Config} {r : Resolver} (hc : Config.forInput cwd o input = .ok c)
    (hr : Preprocessor.resolverOf (s.view cwd) c = .ok r) {d : Directive} {target : String}
    (h : r.targetOf (s.view cwd) d = .ok target) : s.MayRead cwd o input target := by
  obtain ⟨names, content, hregular⟩ :=
    regular_of_targetOf hs (isAbsolute_of_resolverOf hs hr) h
  exact .inr ⟨c, r, names, content, hc, hr, hregular⟩

theorem MayRead.exists_names {s : Machine} (hs : s.Steady) {cwd : Names} {o : Options}
    {input path : String} (h : s.MayRead cwd o input path) :
    ∃ names, path = Path.render names ∧ s.tree.Canonical names := by
  rcases h with hfile | ⟨c, r, names, content, -, -, hpath, hcanonical, -⟩
  · exact canonical_of_fileOf hs hfile
  · exact ⟨names, hpath, hcanonical⟩

theorem MayRead.stat {s : Machine} (hs : s.Steady) {cwd : Names} {o : Options}
    {input path : String} (h : s.MayRead cwd o input path) :
    ∃ e, s.tree.stat cwd path = .ok (Path.resolve [] path, e) := by
  obtain ⟨names, rfl, hcanonical⟩ := h.exists_names hs
  obtain ⟨e, -, hstat⟩ := hcanonical.stat_eq cwd
  rw [Path.resolve_render [] hcanonical.proper]
  exact ⟨e, hstat⟩

/-- Confinement: recording the reads of a run changes nothing about it; each path that is read is
the canonical input or that of a regular file below the canonical base directory; and the
contents of files that are neither make no difference to how the run ends. -/
theorem process_confined {s : Machine} (hs : s.Steady) (cwd : Names) (o : Options)
    (input : String) :
    (s.recorded cwd o input).1 = s.outcome cwd o input ∧
    (∀ path ∈ (s.recorded cwd o input).2, s.MayRead cwd o input path) ∧
    ∀ t : FileTree,
      (∀ p, t.get? p = s.tree.get? p ∨
        (∃ content content', s.tree.get? p = some (.file content) ∧
          t.get? p = some (.file content')) ∧
        (∀ file, Preprocessor.fileOf (s.view cwd) input = .ok file → p ≠ Path.resolve [] file) ∧
        ∀ c r, Config.forInput cwd o input = .ok c →
          Preprocessor.resolverOf (s.view cwd) c = .ok r → ¬Path.resolve [] r.root <+: p) →
      { s with tree := t }.outcome cwd o input = s.outcome cwd o input := by
  have hinput (file : String) (h : Preprocessor.fileOf (s.view cwd) input = .ok file) :
      s.MayRead cwd o input file := .inl h
  have htargets (c : Config) (r : Resolver) (hc : Config.forInput cwd o input = .ok c)
      (hr : Preprocessor.resolverOf (s.view cwd) c = .ok r) (d : Directive) (target : String)
      (h : r.targetOf (s.view cwd) d = .ok target) : s.MayRead cwd o input target :=
    mayRead_of_targetOf hs hc hr h
  obtain ⟨hsame, hreads⟩ := recorded_eq hs hinput htargets
  refine ⟨hsame, hreads, fun t ht => ?_⟩
  have halike : s.tree.Alike t := fun p => (ht p).imp_right fun h => h.1
  have hread (path : String) (h : s.MayRead cwd o input path) :
      t.read cwd path = s.tree.read cwd path := by
    obtain ⟨e, hstat⟩ := h.stat hs
    refine halike.read_eq hstat ?_
    rcases ht (Path.resolve [] path) with heq | ⟨-, hother, houtside⟩
    · exact heq
    · rcases h with hfile | ⟨c, r, names, content, hc, hr, rfl, hcanonical, -, hbelow⟩
      · exact absurd rfl (hother path hfile)
      · rw [Path.resolve_render [] hcanonical.proper] at houtside
        exact absurd hbelow (houtside c r hc hr)
  rw [outcome_eq (hs.withTree t), outcome_eq hs]
  exact (corresponds_of_alike hs halike hread).process hinput htargets

/-- A base directory `/w` whose file `a` includes a link to a file outside. -/
def leaking : Machine :=
  { tree := ⟨[(["w"], .directory), (["w", "a"], .file (Text.encodeUtf8 "#include s")),
      (["w", "s"], .link "/out/s"), (["out"], .directory),
      (["out", "s"], .file (Text.encodeUtf8 "secret"))]⟩ }

theorem leaking_process_confined :
    leaking.Steady ∧
    (∀ path ∈ (leaking.recorded ["w"] {} "a").2, leaking.MayRead ["w"] {} "a" path) ∧
    leaking.tree.get? ["out", "s"] = some (.file (Text.encodeUtf8 "secret")) ∧
    { leaking with tree := leaking.tree.set ["out", "s"] (.file []) }.outcome ["w"] {} "a" =
      leaking.outcome ["w"] {} "a" := by
  have hs : leaking.Steady := steady_of_faults_eq_nil rfl
  obtain ⟨-, hreads, hsame⟩ := process_confined hs ["w"] {} "a"
  have hsecret : leaking.tree.get? ["out", "s"] = some (.file (Text.encodeUtf8 "secret")) := by cbv
  have hfile : Preprocessor.fileOf (leaking.view ["w"]) "a" = .ok "/w/a" := by cbv
  have hc : Config.forInput ["w"] {} "a" = .ok ⟨.bool false, .count 100, ["w"]⟩ := by cbv
  have hr : Preprocessor.resolverOf (leaking.view ["w"]) ⟨.bool false, .count 100, ["w"]⟩ =
      .ok ⟨"/w"⟩ := by cbv
  refine ⟨hs, hreads, hsecret, hsame _ fun p => ?_⟩
  rw [FileTree.get?_set _ (by simp)]
  by_cases hp : p = ["out", "s"]
  · subst hp
    refine .inr ⟨⟨_, [], hsecret, by simp⟩, ?_, ?_⟩
    · intro file h
      rw [hfile] at h
      cases h
      have hnames : Path.resolve [] "/w/a" = ["w", "a"] := by cbv
      rw [hnames]
      decide
    · intro c r hc' hr'
      rw [hc] at hc'
      cases hc'
      rw [hr] at hr'
      cases hr'
      have hnames : Path.resolve [] "/w" = ["w"] := by cbv
      rw [hnames]
      decide
  · rw [if_neg hp]
    exact .inl rfl

end Machine
end Inliner
