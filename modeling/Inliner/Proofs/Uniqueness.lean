import Inliner.Proofs.Disclosure
import Inliner.Proofs.Rooting
import Inliner.Proofs.Termination

/-! What a directive resolves to is the one canonical path of a regular file, whichever path leads
there. So files may be compared by their texts, and what is open is open once. -/
namespace Inliner
namespace FileTree

variable {t : FileTree} {cwd names names' : Names}

/-- The system finds something at `place` when it walks along `path`. -/
def LeadsTo (t : FileTree) (cwd : Names) (path : String) (place : Names) : Prop :=
  ∃ e, t.stat cwd path = .ok (place, e)

def SameFile (t : FileTree) (cwd : Names) (path path' : String) : Prop :=
  ∃ place, t.LeadsTo cwd path place ∧ t.LeadsTo cwd path' place

/-- The canonical path of what these names stand for is where the system's own walk gets to. -/
def Physical (t : FileTree) (cwd names : Names) : Prop :=
  ∀ place, t.realpath cwd (Path.render names) = .ok place →
    t.LeadsTo cwd (Path.render names) place

/-- `p` is the canonical path of a regular file at or below `root`. -/
structure NamesFile (t : FileTree) (cwd root : Names) (p : String) (names : Names) : Prop where
  text : p = Path.render names
  absolute : Path.isAbsolute p = true
  proper : ∀ n ∈ names, Path.Proper n
  unlinked : ∀ above target, above <+: names → t.get? above ≠ some (.link target)
  regular : ∃ content, t.stat cwd p = .ok (names, .file content)
  below : root <+: names

theorem LeadsTo.unique {path : String} {place place' : Names} (h : t.LeadsTo cwd path place)
    (h' : t.LeadsTo cwd path place') : place = place' := by
  obtain ⟨e, he⟩ := h
  obtain ⟨e', he'⟩ := h'
  rw [he] at he'
  cases he'
  rfl

theorem LeadsTo.sameFile_iff {path path' : String} {place place' : Names}
    (h : t.LeadsTo cwd path place) (h' : t.LeadsTo cwd path' place') :
    t.SameFile cwd path path' ↔ place = place' := by
  constructor
  · rintro ⟨common, hcommon, hcommon'⟩
    rw [h.unique hcommon, h'.unique hcommon']
  · rintro rfl
    exact ⟨place, h, h'⟩

theorem physical_of_realpath (place : Names)
    (h : t.realpath cwd (Path.render names) = .ok place)
    (hplace : t.LeadsTo cwd (Path.render names) place) : t.Physical cwd names := by
  intro place' h'
  rw [h] at h'
  cases h'
  exact hplace

namespace Canonical

theorem leadsTo (h : t.Canonical names) (cwd : Names) :
    t.LeadsTo cwd (Path.render names) names := by
  obtain ⟨e, -, hstat⟩ := h.stat_eq cwd
  exact ⟨e, hstat⟩

theorem render_inj (h : t.Canonical names) (h' : t.Canonical names') :
    Path.render names = Path.render names' ↔ names = names' := by
  refine ⟨fun heq => ?_, fun heq => by rw [heq]⟩
  rw [← Path.resolve_render [] h.proper, heq, Path.resolve_render [] h'.proper]

theorem render_eq_iff_sameFile (h : t.Canonical names) (h' : t.Canonical names') :
    Path.render names = Path.render names' ↔
      t.SameFile cwd (Path.render names) (Path.render names') := by
  rw [h.render_inj h', (h.leadsTo cwd).sameFile_iff (h'.leadsTo cwd)]

theorem get?_ne_link (h : t.Canonical names) {p : Names} (hp : p <+: names) (target : String) :
    t.get? p ≠ some (.link target) := by
  by_cases heq : p = names
  · subst heq
    obtain ⟨e, he, hlink⟩ := h.exists_entry
    rw [he]
    simpa using hlink target
  · rw [h.standing.directory_above (by simpa using hp) (by simpa using heq)]
    simp

theorem namesFile (h : t.Canonical names)
    (hregular : ∃ content, t.get? names = some (.file content)) {root : Names}
    (hbelow : root <+: names) (cwd : Names) :
    t.NamesFile cwd root (Path.render names) names where
  text := rfl
  absolute := Path.isAbsolute_render names
  proper := h.proper
  unlinked _ target hp := h.get?_ne_link hp target
  regular := by
    obtain ⟨content, hcontent⟩ := hregular
    obtain ⟨e, he, hstat⟩ := h.stat_eq cwd
    rw [hcontent] at he
    cases he
    exact ⟨content, hstat⟩
  below := hbelow

end Canonical
end FileTree

namespace Resolver

variable {cwd : Names} {root : String} {d : Directive}

/-- The names that a directive's path stands for, before any link is followed. -/
def aim (cwd : Names) (root : String) (d : Directive) : Names :=
  if Path.isAbsolute d.rawPath then below cwd root d.rawPath
  else Path.resolve (Path.resolve cwd (Path.parent d.sourceFile)) d.rawPath

theorem candidate_eq_aim (hroot : Path.isAbsolute root = true) :
    candidate cwd root d = Path.render (aim cwd root d) ∨
      candidate cwd root d = Path.render (aim cwd root d) ++ "/" := by
  cases h : Path.isAbsolute d.rawPath with
  | true =>
    rw [aim, if_pos h]
    exact candidate_of_isAbsolute hroot h
  | false =>
    rw [aim, h, if_neg Bool.false_ne_true]
    exact .inl (candidate_of_not_isAbsolute h)

theorem resolve_candidate (hroot : Path.isAbsolute root = true) :
    Path.resolve cwd (candidate cwd root d) =
      Path.resolve cwd (Path.render (aim cwd root d)) := by
  rcases @candidate_eq_aim cwd root d hroot with h | h
  · rw [h]
  · rw [h, Path.resolve_trailing_slash (Path.render_ne_empty _)]

theorem aim_of_render {rest : Names} (hrest : ∀ n ∈ rest, Path.Proper n)
    (h : d.rawPath = Path.render rest) : aim cwd root d = Path.resolve cwd root ++ rest := by
  rw [aim, h, Path.isAbsolute_render, if_pos rfl, below]
  by_cases hne : rest = []
  · subst hne
    simp [Path.walk]
  · rw [Path.segments_render hne hrest, Path.walk, if_pos (.inl rfl), Path.walk_of_proper hrest]
    simp

end Resolver

namespace Machine

/-- What the path of a directive leads to: a canonical place below the root where a regular file
stands. -/
structure Arrives (s : Machine) (cwd : Names) (r : Resolver) (d : Directive) (names : Names) :
    Prop where
  canonical : s.tree.Canonical names
  regular : ∃ content, s.tree.get? names = some (.file content)
  below : Path.resolve [] r.root <+: names
  realpath : s.tree.realpath cwd (Resolver.candidate cwd r.root d) = .ok names

section resolving

variable {s : Machine} (hs : s.Steady) {cwd : Names} {r : Resolver}
  (hroot : Path.isAbsolute r.root = true) {d d' : Directive} {p p' : String} {names : Names}
include hs hroot

theorem arrives_of_resolved (h : s.resolved cwd r d = .ok p) :
    ∃ names, p = Path.render names ∧ s.Arrives cwd r d names := by
  rw [resolved_eq hs] at h
  obtain ⟨names, content, rfl, hcanonical, hget, hbelow⟩ := regular_of_targetOf hs hroot h
  obtain ⟨-, hreal, -⟩ := Resolver.targetOf_eq_ok_iff.mp h
  obtain ⟨place, hsame, hplace⟩ := exists_place_of_realpath hs hreal
  have habs : Path.isAbsolute (Resolver.candidate cwd r.root d) = true :=
    Resolver.isAbsolute_candidate hroot
  have hcanonical' := FileTree.canonical_of_realpath habs hplace
  obtain rfl := (hcanonical.render_inj hcanonical').mp hsame
  exact ⟨names, rfl, hcanonical, ⟨content, hget⟩, hbelow, hplace⟩

/-- A directive whose path stands for the names of a file that was resolved resolves to it. -/
theorem resolved_of_aim (h : s.resolved cwd r d = .ok (Path.render names))
    (hcanonical : s.tree.Canonical names)
    (hmakes : s.Makes cwd .realpath (Path.render names))
    (haim : Resolver.aim cwd r.root d' = names) :
    s.resolved cwd r d' = .ok (Path.render names) := by
  rw [resolved_eq hs] at h ⊢
  obtain ⟨-, -, hwithin, hfile, hread⟩ := Resolver.targetOf_eq_ok_iff.mp h
  have hreal : (s.view cwd).realpath (Path.render names) = Except.ok (Path.render names) := by
    rw [answersIn_realpath hs, answer_of_makes hmakes, realpathIn,
      (FileTree.realpath_render_iff hcanonical.proper).mpr hcanonical]
  have hresolve : Path.resolve cwd (Resolver.candidate cwd r.root d') =
      Path.resolve cwd (Path.render names) := by
    rw [Resolver.resolve_candidate hroot, haim]
  have hcandidate := @Resolver.candidate_eq_aim cwd r.root d' hroot
  rw [haim] at hcandidate
  refine Resolver.targetOf_eq_ok_iff.mpr ⟨?_, ?_, hwithin, hfile, hread⟩
  · show Path.isWithinRoot cwd r.root (Resolver.candidate cwd r.root d') = true
    rw [Path.isWithinRoot, hresolve]
    exact hwithin
  · rcases answersIn_realpath_slash hs (Path.render_ne_empty names) hcandidate with
      heq | ⟨text, text', -, herror⟩
    · exact heq.trans hreal
    · rw [hreal] at herror
      cases herror

theorem resolved_eq_iff_sameFile (h : s.resolved cwd r d = .ok p)
    (h' : s.resolved cwd r d' = .ok p') : p = p' ↔ s.tree.SameFile cwd p p' := by
  obtain ⟨names, rfl, harrives⟩ := arrives_of_resolved hs hroot h
  obtain ⟨names', rfl, harrives'⟩ := arrives_of_resolved hs hroot h'
  exact harrives.canonical.render_eq_iff_sameFile harrives'.canonical

omit hs in
theorem Arrives.leadsTo (h : s.Arrives cwd r d names)
    (hphysical : s.tree.Physical cwd (Resolver.aim cwd r.root d)) :
    s.tree.LeadsTo cwd (Path.render (Resolver.aim cwd r.root d)) names := by
  apply hphysical
  rw [← h.realpath, FileTree.realpath, FileTree.realpath, Resolver.resolve_candidate hroot]

theorem resolved_eq_iff_sameFile_aim (h : s.resolved cwd r d = .ok p)
    (h' : s.resolved cwd r d' = .ok p')
    (hphysical : s.tree.Physical cwd (Resolver.aim cwd r.root d))
    (hphysical' : s.tree.Physical cwd (Resolver.aim cwd r.root d')) :
    p = p' ↔ s.tree.SameFile cwd (Path.render (Resolver.aim cwd r.root d))
      (Path.render (Resolver.aim cwd r.root d')) := by
  obtain ⟨names, rfl, harrives⟩ := arrives_of_resolved hs hroot h
  obtain ⟨names', rfl, harrives'⟩ := arrives_of_resolved hs hroot h'
  have hleads := harrives.leadsTo hroot hphysical
  have hleads' := harrives'.leadsTo hroot hphysical'
  rw [hleads.sameFile_iff hleads', harrives.canonical.render_inj harrives'.canonical]

theorem resolved_again (hmakes : s.Makes cwd .realpath p) (h : s.resolved cwd r d = .ok p)
    (harrives : s.Arrives cwd r d names) (hp : p = Path.render names) :
    (∀ (d' : Directive) (rest : Names), d'.rawPath = Path.render rest →
      names = Path.resolve [] r.root ++ rest → s.resolved cwd r d' = .ok p) ∧
    ∀ d' : Directive, Path.isAbsolute d'.rawPath = false →
      Path.resolve (Path.resolve cwd (Path.parent d'.sourceFile)) d'.rawPath = names →
      s.resolved cwd r d' = .ok p := by
  subst hp
  have hproper := harrives.canonical.proper
  have hagain (d' : Directive) (haim : Resolver.aim cwd r.root d' = names) :
      s.resolved cwd r d' = .ok (Path.render names) :=
    resolved_of_aim hs hroot h harrives.canonical hmakes haim
  refine ⟨fun d' rest hraw hnames => hagain d' ?_, fun d' hrelative hnames => hagain d' ?_⟩
  · have hrest : ∀ n ∈ rest, Path.Proper n := fun n hn => hproper n (by simp [hnames, hn])
    rw [Resolver.aim_of_render hrest hraw, Path.resolve_of_isAbsolute hroot cwd [], hnames]
  · rw [Resolver.aim, hrelative, if_neg Bool.false_ne_true, hnames]

end resolving

end Machine

namespace Preprocessor

open Expansion

theorem pairwise_of_inside {s : Machine} (hs : s.Steady) {cwd : Names} {c : Config}
    {input file : String} {r : Resolver} (hfile : fileOf (s.view cwd) input = .ok file)
    (hr : resolverOf (s.view cwd) c = .ok r) {visit : Visit}
    (h : visit.Inside (s.view cwd) r (opening c file)) :
    visit.stack.Pairwise fun a b => ¬s.tree.SameFile cwd a b := by
  obtain ⟨inner, hstack, hkept, htargets⟩ := h
  have hroot := Machine.isAbsolute_of_resolverOf hs hr
  have hcanonical : ∀ a ∈ file :: inner, ∃ names, a = Path.render names ∧
      s.tree.Canonical names := by
    refine List.forall_mem_cons.mpr ⟨Machine.canonical_of_fileOf hs hfile, fun target ht => ?_⟩
    obtain ⟨d, hd⟩ := htargets target ht
    obtain ⟨names, -, hnames, hcanonical, -⟩ := Machine.regular_of_targetOf hs hroot hd
    exact ⟨names, hnames, hcanonical⟩
  -- the ledger compares texts, which is as good as comparing files
  rw [hstack, Ledger.pushAll_stack, opening_stack, List.singleton_append]
  refine List.Pairwise.imp_of_mem ?_ (nodup_of_kept_opening hkept)
  intro a b ha hb hne hsame
  obtain ⟨names, rfl, hnames⟩ := hcanonical a ha
  obtain ⟨names', rfl, hnames'⟩ := hcanonical b hb
  exact hne ((hnames.render_eq_iff_sameFile hnames').mpr hsame)

/-- What is resolved is the one name of its file. It is the canonical path of a regular file at or
below the root; if the system makes it canonical again, that file resolves to the same text again,
told from the root by any file or told by a relative path with these names; so two results are the
same text exactly if they are the same file, which is the one that the paths of the directives lead
to where links are followed as the system follows them; and no file is open twice in a run, under
whatever names. -/
theorem resolved_names_file {s : Machine} (hs : s.Steady) (cwd : Names) {r : Resolver}
    (hroot : Path.isAbsolute r.root = true) :
    (∀ (d : Directive) (p : String), s.resolved cwd r d = .ok p →
      ∃ names, s.tree.NamesFile cwd (Path.resolve [] r.root) p names ∧
        (s.Makes cwd .realpath p →
          (∀ (d' : Directive) (rest : Names), d'.rawPath = Path.render rest →
            names = Path.resolve [] r.root ++ rest → s.resolved cwd r d' = .ok p) ∧
          ∀ d' : Directive, Path.isAbsolute d'.rawPath = false →
            Path.resolve (Path.resolve cwd (Path.parent d'.sourceFile)) d'.rawPath = names →
            s.resolved cwd r d' = .ok p)) ∧
    (∀ (d d' : Directive) (p p' : String), s.resolved cwd r d = .ok p →
      s.resolved cwd r d' = .ok p' →
      (p = p' ↔ s.tree.SameFile cwd p p') ∧
      (s.tree.Physical cwd (Resolver.aim cwd r.root d) →
        s.tree.Physical cwd (Resolver.aim cwd r.root d') →
        (p = p' ↔ s.tree.SameFile cwd (Path.render (Resolver.aim cwd r.root d))
          (Path.render (Resolver.aim cwd r.root d'))))) ∧
    ∀ (o : Options) (input : String) (c : Config) (file : String) (base : Resolver)
      (out : Except Thrown (List String)) (visits : List Visit),
      Config.forInput cwd o input = .ok c → fileOf (s.view cwd) input = .ok file →
      resolverOf (s.view cwd) c = .ok base →
      Course (s.view cwd) base c.marks (opening c file) (.file file) out visits →
      ∀ visit ∈ visits, visit.stack.Pairwise fun a b => ¬s.tree.SameFile cwd a b := by
  refine ⟨?_, ?_, ?_⟩
  · intro d p h
    obtain ⟨names, hp, harrives⟩ := Machine.arrives_of_resolved hs hroot h
    refine ⟨names, ?_, fun hmakes => Machine.resolved_again hs hroot hmakes h harrives hp⟩
    rw [hp]
    exact harrives.canonical.namesFile harrives.regular harrives.below cwd
  · intro d d' p p' h h'
    exact ⟨Machine.resolved_eq_iff_sameFile hs hroot h h',
      Machine.resolved_eq_iff_sameFile_aim hs hroot h h'⟩
  · intro o input c file base out visits hc hfile hbase hcourse visit hvisit
    have hkept := kept_opening (Config.isPositiveInteger_of_forInput hc) file
    exact pairwise_of_inside hs hfile hbase (hcourse.inside hkept visit hvisit)

def woven : Machine :=
  { tree := ⟨[(["w"], .directory), (["w", "a"], .file (Text.encodeUtf8 "#include k")),
      (["w", "real"], .directory), (["w", "real", "f"], .file []), (["w", "l"], .link "real"),
      (["w", "k"], .link "../w/l/f")]⟩ }

def crossing : Directive := ⟨.count 1, "k", .bare, "/w/a"⟩

def roundabout : Directive := ⟨.count 7, "/real/../l/f", .bare, "/x/y"⟩

theorem woven_resolved_names_file :
    woven.resolved [] ⟨"/w"⟩ crossing = .ok "/w/real/f" ∧
      woven.resolved [] ⟨"/w"⟩ roundabout = .ok "/w/real/f" ∧
      woven.resolved [] ⟨"/w"⟩ ⟨.count 2, "/real/f", .bare, "z"⟩ = .ok "/w/real/f" ∧
      woven.resolved [] ⟨"/w"⟩ ⟨.count 2, "../real/f", .bare, "/w/l/z"⟩ = .ok "/w/real/f" ∧
      woven.tree.SameFile [] "/w/k" "/w/l/f" ∧
      ∃ out visits, Course (woven.view []) ⟨"/w"⟩ false
          (opening ⟨.bool false, .count 100, ["w"]⟩ "/w/a") (.file "/w/a") out visits ∧
        ∀ visit ∈ visits, visit.stack.Pairwise fun a b => ¬woven.tree.SameFile [] a b := by
  have hs : woven.Steady := Machine.steady_of_faults_eq_nil rfl
  have hmakes : woven.Makes [] .realpath "/w/real/f" := ⟨rfl, by decide⟩
  have hcrossing : woven.resolved [] ⟨"/w"⟩ crossing = .ok "/w/real/f" := by rfl
  have hroundabout : woven.resolved [] ⟨"/w"⟩ roundabout = .ok "/w/real/f" := by rfl
  obtain ⟨hname, hsame, hrun⟩ := resolved_names_file hs [] (r := ⟨"/w"⟩) (by decide)
  obtain ⟨names, hnames, hagain⟩ := hname crossing _ hcrossing
  obtain rfl : ["w", "real", "f"] = names := by
    rw [← Path.resolve_render [] hnames.proper, ← hnames.text]
    rfl
  obtain ⟨habsolute, hrelative⟩ := hagain hmakes
  have hk : woven.tree.Physical [] (Resolver.aim [] "/w" crossing) :=
    FileTree.physical_of_realpath ["w", "real", "f"] rfl ⟨_, rfl⟩
  have hf : woven.tree.Physical [] (Resolver.aim [] "/w" roundabout) :=
    FileTree.physical_of_realpath ["w", "real", "f"] rfl ⟨_, rfl⟩
  have hc : Config.forInput [] { baseDirectory := .text "/w" } "/w/a" =
      .ok ⟨.bool false, .count 100, ["w"]⟩ := by rfl
  have hkept := kept_opening (Config.isPositiveInteger_of_forInput hc) "/w/a"
  obtain ⟨out, visits, hcourse⟩ := @exists_course (woven.view []) ⟨"/w"⟩ false _ hkept "/w/a"
  refine ⟨hcrossing, hroundabout, habsolute _ ["real", "f"] rfl rfl, hrelative _ rfl rfl, ?_,
    out, visits, hcourse, ?_⟩
  · exact ((hsame crossing roundabout _ _ hcrossing hroundabout).2 hk hf).mp rfl
  · exact hrun { baseDirectory := .text "/w" } "/w/a" _ "/w/a" ⟨"/w"⟩ out visits hc rfl rfl hcourse

end Preprocessor
end Inliner
