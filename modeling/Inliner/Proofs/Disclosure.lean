import Inliner.Proofs.Confinement
import Inliner.Proofs.Straying.Realpath

/-! What resolving a directive tells about the world outside the root. A link that leads out is
refused differently when what it leads to is missing; nothing else depends on that world. -/
namespace Inliner
namespace FileTree

theorem agreeIn_near {t t' : FileTree} {root : Names} (h : t.Canonical root)
    (h' : t'.Canonical root) (hbelow : ∀ p, root <+: p → t'.get? p = t.get? p) :
    AgreeIn (Region.near root) t t' := by
  intro p hp
  rcases hp with hp | hp
  · exact hbelow p hp
  · by_cases heq : p = root
    · subst heq
      exact hbelow p List.prefix_rfl
    · have hdir := h.standing.directory_above (p := p) (by simpa using hp) (by simpa using heq)
      have hdir' := h'.standing.directory_above (p := p) (by simpa using hp) (by simpa using heq)
      rw [hdir, hdir']

theorem canonical_of_agreeIn {t t' : FileTree} {root names : Names}
    (h : AgreeIn (Region.near root) t t') (hn : (Region.near root).inside names)
    (hc : t.Canonical names) : t'.Canonical names :=
  hc.congr fun p hp => h p ((Region.near root).inside_above hn hp)

end FileTree

namespace Machine

/-- The call is made on the tree: no fault is due, and the path holds no NUL. -/
def Makes (s : Machine) (cwd : Names) (call : Call) (path : String) : Prop :=
  Fault.take? call (Path.render (Path.resolve cwd path)) s.faults = none ∧
    Char.ofNat 0 ∉ path.toList

theorem answer_of_makes {s : Machine} {cwd : Names} {call : Call} {path : String} {α : Type}
    {action : FileTree → Except Thrown α} (h : s.Makes cwd call path) :
    s.answer cwd call path action = action s.tree := by
  have hnul : ¬path.toList.contains (Char.ofNat 0) = true := by simpa using h.2
  rw [answer, h.1]
  exact if_neg hnul

theorem answer_of_not_makes {s : Machine} {cwd : Names} {call : Call} {path : String} {α : Type}
    {action : FileTree → Except Thrown α} (h : ¬s.Makes cwd call path) (t : FileTree) :
    ∃ e, s.answer cwd call path action = .error e ∧
      { s with tree := t }.answer cwd call path action = .error e := by
  unfold answer
  cases hf : Fault.take? call (Path.render (Path.resolve cwd path)) s.faults with
  | some found => exact ⟨found.1, rfl, rfl⟩
  | none =>
    have hnul : path.toList.contains (Char.ofNat 0) = true := by
      by_contra hnul
      exact h ⟨hf, by simpa using hnul⟩
    simp only [hnul, if_true]
    exact ⟨_, rfl, rfl⟩

theorem makes_of_answer {s : Machine} {cwd : Names} {call : Call} {path : String} {α : Type}
    {action : FileTree → Except Thrown α} {a : α} (h : s.answer cwd call path action = .ok a) :
    s.Makes cwd call path := by
  by_contra hmakes
  obtain ⟨e, he, -⟩ := @answer_of_not_makes s cwd call path α action hmakes s.tree
  rw [h] at he
  cases he

theorem statIn_of_agreeIn {t t' : FileTree} {root names : Names}
    (hagree : FileTree.AgreeIn (.near root) t t') (hn : root <+: names) (hc : t.Canonical names)
    (cwd : Names) (call : String) :
    statIn cwd call (Path.render names) t' = statIn cwd call (Path.render names) t := by
  have hc' : t'.Canonical names := FileTree.canonical_of_agreeIn hagree (.inl hn) hc
  obtain ⟨e, he, hstat⟩ := hc.stat_eq cwd
  obtain ⟨e', he', hstat'⟩ := hc'.stat_eq cwd
  have hsame : e' = e := by
    rw [hagree names (.inl hn), he] at he'
    exact (Option.some.inj he').symm
  rw [statIn, statIn, hstat, hstat', hsame]

section resolving

variable {s : Machine} (hs : s.Steady) {root cwd : Names} {d : Directive}
include hs

theorem resolved_of_not_within
    (hw : Path.isWithinRoot cwd (Path.render root)
      (Resolver.candidate cwd (Path.render root) d) = false) :
    s.resolved cwd ⟨Path.render root⟩ d = .error (Resolver.escaped d) := by
  rw [resolved_eq hs]
  exact Resolver.targetOf_of_not_within (r := ⟨Path.render root⟩) (v := s.view cwd) hw

theorem resolved_of_outside (hroot : s.tree.Canonical root) {names : Names}
    (hm : s.Makes cwd .realpath (Resolver.candidate cwd (Path.render root) d))
    (hreal : s.tree.realpath cwd (Resolver.candidate cwd (Path.render root) d) = .ok names)
    (hout : ¬root <+: names) :
    s.resolved cwd ⟨Path.render root⟩ d = .error (Resolver.escaped d) := by
  cases hw : Path.isWithinRoot cwd (Path.render root)
    (Resolver.candidate cwd (Path.render root) d) with
  | false => exact resolved_of_not_within hs hw
  | true =>
    have habs : Path.isAbsolute (Resolver.candidate cwd (Path.render root) d) = true :=
      Resolver.isAbsolute_candidate (Path.isAbsolute_render root)
    have hproper := (FileTree.canonical_of_realpath habs hreal).proper
    have hanswer : (s.view cwd).realpath (Resolver.candidate cwd (Path.render root) d) =
        Except.ok (Path.render names) := by
      rw [answersIn_realpath hs, answer_of_makes hm, realpathIn, hreal]
    have houtside : Path.isWithinRoot cwd (Path.render root) (Path.render names) = false := by
      rw [← Bool.not_eq_true, Path.isWithinRoot_render_iff hproper,
        Path.resolve_render cwd hroot.proper]
      exact hout
    rw [resolved_eq hs]
    exact Resolver.targetOf_of_escape (r := ⟨Path.render root⟩) (v := s.view cwd) hw hanswer
      houtside

theorem resolved_of_stop {stop : FileTree.Stop}
    (hw : Path.isWithinRoot cwd (Path.render root)
      (Resolver.candidate cwd (Path.render root) d) = true)
    (hm : s.Makes cwd .realpath (Resolver.candidate cwd (Path.render root) d))
    (hstop : s.tree.realpath cwd (Resolver.candidate cwd (Path.render root) d) = .error stop) :
    s.resolved cwd ⟨Path.render root⟩ d =
      .error (.failure ((thrownBy stop).onPath (Resolver.candidate cwd (Path.render root) d)
        (some d.location))) := by
  have hanswer : (s.view cwd).realpath (Resolver.candidate cwd (Path.render root) d) =
      Except.error (thrownBy stop) := by
    rw [answersIn_realpath hs, answer_of_makes hm, realpathIn, hstop]
  rw [resolved_eq hs]
  exact Resolver.targetOf_of_realpath_error (r := ⟨Path.render root⟩) (v := s.view cwd) hw hanswer

theorem resolved_eq_of_realpath_eq (hroot : s.tree.Canonical root) {t : FileTree}
    (hagree : FileTree.AgreeIn (.near root) s.tree t)
    (hreal : { s with tree := t }.answer cwd .realpath
        (Resolver.candidate cwd (Path.render root) d)
        (realpathIn cwd (Resolver.candidate cwd (Path.render root) d)) =
      s.answer cwd .realpath (Resolver.candidate cwd (Path.render root) d)
        (realpathIn cwd (Resolver.candidate cwd (Path.render root) d))) :
    { s with tree := t }.resolved cwd ⟨Path.render root⟩ d =
      s.resolved cwd ⟨Path.render root⟩ d := by
  have hs' := hs.withTree t
  rw [← answersIn_realpath hs, ← answersIn_realpath hs'] at hreal
  rw [resolved_eq hs, resolved_eq hs']
  refine Resolver.targetOf_congr (v := s.view cwd) rfl hreal fun canonical hc hw => ?_
  obtain ⟨names, rfl, hnames⟩ := canonical_of_realpath hs
    (Resolver.isAbsolute_candidate (Path.isAbsolute_render root)) hc
  have hbelow : root <+: names := by
    have hw' := (Path.isWithinRoot_render_iff hnames.proper).mp hw
    rwa [Path.resolve_render _ hroot.proper] at hw'
  have hstat (call : String) := statIn_of_agreeIn hagree hbelow hnames cwd call
  rw [answersIn_isFile hs, answersIn_isFile hs', answersIn_assertReadable hs,
    answersIn_assertReadable hs']
  constructor
  · refine answer_with_tree ?_
    rw [isFileIn, isFileIn, hstat]
  · refine answer_with_tree ?_
    rw [accessIn, accessIn, hstat]

/-- Trees that agree near the root resolve alike what does not look elsewhere. -/
theorem resolved_eq_of_agreeIn (hroot : s.tree.Canonical root) {t : FileTree}
    (hagree : FileTree.AgreeIn (.near root) s.tree t)
    (h : Path.isWithinRoot cwd (Path.render root)
        (Resolver.candidate cwd (Path.render root) d) = false ∨
      ¬s.Makes cwd .realpath (Resolver.candidate cwd (Path.render root) d) ∨
      ¬s.tree.Strays (.near root) (Resolver.candidate cwd (Path.render root) d)) :
    { s with tree := t }.resolved cwd ⟨Path.render root⟩ d =
      s.resolved cwd ⟨Path.render root⟩ d := by
  rcases h with hw | hm | hstays
  · rw [resolved_of_not_within hs hw]
    exact resolved_of_not_within (hs.withTree t) hw
  · refine resolved_eq_of_realpath_eq hs hroot hagree ?_
    obtain ⟨e, he, he'⟩ := answer_of_not_makes hm t
    exact he'.trans he.symm
  · refine resolved_eq_of_realpath_eq hs hroot hagree (answer_with_tree ?_)
    have habs : Path.isAbsolute (Resolver.candidate cwd (Path.render root) d) = true :=
      Resolver.isAbsolute_candidate (Path.isAbsolute_render root)
    rw [realpathIn, realpathIn, FileTree.realpath_eq_of_not_strays hagree habs hstays]

/-- A candidate whose links lead out is refused for different reasons, by what stands outside. -/
theorem exists_resolved_ne_of_strays
    (hw : Path.isWithinRoot cwd (Path.render root)
      (Resolver.candidate cwd (Path.render root) d) = true)
    (hm : s.Makes cwd .realpath (Resolver.candidate cwd (Path.render root) d))
    (h : s.tree.Strays (.near root) (Resolver.candidate cwd (Path.render root) d)) :
    ∃ t t' : FileTree, FileTree.AgreeIn (.near root) s.tree t ∧
      FileTree.AgreeIn (.near root) s.tree t' ∧
      { s with tree := t }.resolved cwd ⟨Path.render root⟩ d ≠
        { s with tree := t' }.resolved cwd ⟨Path.render root⟩ d := by
  have habs : Path.isAbsolute (Resolver.candidate cwd (Path.render root) d) = true :=
    Resolver.isAbsolute_candidate (Path.isAbsolute_render root)
  obtain ⟨⟨t, call, p, hagree, hstop⟩, t', call', p', hagree', hstop'⟩ :=
    FileTree.realpath_of_strays habs h cwd
  refine ⟨t, t', hagree, hagree', fun heq => ?_⟩
  have hends := resolved_of_stop (hs.withTree t) hw hm hstop
  have hends' := resolved_of_stop (hs.withTree t') hw hm hstop'
  rw [hends, hends'] at heq
  simp [thrownBy, Errno.inCall, Errno.code, Thrown.onPath, Problem.ofCode] at heq

end resolving

/-- Resolving tells nothing of what stands outside the root exactly if the candidate leaves it by
its own segments, is not looked up, or is made canonical without a look outside; and what leaves
the root, by segments or through a link that leads somewhere, is not found under its raw path. -/
theorem resolve_independent_iff {s : Machine} (hs : s.Steady) {root : Names}
    (hroot : s.tree.Canonical root) (cwd : Names) (d : Directive) :
    ((∀ t : FileTree, t.Canonical root → (∀ p, root <+: p → t.get? p = s.tree.get? p) →
      { s with tree := t }.resolved cwd ⟨Path.render root⟩ d =
        s.resolved cwd ⟨Path.render root⟩ d) ↔
      Path.isWithinRoot cwd (Path.render root)
        (Resolver.candidate cwd (Path.render root) d) = false ∨
      ¬s.Makes cwd .realpath (Resolver.candidate cwd (Path.render root) d) ∨
      ¬s.tree.Strays (.near root) (Resolver.candidate cwd (Path.render root) d)) ∧
    (Path.isWithinRoot cwd (Path.render root)
        (Resolver.candidate cwd (Path.render root) d) = false →
      s.resolved cwd ⟨Path.render root⟩ d =
        .error (.ofProblem (.notFound d.rawPath (some d.location)))) ∧
    ∀ names, s.Makes cwd .realpath (Resolver.candidate cwd (Path.render root) d) →
      s.tree.realpath cwd (Resolver.candidate cwd (Path.render root) d) = .ok names →
      ¬root <+: names →
      s.resolved cwd ⟨Path.render root⟩ d =
        .error (.ofProblem (.notFound d.rawPath (some d.location))) := by
  refine ⟨⟨fun h => ?_, fun h t ht hbelow => ?_⟩, resolved_of_not_within hs,
    fun names => resolved_of_outside hs hroot⟩
  · by_contra hcon
    simp only [not_or, not_not, Bool.not_eq_false] at hcon
    obtain ⟨hw, hm, hstrays⟩ := hcon
    obtain ⟨t, t', hagree, hagree', hne⟩ := exists_resolved_ne_of_strays hs hw hm hstrays
    have hnear : (FileTree.Region.near root).inside root := .inl List.prefix_rfl
    have hsame (t : FileTree) (hagree : FileTree.AgreeIn (.near root) s.tree t) :=
      h t (FileTree.canonical_of_agreeIn hagree hnear hroot) fun p hp => hagree p (.inl hp)
    exact hne ((hsame t hagree).trans (hsame t' hagree').symm)
  · exact resolved_eq_of_agreeIn hs hroot (FileTree.agreeIn_near hroot ht hbelow) h

/-- A base directory `/w` with a link that leads to a file outside, which is missing. -/
def dangling : Machine :=
  { tree := ⟨[(["w"], .directory), (["w", "link"], .link "/out/secret")]⟩ }

def askLink : Directive := ⟨.count 1, "link", .bare, "/w/main.sh"⟩

theorem canonical_dangling : dangling.tree.Canonical ["w"] := by
  refine ⟨.step .root ⟨by decide, by decide, by decide, by decide⟩ ?_ rfl rfl (by simp), ?_⟩
  · cbv
  · cbv

theorem candidate_askLink : Resolver.candidate [] (Path.render ["w"]) askLink = "/w/link" := by cbv

theorem strays_askLink : dangling.tree.Strays (.near ["w"])
    (Resolver.candidate [] (Path.render ["w"]) askLink) := by
  have hw : FileTree.Opens dangling.tree [] "w" :=
    ⟨rfl, ⟨by decide, by decide, by decide, by decide⟩, by cbv⟩
  have hlink : FileTree.Opens dangling.tree ["w"] "link" :=
    ⟨rfl, ⟨by decide, by decide, by decide, by decide⟩, by cbv⟩
  have hout : FileTree.Opens dangling.tree [] "out" :=
    ⟨rfl, ⟨by decide, by decide, by decide, by decide⟩, by cbv⟩
  have hnear : (FileTree.Region.near ["w"]).inside ["w"] := .inl (by decide)
  have hbelow : (FileTree.Region.near ["w"]).inside ["w", "link"] := .inl (by decide)
  have houtside : ¬(FileTree.Region.near ["w"]).inside ["out"] := by
    rintro (h | h)
    · exact absurd h (by decide)
    · exact absurd h (by decide)
  have htarget : Path.segments "/out/secret" = ["", "out", "secret"] := by cbv
  have hsegments : Path.segments (Path.render ["w", "link"]) = ["", "w", "link"] := by cbv
  have hnames : Path.resolve [] "/w/link" = ["w", "link"] := by cbv
  have hwalk : FileTree.WalkStrays dangling.tree (.near ["w"]) FileTree.linkLimit []
      ["", "w", "link"] ["out"] := by
    refine .dot rfl (.inl rfl) (.down hw hnear rfl (by simp) (.link hlink hbelow rfl ?_))
    rw [htarget]
    exact .dot rfl (.inl rfl) (.name hout houtside)
  rw [candidate_askLink]
  refine ⟨0, ["out"], ?_⟩
  rw [hnames]
  refine .down (by cbv) hw hnear rfl (by simp) (.stat (by cbv) hlink hbelow rfl ?_)
  show FileTree.WalkStrays _ _ _ _ (Path.segments (Path.render ["w", "link"])) _
  rw [hsegments]
  exact hwalk

theorem isWithinRoot_askLink : Path.isWithinRoot [] (Path.render ["w"])
    (Resolver.candidate [] (Path.render ["w"]) askLink) = true := by cbv

theorem makes_askLink {s : Machine} (h : s.faults = []) :
    s.Makes [] .realpath (Resolver.candidate [] (Path.render ["w"]) askLink) := by
  rw [candidate_askLink, Makes, h]
  exact ⟨rfl, by decide⟩

theorem dangling_resolve_independent_iff :
    dangling.Steady ∧ dangling.tree.Canonical ["w"] ∧
    dangling.Makes [] .realpath (Resolver.candidate [] (Path.render ["w"]) askLink) ∧
    ¬∀ t : FileTree, t.Canonical ["w"] → (∀ p, ["w"] <+: p → t.get? p = dangling.tree.get? p) →
      { dangling with tree := t }.resolved [] ⟨Path.render ["w"]⟩ askLink =
        dangling.resolved [] ⟨Path.render ["w"]⟩ askLink := by
  have hs : dangling.Steady := steady_of_faults_eq_nil rfl
  have hm := makes_askLink (s := dangling) rfl
  refine ⟨hs, canonical_dangling, hm, fun h => ?_⟩
  rcases (resolve_independent_iff hs canonical_dangling [] askLink).1.mp h with hout | hnot | hstays
  · rw [isWithinRoot_askLink] at hout
    cases hout
  · exact hnot hm
  · exact hstays strays_askLink

def filled : Machine :=
  { tree := (dangling.tree.set ["out"] .directory).set ["out", "secret"] (.file []) }

theorem get?_filled {p : Names} (h : ["w"] <+: p ∨ p <+: ["w"]) :
    filled.tree.get? p = dangling.tree.get? p := by
  have hsecret : p ≠ ["out", "secret"] := by
    rintro rfl
    revert h
    decide
  have hout : p ≠ ["out"] := by
    rintro rfl
    revert h
    decide
  rw [filled, FileTree.get?_set _ (by simp), if_neg hsecret, FileTree.get?_set _ (by simp),
    if_neg hout]

/-- The link is told under its place below the root, with a cause, while its target is missing, and
under its raw path alone when the target is there. -/
theorem dangling_link_reveals :
    dangling.tree.Canonical ["w"] ∧ filled.tree.Canonical ["w"] ∧
    (∀ p, ["w"] <+: p → filled.tree.get? p = dangling.tree.get? p) ∧
    dangling.resolved [] ⟨Path.render ["w"]⟩ askLink =
      .error (.failure
        { problem := .notFound "/w/link" (some ⟨"/w/main.sh", .count 1⟩)
          causes := [.error "Error" "ENOENT: no such file or directory, stat '/w/link'"] }) ∧
    filled.resolved [] ⟨Path.render ["w"]⟩ askLink =
      .error (.failure { problem := .notFound "link" (some ⟨"/w/main.sh", .count 1⟩) }) := by
  have hcanonical : filled.tree.Canonical ["w"] :=
    canonical_dangling.congr fun p hp => get?_filled (.inr hp)
  have hstop : dangling.tree.realpath [] "/w/link" =
      .error (.failed .missing "stat" ["w", "link"]) := by cbv
  have hreal : filled.tree.realpath [] "/w/link" = .ok ["out", "secret"] := by cbv
  rw [← candidate_askLink] at hstop hreal
  refine ⟨canonical_dangling, hcanonical, fun p hp => get?_filled (.inl hp), ?_, ?_⟩
  · rw [resolved_of_stop (steady_of_faults_eq_nil rfl) isWithinRoot_askLink (makes_askLink rfl)
      hstop]
    cbv
  · exact resolved_of_outside (steady_of_faults_eq_nil rfl) hcanonical (makes_askLink rfl) hreal
      (by decide)

end Machine
end Inliner
