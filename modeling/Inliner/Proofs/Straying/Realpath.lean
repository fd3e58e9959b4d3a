import Inliner.Proofs.Restarts
import Inliner.Proofs.Straying.Walk

/-! Canonical paths that depend on what stands outside a region: a path whose links lead out tells
what stands at the first place outside. -/
namespace Inliner.FileTree

open Inliner.Path (Proper)

def entryAt (t : FileTree) : Except Errno Spot → Except Errno (Names × Entry)
  | .error e => .error e
  | .ok (.vacant _) => .error .missing
  | .ok (.found p) =>
    match t.get? p with
    | some e => .ok (p, e)
    | none => .error .missing

theorem stat_render {t : FileTree} {names : Names}
    (hshort : pathTooLong (Path.render names) = false) :
    t.stat [] (Path.render names) =
      t.entryAt (locateWithin t false linkLimit [] (Path.segments (Path.render names))) := by
  have hne : Path.render names ≠ "" := by
    intro he
    have habs := Path.isAbsolute_render names
    simp [he, Path.isAbsolute] at habs
  have hlocate : t.locate false [] (Path.render names) =
      locateWithin t false linkLimit [] (Path.segments (Path.render names)) := by
    rw [locate, if_neg hne, if_neg (by simp [hshort]), origin, Path.isAbsolute_render, if_pos rfl]
  have hstat : t.stat [] (Path.render names) =
      t.entryAt (t.locate false [] (Path.render names)) := rfl
  rw [hstat, hlocate]

section stat

variable {g : Region} {t t' : FileTree} {names : Names}
  (hshort : pathTooLong (Path.render names) = false) (hagree : AgreeIn g t t')
include hshort hagree

theorem stat_eq_of_not_strays
    (h : ∀ place, ¬WalkStrays t g linkLimit [] (Path.segments (Path.render names)) place) :
    t'.stat [] (Path.render names) = t.stat [] (Path.render names) := by
  obtain ⟨heq, hin⟩ := locateWithin_eq_of_not_strays hagree
    (show g.inside (List.reverse []) from g.root)
    (fun s hs => Path.slash_not_mem_of_mem_segments hs) h
  rw [stat_render hshort, stat_render hshort, heq]
  cases hspot : locateWithin t false linkLimit [] (Path.segments (Path.render names)) with
  | error e => rfl
  | ok spot =>
    cases spot with
    | vacant p => rfl
    | found p =>
      rw [entryAt, entryAt, hagree p (hin p hspot)]

theorem stat_of_strays {place : Names}
    (h : WalkStrays t g linkLimit [] (Path.segments (Path.render names)) place) :
    (t'.get? place = none → t'.stat [] (Path.render names) = .error .missing) ∧
    (t'.get? place = some (.link (Path.render place)) →
      t'.stat [] (Path.render names) = .error .linkLoop) := by
  obtain ⟨hnone, hself⟩ := h.ends hagree .root g.root
  rw [stat_render hshort]
  constructor
  · intro hplace
    rcases hnone hplace with heq | heq
    · rw [heq, entryAt]
    · rw [heq, entryAt]
  · intro hplace
    rw [hself hplace, entryAt]

end stat

/-- Replacing links on the way down `names` comes to look at `place`, the first place outside the
region. -/
inductive DescendStrays (t : FileTree) (g : Region) :
    (restarts : Nat) → (above : List String) → (names : Names) → (place : Names) → Prop
  | here {restarts : Nat} {above : List String} {n : String} {rest : Names}
      (short : pathTooLong (Path.render (n :: above).reverse) = false) (opens : Opens t above n)
      (out : ¬g.inside (n :: above).reverse) :
      DescendStrays t g restarts above (n :: rest) (n :: above).reverse
  | down {restarts : Nat} {above : List String} {n : String} {rest place : Names} {e : Entry}
      (short : pathTooLong (Path.render (n :: above).reverse) = false) (opens : Opens t above n)
      (within : g.inside (n :: above).reverse) (entry : t.get? (n :: above).reverse = some e)
      (plain : ∀ target, e ≠ .link target)
      (more : DescendStrays t g restarts (n :: above) rest place) :
      DescendStrays t g restarts above (n :: rest) place
  | stat {restarts : Nat} {above : List String} {n target : String} {rest place : Names}
      (short : pathTooLong (Path.render (n :: above).reverse) = false) (opens : Opens t above n)
      (within : g.inside (n :: above).reverse)
      (entry : t.get? (n :: above).reverse = some (.link target))
      (strays : WalkStrays t g linkLimit []
        (Path.segments (Path.render (n :: above).reverse)) place) :
      DescendStrays t g restarts above (n :: rest) place
  | restart {restarts : Nat} {above : List String} {n target : String} {rest place : Names}
      {found : Names × Entry}
      (short : pathTooLong (Path.render (n :: above).reverse) = false) (opens : Opens t above n)
      (within : g.inside (n :: above).reverse)
      (entry : t.get? (n :: above).reverse = some (.link target))
      (stays : ∀ place, ¬WalkStrays t g linkLimit []
        (Path.segments (Path.render (n :: above).reverse)) place)
      (leads : t.stat [] (Path.render (n :: above).reverse) = .ok found)
      (more : DescendStrays t g restarts [] (Path.resolve above.reverse target ++ rest) place) :
      DescendStrays t g (restarts + 1) above (n :: rest) place

theorem DescendStrays.not_inside {g : Region} {t : FileTree} {restarts : Nat}
    {above : List String} {names place : Names}
    (h : DescendStrays t g restarts above names place) : ¬g.inside place := by
  induction h with
  | here _ _ out => exact out
  | down _ _ _ _ _ _ ih => exact ih
  | stat _ _ _ _ strays => exact strays.not_inside
  | restart _ _ _ _ _ _ _ ih => exact ih

section steps

variable {t : FileTree} {restart : Names → Except Stop Names} {above : List String} {n : String}
  {rest : Names} (hshort : pathTooLong (Path.render (n :: above).reverse) = false)
  (hn : Opens t above n)
include hshort hn

theorem descend_vacant (he : t.get? (n :: above).reverse = none) :
    descend t restart above (n :: rest) =
      .error (.failed .missing "lstat" (n :: above).reverse) := by
  rw [descend]
  simp only [hshort, isDirectory, hn.directory, hn.short, BEq.rfl, Bool.not_true, if_false,
    Bool.false_eq_true, he]

theorem descend_down {e : Entry} (he : t.get? (n :: above).reverse = some e)
    (hl : ∀ target, e ≠ .link target) :
    descend t restart above (n :: rest) = descend t restart (n :: above) rest := by
  rw [descend]
  cases e with
  | link target => exact absurd rfl (hl target)
  | file content =>
    simp only [hshort, isDirectory, hn.directory, hn.short, BEq.rfl, Bool.not_true, if_false,
      Bool.false_eq_true, he]
  | directory =>
    simp only [hshort, isDirectory, hn.directory, hn.short, BEq.rfl, Bool.not_true, if_false,
      Bool.false_eq_true, he]

variable {target : String} (he : t.get? (n :: above).reverse = some (.link target))
include he

theorem descend_broken {e : Errno}
    (hstat : t.stat [] (Path.render (n :: above).reverse) = .error e) :
    descend t restart above (n :: rest) = .error (.failed e "stat" (n :: above).reverse) := by
  rw [descend]
  simp only [hshort, isDirectory, hn.directory, hn.short, BEq.rfl, Bool.not_true, if_false,
    Bool.false_eq_true, he, hstat]

theorem descend_link {found : Names × Entry}
    (hstat : t.stat [] (Path.render (n :: above).reverse) = .ok found) :
    descend t restart above (n :: rest) =
      restart (Path.resolve above.reverse target ++ rest) := by
  rw [descend]
  simp only [hshort, isDirectory, hn.directory, hn.short, BEq.rfl, Bool.not_true, if_false,
    Bool.false_eq_true, he, hstat]

end steps

theorem descend_eq_of_not_looks {t t' : FileTree} {restart restart' : Names → Except Stop Names}
    {above : List String} {n : String} {rest : Names}
    (habove : t'.get? above.reverse = t.get? above.reverse) (hn : Proper n)
    (h : ¬(pathTooLong (Path.render (n :: above).reverse) = false ∧ Opens t above n)) :
    descend t' restart' above (n :: rest) = descend t restart above (n :: rest) := by
  have hdir : t'.isDirectory above.reverse = t.isDirectory above.reverse := by
    rw [isDirectory, isDirectory, habove]
  rw [descend, descend, hdir]
  by_cases hshort : pathTooLong (Path.render (n :: above).reverse) = true
  · simp only [hshort, if_true]
  · by_cases hd : t.isDirectory above.reverse = true
    · have hlong : tooLong n = true := by
        by_contra hlong
        exact h ⟨by simpa using hshort, by simpa [isDirectory] using hd, hn, by simpa using hlong⟩
      simp only [hshort, hd, hlong, Bool.not_true, Bool.false_eq_true, if_false, if_true]
    · simp only [hshort, hd, Bool.not_false, Bool.false_eq_true, if_false, if_true]

section frame

variable {g : Region} {t t' : FileTree} (hagree : AgreeIn g t t')
include hagree

theorem descend_eq_of_not_strays {restarts : Nat} {restart restart' : Names → Except Stop Names}
    (hrestart : ∀ names, (∀ n ∈ names, Proper n) →
      (∀ k place, restarts = k + 1 → ¬DescendStrays t g k [] names place) →
      restart' names = restart names)
    {above : List String} {names : Names} (habove : g.inside above.reverse)
    (hproper : ∀ n ∈ above, Proper n) (hnames : ∀ n ∈ names, Proper n)
    (h : ∀ place, ¬DescendStrays t g restarts above names place) :
    descend t' restart' above names = descend t restart above names := by
  induction names generalizing above with
  | nil => rfl
  | cons n rest ih =>
    have hrest : ∀ x ∈ rest, Proper x := fun x hx => hnames x (List.mem_cons_of_mem n hx)
    by_cases hlooks : pathTooLong (Path.render (n :: above).reverse) = false ∧ Opens t above n
    · obtain ⟨hshort, hopens⟩ := hlooks
      have hopens' := hopens.congr (hagree _ habove)
      have hin : g.inside (n :: above).reverse := by
        by_contra hout
        exact h _ (.here hshort hopens hout)
      rcases entry_cases t (n :: above).reverse with he | ⟨target, he⟩ | ⟨e, he, hplain⟩
      · rw [descend_vacant hshort hopens he,
          descend_vacant hshort hopens' ((hagree _ hin).trans he)]
      · have he' := (hagree _ hin).trans he
        have hstays : ∀ place, ¬WalkStrays t g linkLimit []
            (Path.segments (Path.render (n :: above).reverse)) place :=
          fun place hp => h place (.stat hshort hopens hin he hp)
        have hsame := stat_eq_of_not_strays hshort hagree hstays
        cases hstat : t.stat [] (Path.render (n :: above).reverse) with
        | error e =>
          rw [descend_broken hshort hopens he hstat,
            descend_broken hshort hopens' he' (hsame.trans hstat)]
        | ok found =>
          rw [descend_link hshort hopens he hstat,
            descend_link hshort hopens' he' (hsame.trans hstat)]
          refine hrestart _ ?_ ?_
          · intro x hx
            rcases List.mem_append.mp hx with hx | hx
            · exact Path.proper_of_mem_resolve (.inr (by simpa using hproper)) x hx
            · exact hrest x hx
          · rintro k place rfl hp
            exact h place (.restart hshort hopens hin he hstays hstat hp)
      · have hbelow : ∀ x ∈ n :: above, Proper x := by simpa using ⟨hopens.proper, hproper⟩
        rw [descend_down hshort hopens he hplain,
          descend_down hshort hopens' ((hagree _ hin).trans he) hplain]
        exact ih hin hbelow hrest fun place hp => h place (.down hshort hopens hin he hplain hp)
    · exact descend_eq_of_not_looks (hagree _ habove) (hnames n (by simp)) hlooks

/-- A path that is made canonical without straying comes to the same in all trees that agree in the
region. -/
theorem realpathWithin_eq_of_not_strays {restarts : Nat} {names : Names}
    (hnames : ∀ n ∈ names, Proper n)
    (h : ∀ place, ¬DescendStrays t g restarts [] names place) :
    realpathWithin t' (restarts + 1) names = realpathWithin t (restarts + 1) names := by
  induction restarts generalizing names with
  | zero =>
    refine descend_eq_of_not_strays hagree (fun names _ _ => ?_) g.root (by simp) hnames h
    rfl
  | succ restarts ih =>
    refine descend_eq_of_not_strays hagree (fun names hn hk => ?_) g.root (by simp) hnames h
    exact ih hn fun place => hk restarts place rfl

end frame

/-- How a path whose links lead out ends, by what stands at the first place outside. -/
theorem DescendStrays.ends {g : Region} {t t' : FileTree} {restarts : Nat} {above : List String}
    {names place : Names} (h : DescendStrays t g restarts above names place)
    (hagree : AgreeIn g t t') (hstanding : Standing t above) (habove : g.inside above.reverse) :
    (t'.get? place = none →
      ∃ call p, descend t' (realpathWithin t' restarts) above names =
        .error (.failed .missing call p)) ∧
    (t'.get? place = some (.link (Path.render place)) →
      ∃ call p, descend t' (realpathWithin t' restarts) above names =
        .error (.failed .linkLoop call p)) := by
  induction h with
  | @here restarts above n rest short opens out =>
    have hopens' : Opens t' above n := opens.congr (hagree _ habove)
    have hstanding' : Standing t' above :=
      hstanding.congr fun p hp => hagree p (g.inside_above habove hp)
    constructor
    · intro hnone
      exact ⟨_, _, descend_vacant short hopens' hnone⟩
    · intro hself
      have hloop := locateWithin_self_link hstanding' hopens' hself linkLimit []
      rw [List.append_nil] at hloop
      have hstat : t'.stat [] (Path.render (n :: above).reverse) = .error .linkLoop := by
        rw [stat_render short, hloop, entryAt]
      exact ⟨_, _, descend_broken short hopens' hself hstat⟩
  | down short opens within entry plain _ ih =>
    rw [descend_down short (opens.congr (hagree _ habove)) ((hagree _ within).trans entry) plain]
    exact ih (hstanding.open opens entry plain) within
  | stat short opens within entry strays =>
    obtain ⟨hnone, hself⟩ := stat_of_strays short hagree strays
    have hopens' := opens.congr (hagree _ habove)
    have hentry' := (hagree _ within).trans entry
    constructor
    · intro hplace
      exact ⟨_, _, descend_broken short hopens' hentry' (hnone hplace)⟩
    · intro hplace
      exact ⟨_, _, descend_broken short hopens' hentry' (hself hplace)⟩
  | restart short opens within entry stays leads _ ih =>
    rw [descend_link short (opens.congr (hagree _ habove)) ((hagree _ within).trans entry)
      ((stat_eq_of_not_strays short hagree stays).trans leads)]
    exact ih .root g.root

/-- Making the path canonical takes a look at a place outside the region. -/
def Strays (t : FileTree) (g : Region) (path : String) : Prop :=
  ∃ restarts place, DescendStrays t g restarts [] (Path.resolve [] path) place

theorem realpath_eq_of_not_strays {g : Region} {t t' : FileTree} (hagree : AgreeIn g t t')
    {path : String} (habs : Path.isAbsolute path = true) (h : ¬Strays t g path) (cwd : Names) :
    t'.realpath cwd path = t.realpath cwd path := by
  refine realpath_congr fun k => ?_
  rw [Path.resolve_of_isAbsolute habs cwd []]
  cases k with
  | zero => rfl
  | succ k =>
    exact realpathWithin_eq_of_not_strays hagree (Path.proper_of_mem_resolve (.inl habs))
      fun place hp => h ⟨k, place, hp⟩

theorem realpath_of_strays {g : Region} {t : FileTree} {path : String}
    (habs : Path.isAbsolute path = true) (h : Strays t g path) (cwd : Names) :
    (∃ t' call p, AgreeIn g t t' ∧ t'.realpath cwd path = .error (.failed .missing call p)) ∧
    ∃ t' call p, AgreeIn g t t' ∧ t'.realpath cwd path = .error (.failed .linkLoop call p) := by
  obtain ⟨restarts, place, hplace⟩ := h
  have hout := hplace.not_inside
  have hne : place ≠ [] := by
    rintro rfl
    exact hout g.root
  have hempty : AgreeIn g t (t.erase place) := by
    intro p hp
    rw [get?_erase t hne, if_neg]
    intro hprefix
    exact hout (g.inside_above hp hprefix)
  have hlinked : AgreeIn g t (t.set place (.link (Path.render place))) := by
    intro p hp
    rw [get?_set t hne, if_neg]
    rintro rfl
    exact hout hp
  have hrealpath {t' : FileTree} {e : Errno} {call : String} {p : Names}
      (hstop : descend t' (realpathWithin t' restarts) [] (Path.resolve [] path) =
        .error (.failed e call p)) : t'.realpath cwd path = .error (.failed e call p) := by
    refine (realpath_eq_iff (by simp)).mpr ⟨restarts + 1, ?_⟩
    rw [Path.resolve_of_isAbsolute habs cwd []]
    exact hstop
  constructor
  · obtain ⟨call, p, hstop⟩ := (hplace.ends hempty .root g.root).1
      (by rw [get?_erase t hne, if_pos List.prefix_rfl])
    exact ⟨_, call, p, hempty, hrealpath hstop⟩
  · obtain ⟨call, p, hstop⟩ := (hplace.ends hlinked .root g.root).2
      (by rw [get?_set t hne, if_pos rfl])
    exact ⟨_, call, p, hlinked, hrealpath hstop⟩

end Inliner.FileTree
