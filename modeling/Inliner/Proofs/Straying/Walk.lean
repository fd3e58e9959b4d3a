import Inliner.Proofs.Canonical

/-! Walks that leave a region of the tree. One that does not stray ends the same whatever stands
outside; one that strays tells what stands at the first place outside. -/
namespace Inliner.FileTree

open Inliner.Path (Proper)

/-- A part of the tree that has the root and, with a place, all that are above it. -/
structure Region where
  inside : Names → Prop
  root : inside []
  up : ∀ {n : String} {above : List String}, inside (n :: above).reverse → inside above.reverse

namespace Region

theorem inside_tail (g : Region) {above : List String} (h : g.inside above.reverse) :
    g.inside above.tail.reverse := by
  cases above with
  | nil => exact h
  | cons n above => exact g.up h

theorem inside_above (g : Region) {p q : Names} (h : g.inside q) (hp : p <+: q) :
    g.inside p := by
  induction q using List.reverseRecOn with
  | nil =>
    obtain rfl : p = [] := by simpa using hp
    exact h
  | append_singleton q n ih =>
    rcases List.prefix_concat_iff.mp hp with rfl | hp
    · exact h
    · have hq : g.inside q.reverse.reverse := g.up (n := n) (by simpa using h)
      exact ih (by simpa using hq) hp

theorem inside_start (g : Region) {above : List String} (h : g.inside above.reverse)
    (target : String) : g.inside (if Path.isAbsolute target then [] else above).reverse := by
  split
  · exact g.root
  · exact h

/-- The places at and below `root`, and those on the way to it. -/
def near (root : Names) : Region where
  inside p := root <+: p ∨ p <+: root
  root := .inr List.nil_prefix
  up {n above} h := by
    rw [List.reverse_cons] at h
    rcases h with hbelow | habove
    · rcases List.prefix_concat_iff.mp hbelow with rfl | h
      · exact .inr (List.prefix_append above.reverse [n])
      · exact .inl h
    · exact .inr ((List.prefix_append above.reverse [n]).trans habove)

end Region

/-- The trees hold the same at all places of the region. -/
def AgreeIn (g : Region) (t t' : FileTree) : Prop := ∀ p, g.inside p → t'.get? p = t.get? p

/-- The names `above` are those of a directory in which the name `s` can be looked up. -/
structure Opens (t : FileTree) (above : List String) (s : String) : Prop where
  directory : t.get? above.reverse = some .directory
  proper : Proper s
  short : tooLong s = false

theorem Opens.congr {t t' : FileTree} {above : List String} {s : String} (h : Opens t above s)
    (heq : t'.get? above.reverse = t.get? above.reverse) : Opens t' above s :=
  ⟨heq.trans h.directory, h.proper, h.short⟩

/-- At a segment a walk has no directory to look in, or only moves, or is given a name that is too
long, or looks the name up. -/
theorem segment_cases (t : FileTree) (above : List String) {s : String} (hs : '/' ∉ s.toList) :
    t.get? above.reverse ≠ some .directory ∨
    (t.get? above.reverse = some .directory ∧
      ((s = "" ∨ s = ".") ∨ s = ".." ∨ Proper s ∧ tooLong s = true)) ∨
    Opens t above s := by
  by_cases hdir : t.get? above.reverse = some .directory
  · right
    by_cases hdot : s = "" ∨ s = "."
    · exact .inl ⟨hdir, .inl hdot⟩
    · by_cases hdots : s = ".."
      · exact .inl ⟨hdir, .inr (.inl hdots)⟩
      · have hproper : Proper s := ⟨fun he => hdot (.inl he), fun he => hdot (.inr he), hdots, hs⟩
        cases hlong : tooLong s with
        | true => exact .inl ⟨hdir, .inr (.inr ⟨hproper, rfl⟩)⟩
        | false => exact .inr ⟨hdir, hproper, hlong⟩
  · exact .inl hdir

theorem entry_cases (t : FileTree) (p : Names) :
    t.get? p = none ∨ (∃ target, t.get? p = some (.link target)) ∨
      ∃ e, t.get? p = some e ∧ ∀ target, e ≠ .link target := by
  cases t.get? p with
  | none => exact .inl rfl
  | some e =>
    cases e with
    | link target => exact .inr (.inl ⟨target, rfl⟩)
    | file content => exact .inr (.inr ⟨_, rfl, by simp⟩)
    | directory => exact .inr (.inr ⟨_, rfl, by simp⟩)

theorem slash_not_mem_of_follow (target : String) {rest : List String}
    (h : ∀ s ∈ rest, '/' ∉ s.toList) : ∀ s ∈ Path.segments target ++ rest, '/' ∉ s.toList := by
  intro s hs
  rcases List.mem_append.mp hs with hs | hs
  · exact Path.slash_not_mem_of_mem_segments hs
  · exact h s hs

theorem Standing.open {t : FileTree} {above : List String} {s : String} {e : Entry}
    (h : Standing t above) (hs : Opens t above s) (he : t.get? (s :: above).reverse = some e)
    (hl : ∀ target, e ≠ .link target) : Standing t (s :: above) :=
  .step h hs.proper hs.short hs.directory he hl

theorem Standing.tail {t : FileTree} {above : List String} (h : Standing t above) :
    Standing t above.tail := by
  cases h with
  | root => exact .root
  | step h => exact h

/-- How a walk goes on when it meets a link and may follow `links` of them. -/
def follow (t : FileTree) : (links : Nat) → List String → List String → Except Errno Spot
  | 0 => fun _ _ => .error .linkLoop
  | links + 1 => locateWithin t false links

theorem locateWithin_eq_walk (t : FileTree) (links : Nat) (above segments : List String) :
    locateWithin t false links above segments =
      walk t false (follow t links) above segments := by
  cases links <;> rfl

section steps

variable {t : FileTree} {next : List String → List String → Except Errno Spot}
  {above rest : List String} {s : String}

theorem walk_dot (hdir : t.get? above.reverse = some .directory) (hs : s = "" ∨ s = ".") :
    walk t false next above (s :: rest) = walk t false next above rest := by
  rw [walk, hdir]
  simp only [hs, if_true]

theorem walk_dots (hdir : t.get? above.reverse = some .directory) :
    walk t false next above (".." :: rest) = walk t false next above.tail rest := by
  rw [walk, hdir]
  simp

theorem walk_tooLong (hdir : t.get? above.reverse = some .directory) (hs : Proper s)
    (hlong : tooLong s = true) :
    walk t false next above (s :: rest) = .error .nameTooLong := by
  rw [walk, hdir]
  simp [hs.ne_empty, hs.ne_dot, hs.ne_dots, hlong]

theorem walk_blocked (hdir : t.get? above.reverse ≠ some .directory) :
    walk t false next above (s :: rest) =
      .error (if t.get? above.reverse = none then .missing else .notDirectory) := by
  rw [walk]
  cases he : t.get? above.reverse with
  | none => simp
  | some e =>
    cases e with
    | file content => simp
    | link target => simp
    | directory => exact absurd he hdir

theorem walk_vacant (hs : Opens t above s) (he : t.get? (s :: above).reverse = none) :
    walk t false next above (s :: rest) =
      if rest = [] then .ok (.vacant (s :: above).reverse) else .error .missing := by
  rw [walk, hs.directory]
  simp only [hs.proper.ne_empty, hs.proper.ne_dot, hs.proper.ne_dots, or_self, if_false,
    Bool.false_and, hs.short, Bool.false_eq_true, he]

theorem walk_down {e : Entry} (hs : Opens t above s) (he : t.get? (s :: above).reverse = some e)
    (hl : ∀ target, e ≠ .link target) :
    walk t false next above (s :: rest) = walk t false next (s :: above) rest := by
  rw [walk, hs.directory]
  cases e with
  | link target => exact absurd rfl (hl target)
  | file content =>
    simp only [hs.proper.ne_empty, hs.proper.ne_dot, hs.proper.ne_dots, or_self, if_false,
      Bool.false_and, hs.short, Bool.false_eq_true, he]
  | directory =>
    simp only [hs.proper.ne_empty, hs.proper.ne_dot, hs.proper.ne_dots, or_self, if_false,
      Bool.false_and, hs.short, Bool.false_eq_true, he]

theorem walk_link {target : String} (hs : Opens t above s)
    (he : t.get? (s :: above).reverse = some (.link target)) :
    walk t false next above (s :: rest) =
      next (if Path.isAbsolute target then [] else above) (Path.segments target ++ rest) := by
  rw [walk, hs.directory]
  simp only [hs.proper.ne_empty, hs.proper.ne_dot, hs.proper.ne_dots, or_self, if_false,
    Bool.false_and, hs.short, Bool.false_eq_true, he]

end steps

/-- A walk from `above` comes to look at `place`, the first place outside the region. -/
inductive WalkStrays (t : FileTree) (g : Region) :
    (links : Nat) → (above segments : List String) → (place : Names) → Prop
  | name {links : Nat} {above rest : List String} {s : String} (opens : Opens t above s)
      (out : ¬g.inside (s :: above).reverse) :
      WalkStrays t g links above (s :: rest) (s :: above).reverse
  | dot {links : Nat} {above rest : List String} {s : String} {place : Names}
      (directory : t.get? above.reverse = some .directory) (stays : s = "" ∨ s = ".")
      (more : WalkStrays t g links above rest place) :
      WalkStrays t g links above (s :: rest) place
  | dots {links : Nat} {above rest : List String} {place : Names}
      (directory : t.get? above.reverse = some .directory)
      (more : WalkStrays t g links above.tail rest place) :
      WalkStrays t g links above (".." :: rest) place
  | down {links : Nat} {above rest : List String} {s : String} {e : Entry} {place : Names}
      (opens : Opens t above s) (within : g.inside (s :: above).reverse)
      (entry : t.get? (s :: above).reverse = some e) (plain : ∀ target, e ≠ .link target)
      (more : WalkStrays t g links (s :: above) rest place) :
      WalkStrays t g links above (s :: rest) place
  | link {links : Nat} {above rest : List String} {s target : String} {place : Names}
      (opens : Opens t above s) (within : g.inside (s :: above).reverse)
      (entry : t.get? (s :: above).reverse = some (.link target))
      (more : WalkStrays t g links (if Path.isAbsolute target then [] else above)
        (Path.segments target ++ rest) place) :
      WalkStrays t g (links + 1) above (s :: rest) place

section frame

variable {g : Region} {t t' : FileTree} (hagree : AgreeIn g t t')
include hagree

theorem walk_eq_of_not_strays {links : Nat}
    {next next' : List String → List String → Except Errno Spot}
    (hnext : ∀ above segments, g.inside above.reverse → (∀ s ∈ segments, '/' ∉ s.toList) →
      (∀ k place, links = k + 1 → ¬WalkStrays t g k above segments place) →
      next' above segments = next above segments ∧
        ∀ p, next above segments = .ok (.found p) → g.inside p)
    {above segments : List String} (habove : g.inside above.reverse)
    (hsegments : ∀ s ∈ segments, '/' ∉ s.toList)
    (h : ∀ place, ¬WalkStrays t g links above segments place) :
    walk t' false next' above segments = walk t false next above segments ∧
      ∀ p, walk t false next above segments = .ok (.found p) → g.inside p := by
  induction segments generalizing above with
  | nil =>
    refine ⟨rfl, fun p hp => ?_⟩
    cases hp
    exact habove
  | cons s rest ih =>
    have hrest : ∀ s ∈ rest, '/' ∉ s.toList := fun x hx => hsegments x (List.mem_cons_of_mem s hx)
    rcases segment_cases t above (hsegments s (by simp)) with
      hdir | ⟨hdir, hdot | hdots | ⟨hproper, hlong⟩⟩ | hopens
    · have hdir' : t'.get? above.reverse ≠ some .directory := by rwa [hagree _ habove]
      rw [walk_blocked hdir, walk_blocked hdir', hagree _ habove]
      exact ⟨rfl, fun p hp => by cases hp⟩
    · rw [walk_dot hdir hdot, walk_dot ((hagree _ habove).trans hdir) hdot]
      exact ih habove hrest fun place hp => h place (.dot hdir hdot hp)
    · subst hdots
      rw [walk_dots hdir, walk_dots ((hagree _ habove).trans hdir)]
      exact ih (g.inside_tail habove) hrest fun place hp => h place (.dots hdir hp)
    · rw [walk_tooLong hdir hproper hlong,
        walk_tooLong ((hagree _ habove).trans hdir) hproper hlong]
      exact ⟨rfl, fun p hp => by cases hp⟩
    · have hopens' : Opens t' above s := hopens.congr (hagree _ habove)
      have hin : g.inside (s :: above).reverse := by
        by_contra hout
        exact h _ (.name hopens hout)
      rcases entry_cases t (s :: above).reverse with he | ⟨target, he⟩ | ⟨e, he, hplain⟩
      · rw [walk_vacant hopens he, walk_vacant hopens' ((hagree _ hin).trans he)]
        refine ⟨rfl, fun p hp => ?_⟩
        split at hp <;> cases hp
      · rw [walk_link hopens he, walk_link hopens' ((hagree _ hin).trans he)]
        refine hnext _ _ (g.inside_start habove target) (slash_not_mem_of_follow target hrest) ?_
        rintro k place rfl hp
        exact h place (.link hopens hin he hp)
      · rw [walk_down hopens he hplain, walk_down hopens' ((hagree _ hin).trans he) hplain]
        exact ih hin hrest fun place hp => h place (.down hopens hin he hplain hp)

/-- A walk that does not stray ends at the same place in all trees that agree in the region. -/
theorem locateWithin_eq_of_not_strays {links : Nat} {above segments : List String}
    (habove : g.inside above.reverse) (hsegments : ∀ s ∈ segments, '/' ∉ s.toList)
    (h : ∀ place, ¬WalkStrays t g links above segments place) :
    locateWithin t' false links above segments = locateWithin t false links above segments ∧
      ∀ p, locateWithin t false links above segments = .ok (.found p) → g.inside p := by
  induction links generalizing above segments with
  | zero =>
    refine walk_eq_of_not_strays hagree (fun above segments _ _ _ => ?_) habove hsegments h
    exact ⟨rfl, fun p hp => by cases hp⟩
  | succ links ih =>
    refine walk_eq_of_not_strays hagree (fun above segments ha hs hn => ?_) habove hsegments h
    exact ih ha hs fun place => hn links place rfl

end frame

theorem locateWithin_self_link {t : FileTree} {above : List String} {n : String}
    (hstanding : Standing t above) (hn : Opens t above n)
    (hself : t.get? (n :: above).reverse = some (.link (Path.render (n :: above).reverse)))
    (links : Nat) (rest : List String) :
    locateWithin t false links [] (Path.segments (Path.render (n :: above).reverse) ++ rest) =
      .error .linkLoop := by
  have hproper : ∀ x ∈ (n :: above).reverse, Proper x := by
    intro x hx
    rcases List.mem_cons.mp (List.mem_reverse.mp hx) with rfl | hx
    · exact hn.proper
    · exact hstanding.proper x hx
  have hround (links : Nat) : locateWithin t false links []
      (Path.segments (Path.render (n :: above).reverse) ++ rest) =
        follow t links [] (Path.segments (Path.render (n :: above).reverse) ++ rest) := by
    have hsegments := Path.segments_render (by simp) hproper
    rw [locateWithin_eq_walk, hsegments, List.cons_append, walk_dot rfl (.inl rfl),
      List.reverse_cons, List.append_assoc, hstanding.walk_eq, List.singleton_append,
      walk_link hn hself, Path.isAbsolute_render, if_pos rfl, hsegments, List.reverse_cons,
      List.cons_append, List.append_assoc, List.singleton_append]
  induction links with
  | zero => exact hround 0
  | succ links ih =>
    rw [hround]
    exact ih

theorem WalkStrays.ends {g : Region} {t t' : FileTree} {links : Nat} {above segments : List String}
    {place : Names} (h : WalkStrays t g links above segments place) (hagree : AgreeIn g t t')
    (hstanding : Standing t above) (habove : g.inside above.reverse) :
    (t'.get? place = none →
      locateWithin t' false links above segments = .ok (.vacant place) ∨
      locateWithin t' false links above segments = .error .missing) ∧
    (t'.get? place = some (.link (Path.render place)) →
      locateWithin t' false links above segments = .error .linkLoop) := by
  induction h with
  | @name links above rest s opens out =>
    have hopens' : Opens t' above s := opens.congr (hagree _ habove)
    constructor
    · intro hnone
      rw [locateWithin_eq_walk, walk_vacant hopens' hnone]
      split
      · exact .inl rfl
      · exact .inr rfl
    · intro hself
      have hstanding' : Standing t' above :=
        hstanding.congr fun p hp => hagree p (g.inside_above habove hp)
      rw [locateWithin_eq_walk, walk_link hopens' hself, Path.isAbsolute_render, if_pos rfl]
      cases links with
      | zero => rfl
      | succ links => exact locateWithin_self_link hstanding' hopens' hself links rest
  | dot hdir hdot _ ih =>
    rw [locateWithin_eq_walk, walk_dot ((hagree _ habove).trans hdir) hdot, ← locateWithin_eq_walk]
    exact ih hstanding habove
  | dots hdir _ ih =>
    rw [locateWithin_eq_walk, walk_dots ((hagree _ habove).trans hdir), ← locateWithin_eq_walk]
    exact ih hstanding.tail (g.inside_tail habove)
  | down opens within entry plain _ ih =>
    rw [locateWithin_eq_walk, walk_down (opens.congr (hagree _ habove))
      ((hagree _ within).trans entry) plain, ← locateWithin_eq_walk]
    exact ih (hstanding.open opens entry plain) within
  | @link links above rest s target place opens within entry _ ih =>
    rw [locateWithin_eq_walk, walk_link (opens.congr (hagree _ habove))
      ((hagree _ within).trans entry)]
    refine ih ?_ (g.inside_start habove target)
    split
    · exact .root
    · exact hstanding

theorem WalkStrays.not_inside {g : Region} {t : FileTree} {links : Nat}
    {above segments : List String} {place : Names}
    (h : WalkStrays t g links above segments place) : ¬g.inside place := by
  induction h with
  | name _ out => exact out
  | dot _ _ _ ih => exact ih
  | dots _ _ ih => exact ih
  | down _ _ _ _ _ ih => exact ih
  | link _ _ _ _ ih => exact ih

end Inliner.FileTree
