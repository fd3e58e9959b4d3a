import Inliner.Proofs.Growth
import Inliner.Proofs.Straying.Realpath

/-! Trees whose links go up only where their targets begin. What such a target names as text is what
the system comes to, so every search for a canonical path ends. -/
namespace Inliner

theorem Path.walk_of_dots_not_mem {names : List String} (h : ".." ∉ names) (above : List String) :
    walk above names = walk [] names ++ above := by
  induction names generalizing above with
  | nil => rfl
  | cons s rest ih =>
    have hrest : ".." ∉ rest := fun hm => h (List.mem_cons_of_mem s hm)
    have hdots : s ≠ ".." := fun he => h (he ▸ List.mem_cons_self)
    rw [walk, walk, if_neg hdots, if_neg hdots]
    split
    · exact ih hrest above
    · rw [ih hrest (s :: above), ih hrest [s], List.append_assoc, List.singleton_append]

theorem Path.reverse_walk_cons {s : String} (hs : Proper s) {rest : List String}
    (h : ".." ∉ rest) : (walk [] (s :: rest)).reverse = s :: (walk [] rest).reverse := by
  rw [walk, if_neg (by simp [hs.ne_empty, hs.ne_dot]), if_neg hs.ne_dots,
    walk_of_dots_not_mem h, List.reverse_append]
  rfl

namespace FileTree

open Inliner.Path (Proper)

/-- No link goes up again after a name in its target. -/
def ClimbsFirst (t : FileTree) : Prop :=
  ∀ l ∈ t.links, ".." ∉ (Path.segments l.2).dropWhile fun s => s = "" ∨ s = "." ∨ s = ".."

instance (t : FileTree) : Decidable t.ClimbsFirst :=
  inferInstanceAs (Decidable (∀ l ∈ t.links, _))

/-- The descent along `names` comes to an end, and to no place but the one found. -/
def EndsAt (t : FileTree) (above : List String) (names : Names) (spot : Spot) : Prop :=
  ∃ k out, Ends t k above names out ∧ ∀ p, out = .ok p → spot = .found p

variable {t : FileTree} {above names : List String} {links left : Nat} {spot : Spot}

theorem endsAt_of_error {n : String} {rest : Names} {stop : Stop} (hstop : stop ≠ .endless)
    (h : descend t (realpathWithin t 0) above (n :: rest) = .error stop) :
    t.EndsAt above (n :: rest) spot :=
  ⟨0, .error stop, ⟨h, by simpa using hstop⟩, by simp⟩

theorem endsAt_of_short {n : String} {rest : Names}
    (h : pathTooLong (Path.render (n :: above).reverse) = false → t.EndsAt above (n :: rest) spot) :
    t.EndsAt above (n :: rest) spot := by
  cases hshort : pathTooLong (Path.render (n :: above).reverse) with
  | true => exact endsAt_of_error (by simp) (if_pos hshort)
  | false => exact h hshort

theorem EndsAt.down {n : String} {rest : Names} (h : t.EndsAt (n :: above) rest spot)
    (hstep : ∀ restart, descend t restart above (n :: rest) = descend t restart (n :: above) rest) :
    t.EndsAt above (n :: rest) spot := by
  obtain ⟨k, out, ⟨hends, hout⟩, hspot⟩ := h
  exact ⟨k, out, ⟨(hstep _).trans hends, hout⟩, hspot⟩

theorem EndsAt.restart {n : String} {rest more : Names} (h : t.EndsAt [] more spot)
    (hstep : ∀ restart, descend t restart above (n :: rest) = restart more) :
    t.EndsAt above (n :: rest) spot := by
  obtain ⟨k, out, ⟨hends, hout⟩, hspot⟩ := h
  exact ⟨k + 1, out, ⟨(hstep _).trans hends, hout⟩, hspot⟩

theorem EndsAt.append {a b q : Names} (ha : t.EndsAt above a (.found q))
    (hb : t.EndsAt q.reverse b spot) : t.EndsAt above (a ++ b) spot := by
  obtain ⟨k, out, hends, hq⟩ := ha
  obtain ⟨k', out', hends', hspot⟩ := hb
  cases out with
  | error stop => exact ⟨k, .error stop, hends.append_error b, by simp⟩
  | ok p =>
    obtain rfl : q = p := Spot.found.inj (hq p rfl)
    exact ⟨k + k', out', hends.append hends', hspot⟩

theorem Standing.endsAt (h : t.Standing above) :
    t.EndsAt [] above.reverse (.found above.reverse) := by
  induction h with
  | root => exact ⟨0, .ok [], ⟨rfl, by simp⟩, by simp⟩
  | @step n above e hstand hn hlong hdir he hl ih =>
    rw [List.reverse_cons]
    refine ih.append ?_
    rw [List.reverse_reverse]
    refine endsAt_of_short fun hshort => ?_
    refine EndsAt.down ?_ fun restart => descend_down hshort ⟨hdir, hn, hlong⟩ he hl
    exact ⟨0, .ok _, ⟨rfl, by simp⟩, by simp⟩

theorem Standing.start (h : t.Standing above) (target : String) :
    t.Standing (if Path.isAbsolute target then [] else above) := by
  split
  · exact .root
  · exact h

theorem Leads.standing {q : Names} (h : Leads t false links above names left (.found q))
    (hstand : t.Standing above) : t.Standing q.reverse := by
  generalize hspot : Spot.found q = spot at h
  induction h with
  | done =>
    cases hspot
    rwa [List.reverse_reverse]
  | dot directory stays more ih => exact ih hstand hspot
  | dots directory more ih => exact ih hstand.tail hspot
  | vacant opens free => cases hspot
  | down opens last entry plain more ih => exact ih (hstand.open opens entry plain) hspot
  | link opens last entry more ih => exact ih (hstand.start _) hspot

theorem Leads.left_le (h : Leads t false links above names left spot) : left ≤ links := by
  induction h with
  | done => exact le_rfl
  | dot directory stays more ih => exact ih
  | dots directory more ih => exact ih
  | vacant opens free => exact le_rfl
  | down opens last entry plain more ih => exact ih
  | link opens last entry more ih => exact ih.trans (Nat.le_succ _)

theorem Leads.climb {ups : List String} (hups : ∀ s ∈ ups, s = "" ∨ s = "." ∨ s = "..")
    (h : Leads t false links above (ups ++ names) left spot) (hstand : t.Standing above) :
    ∃ inner, t.Standing inner ∧ Path.walk above (ups ++ names) = Path.walk inner names ∧
      Leads t false links inner names left spot := by
  induction ups generalizing above with
  | nil => exact ⟨above, hstand, rfl, h⟩
  | cons s ups ih =>
    have hmoves (hs : Proper s) : False := by
      rcases hups s List.mem_cons_self with he | he | he
      · exact hs.ne_empty he
      · exact hs.ne_dot he
      · exact hs.ne_dots he
    have hrest : ∀ x ∈ ups, x = "" ∨ x = "." ∨ x = ".." := fun x hx =>
      hups x (List.mem_cons_of_mem s hx)
    rw [List.cons_append] at h ⊢
    generalize hall : ups ++ names = all at h ih ⊢
    cases h with
    | dot directory stays more =>
      rw [Path.walk, if_pos stays]
      exact ih hrest more hstand
    | dots directory more => exact ih hrest more hstand.tail
    | vacant opens free => exact (hmoves opens.proper).elim
    | down opens last entry plain more => exact (hmoves opens.proper).elim
    | link opens last entry more => exact (hmoves opens.proper).elim

/-- The target of a link is a place above and names below it, to the system and as text. -/
theorem ClimbsFirst.leads_names (hfirst : t.ClimbsFirst) (hstand : t.Standing above) {p : Names}
    {target : String} (hlink : t.get? p = some (.link target))
    (h : Leads t false links (if Path.isAbsolute target then [] else above)
      (Path.segments target) left spot) :
    ∃ inner names, t.Standing inner ∧ ".." ∉ names ∧ Leads t false links inner names left spot ∧
      Path.resolve above.reverse target = inner.reverse ++ (Path.walk [] names).reverse := by
  have hdots := hfirst _ (mem_links hlink)
  rw [← List.takeWhile_append_dropWhile
    (p := fun s => decide (s = "" ∨ s = "." ∨ s = "..")) (l := Path.segments target)] at h
  have hups : ∀ s ∈ (Path.segments target).takeWhile (fun s => s = "" ∨ s = "." ∨ s = ".."),
      s = "" ∨ s = "." ∨ s = ".." := fun s hs => by simpa using List.mem_takeWhile_imp hs
  obtain ⟨inner, hinner, hwalk, hleads⟩ := h.climb hups (hstand.start target)
  refine ⟨inner, _, hinner, hdots, hleads, ?_⟩
  rw [List.takeWhile_append_dropWhile] at hwalk
  rw [Path.resolve, List.reverse_reverse, hwalk, Path.walk_of_dots_not_mem hdots,
    List.reverse_append]

theorem Leads.endsAt (hfirst : t.ClimbsFirst) (h : Leads t false links above names left spot)
    (hstand : t.Standing above) (hnames : ".." ∉ names) :
    t.EndsAt above (Path.walk [] names).reverse spot := by
  -- On the links that may be followed: one leads to the target, and the way along the target and the
  -- way after it share the others.
  induction links using Nat.strong_induction_on generalizing above names left spot with
  | _ links ihlinks =>
  induction names generalizing above with
  | nil =>
    cases h
    exact ⟨0, .ok above.reverse, ⟨rfl, by simp⟩, by simp⟩
  | cons s rest ih =>
    have hrest : ".." ∉ rest := fun hm => hnames (List.mem_cons_of_mem s hm)
    cases h with
    | dot directory stays more =>
      rw [Path.walk, if_pos stays]
      exact ih more hstand hrest
    | dots directory more => exact absurd List.mem_cons_self hnames
    | vacant opens free =>
      rw [Path.reverse_walk_cons opens.proper hrest]
      exact endsAt_of_short fun hshort =>
        endsAt_of_error (by simp) (descend_vacant hshort opens free)
    | down opens last entry plain more =>
      rw [Path.reverse_walk_cons opens.proper hrest]
      exact endsAt_of_short fun hshort =>
        (ih more (hstand.open opens entry plain) hrest).down fun _ =>
          descend_down hshort opens entry plain
    | @link fewer _ _ _ _ target _ opens last entry more =>
      rw [Path.reverse_walk_cons opens.proper hrest]
      refine endsAt_of_short fun hshort => ?_
      cases hstat : t.stat [] (Path.render (s :: above).reverse) with
      | error e => exact endsAt_of_error (by simp) (descend_broken hshort opens entry hstat)
      | ok found =>
        have htarget {left : Nat} {spot : Spot} (hleads : Leads t false fewer
            (if Path.isAbsolute target then [] else above) (Path.segments target) left spot) :
            t.EndsAt [] (Path.resolve above.reverse target) spot := by
          obtain ⟨inner, below, hinner, hbelow, hway, hresolve⟩ :=
            hfirst.leads_names hstand entry hleads
          rw [hresolve]
          refine hinner.endsAt.append ?_
          rw [List.reverse_reverse]
          exact ihlinks fewer fewer.lt_succ_self hway hinner hbelow
        refine EndsAt.restart ?_ fun _ => descend_link hshort opens entry hstat
        by_cases hend : rest = []
        · subst hend
          rw [List.append_nil] at more
          simpa using htarget more
        · obtain ⟨between, q, hfound, hmore⟩ := more.split hend
          exact (htarget hfound).append
            (ihlinks between (Nat.lt_succ_of_le hfound.left_le) hmore
              (hfound.standing (hstand.start target)) hrest)

variable {cwd : Names} {path : String}

/-- The search for a canonical path comes to no other place than the system. -/
theorem ClimbsFirst.endsAt_of_stat (hfirst : t.ClimbsFirst) {names : Names} (hne : names ≠ [])
    (hnames : ∀ n ∈ names, Proper n) {found : Names × Entry}
    (h : t.stat [] (Path.render names) = .ok found) : t.EndsAt [] names (.found found.1) := by
  obtain ⟨-, -, left, hleads⟩ := locate_eq_ok_iff.mp (stat_eq_ok_iff.mp h).1
  rw [origin, Path.isAbsolute_render, if_pos rfl, Path.segments_render hne hnames] at hleads
  have hdots : ".." ∉ "" :: names := by
    intro hm
    rcases List.mem_cons.mp hm with he | hm
    · exact absurd he (by decide)
    · exact (hnames _ hm).ne_dots rfl
  have hends := hleads.endsAt hfirst .root hdots
  rwa [Path.walk, if_pos (.inl rfl), Path.walk_of_proper hnames, List.append_nil,
    List.reverse_reverse] at hends

theorem ClimbsFirst.exists_ends_last (hfirst : t.ClimbsFirst) {p : Names} (hp : t.Canonical p)
    {n : String} (hn : Proper n) : ∃ k out, Ends t k p.reverse [n] out := by
  rcases descend_cases t p.reverse n with ⟨stop, hstop, hstep⟩ | hstep | ⟨-, -, hstat, -⟩
  · exact ⟨0, .error stop, hstep _ _, by simpa using hstop⟩
  · exact ⟨0, .ok _, hstep _ _, by simp⟩
  · obtain ⟨found, hfound⟩ := hstat
    rw [List.reverse_cons, List.reverse_reverse] at hfound
    have hproper : ∀ m ∈ p ++ [n], Proper m := by
      simpa [or_imp, forall_and] using ⟨hp.proper, hn⟩
    obtain ⟨k, out, hwhole, -⟩ := hfirst.endsAt_of_stat (by simp) hproper hfound
    have hroot : descend t (realpathWithin t k) [] p = .ok p :=
      descend_of_canonical _ [] (by simpa using hp)
    rcases hwhole.of_append with ⟨stop, rfl, hstop⟩ | ⟨q, hq, hafter⟩
    · cases hroot.symm.trans hstop.1
    · obtain rfl : p = q := Except.ok.inj (hroot.symm.trans hq.1)
      exact ⟨k, out, hafter⟩

theorem ClimbsFirst.exists_ends (hfirst : t.ClimbsFirst) {names : Names}
    (hnames : ∀ n ∈ names, Proper n) : ∃ k out, Ends t k [] names out := by
  induction names using List.reverseRecOn with
  | nil => exact ⟨0, .ok [], rfl, by simp⟩
  | append_singleton names n ih =>
    have hinit : ∀ m ∈ names, Proper m := fun m hm => hnames m (List.mem_append_left _ hm)
    obtain ⟨k, out, hends⟩ := ih hinit
    cases out with
    | error stop => exact ⟨k, .error stop, hends.append_error [n]⟩
    | ok p =>
      have hp : t.Canonical p :=
        canonical_of_realpathWithin hinit ((realpathWithin_succ_eq_iff hends.2).mpr hends)
      obtain ⟨k', out', hlast⟩ := hfirst.exists_ends_last hp (hnames n (by simp))
      exact ⟨k + k', out', hends.append hlast⟩

theorem ClimbsFirst.realpath_ne_endless (hfirst : t.ClimbsFirst)
    (hpath : Path.isAbsolute path = true ∨ ∀ n ∈ cwd, Proper n) :
    t.realpath cwd path ≠ .error .endless := by
  intro h
  obtain ⟨k, out, hends⟩ := hfirst.exists_ends (Path.proper_of_mem_resolve hpath)
  have hwithin := (realpathWithin_succ_eq_iff hends.2).mpr hends
  exact hends.2 (hwithin.symm.trans (realpath_eq_endless_iff.mp h (k + 1)))

end FileTree
end Inliner
