import Inliner.FileTree.Lookup
import Inliner.Proofs.Names

/-! Places of a file tree that are reached from the root by proper names without meeting a link.
`realpath` gives such places only, and finds each of them again under its own text. -/
namespace Inliner.FileTree

open Inliner.Path (Proper)

/-- A place with nothing but directories on the way to it, and no link at its end. Its names are
given innermost first. -/
inductive Standing (t : FileTree) : (above : List String) → Prop
  | root : Standing t []
  | step {n : String} {above : List String} {e : Entry} : Standing t above → Proper n →
      tooLong n = false → t.get? above.reverse = some .directory →
      t.get? (n :: above).reverse = some e → (∀ target, e ≠ .link target) →
      Standing t (n :: above)

/-- A standing place whose text is short enough to be asked for. -/
structure Canonical (t : FileTree) (names : Names) : Prop where
  standing : Standing t names.reverse
  short : pathTooLong (Path.render names) = false

theorem lookup_filter (keep : Names → Bool) (entries : List (Names × Entry)) (p : Names) :
    (entries.filter fun x => keep x.1).lookup p = if keep p then entries.lookup p else none := by
  induction entries with
  | nil => simp
  | cons x rest ih =>
    obtain ⟨q, e⟩ := x
    by_cases hq : p = q
    · subst hq
      by_cases hk : keep p
      · simp [hk]
      · simp [hk, ih]
    · have hne : (p == q) = false := beq_eq_false_iff_ne.mpr hq
      by_cases hk : keep q
      · simp [hk, List.lookup_cons, hne, ih]
      · simp [hk, List.lookup_cons, hne, ih]

theorem get?_erase (t : FileTree) {path : Names} (h : path ≠ []) (p : Names) :
    (t.erase path).get? p = if path <+: p then none else t.get? p := by
  unfold get? erase
  by_cases hp : p = []
  · subst hp
    simp [h]
  · simp only [hp, if_false, lookup_filter fun q => !path.isPrefixOf q]
    by_cases hprefix : path <+: p
    · have hb : List.isPrefixOf path p = true := List.isPrefixOf_iff_prefix.mpr hprefix
      simp [hb, hprefix]
    · have hb : List.isPrefixOf path p = false := by
        rw [← Bool.not_eq_true, List.isPrefixOf_iff_prefix]
        exact hprefix
      simp [hb, hprefix]

namespace Standing

variable {t : FileTree} {above : List String}

theorem proper (h : Standing t above) : ∀ n ∈ above, Proper n := by
  induction h with
  | root => simp
  | step _ hn _ _ _ _ ih => simpa using ⟨hn, ih⟩

theorem exists_entry (h : Standing t above) :
    ∃ e, t.get? above.reverse = some e ∧ ∀ target, e ≠ .link target := by
  cases h with
  | root => exact ⟨.directory, by simp, by simp⟩
  | step _ _ _ _ he hl => exact ⟨_, he, hl⟩

theorem of_append {inner : List String} (h : Standing t (inner ++ above)) : Standing t above := by
  induction inner with
  | nil => exact h
  | cons n inner ih =>
    cases h with
    | step h => exact ih h

theorem congr {t' : FileTree} (h : Standing t above)
    (heq : ∀ p, p <+: above.reverse → t'.get? p = t.get? p) : Standing t' above := by
  induction h with
  | root => exact .root
  | @step n above e _ hn hlong hdir he hl ih =>
    have hup : above.reverse <+: (n :: above).reverse := by simp
    refine .step (ih fun p hp => heq p (hp.trans hup)) hn hlong ?_ ?_ hl
    · rw [heq _ hup, hdir]
    · rw [heq _ List.prefix_rfl, he]

theorem directory_above (h : Standing t above) {p : Names} (hp : p <+: above.reverse)
    (hne : p ≠ above.reverse) : t.get? p = some .directory := by
  induction h with
  | root => simp_all
  | @step n above e _ _ _ hdir _ _ ih =>
    rw [List.reverse_cons] at hp hne
    rcases List.prefix_concat_iff.mp hp with heq | hp
    · exact absurd heq hne
    · by_cases heq : p = above.reverse
      · rw [heq, hdir]
      · exact ih hp heq

theorem walk_eq (h : Standing t above) (follow : List String → List String → Except Errno Spot)
    (rest : List String) :
    walk t false follow [] (above.reverse ++ rest) = walk t false follow above rest := by
  induction h generalizing rest with
  | root => rfl
  | @step n above e _ hn hlong hdir he hl ih =>
    rw [List.reverse_cons, List.append_assoc, ih, List.singleton_append, walk, hdir]
    simp only [hn.ne_empty, hn.ne_dot, hn.ne_dots, or_self, if_false, Bool.false_and, hlong, he,
      Bool.false_eq_true]

end Standing

theorem render_append {a b : Names} (ha : a ≠ []) (hb : b ≠ []) :
    Path.render (a ++ b) = Path.render a ++ Path.render b := by
  simp [Path.render, String.intercalate_append_of_ne_nil ha hb, String.append_assoc]

theorem pathTooLong_above {a b : Names} (h : a <+: b)
    (hb : pathTooLong (Path.render b) = false) : pathTooLong (Path.render a) = false := by
  obtain ⟨c, rfl⟩ := h
  by_cases ha : a = []
  · subst ha
    decide
  by_cases hc : c = []
  · simpa [hc] using hb
  · rw [render_append ha hc] at hb
    simp only [pathTooLong, decide_eq_false_iff_not, String.utf8ByteSize_append] at hb ⊢
    omega

namespace Canonical

variable {t : FileTree} {names : Names}

theorem proper (h : Canonical t names) : ∀ n ∈ names, Proper n := by
  simpa using h.standing.proper

theorem exists_entry (h : Canonical t names) :
    ∃ e, t.get? names = some e ∧ ∀ target, e ≠ .link target := by
  simpa using h.standing.exists_entry

theorem locate_eq (h : Canonical t names) (cwd : Names) :
    t.locate false cwd (Path.render names) = .ok (.found names) := by
  have hwalk (follow : List String → List String → Except Errno Spot) :
      walk t false follow [] (Path.segments (Path.render names)) = .ok (.found names) := by
    by_cases hne : names = []
    · subst hne
      simp [walk]
    · have h' := h.standing.walk_eq follow []
      rw [List.append_nil, List.reverse_reverse] at h'
      rw [Path.segments_render hne h.proper, walk, get?]
      simp only [List.reverse_nil, if_pos, true_or, h', walk, List.reverse_reverse]
  rw [locate, if_neg (Path.render_ne_empty names), h.short, if_neg Bool.false_ne_true, origin,
    Path.isAbsolute_render, if_pos rfl]
  exact hwalk _

theorem stat_eq (h : Canonical t names) (cwd : Names) :
    ∃ e, t.get? names = some e ∧ t.stat cwd (Path.render names) = .ok (names, e) := by
  obtain ⟨e, he, _⟩ := h.exists_entry
  refine ⟨e, he, ?_⟩
  rw [stat, h.locate_eq cwd]
  simp only [he]

theorem congr {t' : FileTree} (h : Canonical t names)
    (heq : ∀ p, p <+: names → t'.get? p = t.get? p) : Canonical t' names :=
  ⟨h.standing.congr (by simpa using heq), h.short⟩

end Canonical

/-- Going down from a standing place ends in a canonical one, provided that every restart does. -/
theorem canonical_of_descend {t : FileTree} {restart : Names → Except Stop Names}
    (hrestart : ∀ names p, (∀ n ∈ names, Proper n) → restart names = .ok p → t.Canonical p)
    {names : Names} {above : List String} (hn : ∀ n ∈ names, Proper n)
    (ha : t.Canonical above.reverse) {p : Names} (h : descend t restart above names = .ok p) :
    t.Canonical p := by
  have hstand : t.Standing above := by simpa using ha.standing
  induction names generalizing above with
  | nil =>
    rw [descend, Except.ok.injEq] at h
    exact h ▸ ha
  | cons n rest ih =>
    have hrest : ∀ m ∈ rest, Proper m := fun m hm => hn m (by simp [hm])
    rw [descend] at h
    split at h
    · cases h
    rename_i hshort
    split at h
    · cases h
    rename_i hdir
    split at h
    · cases h
    rename_i hlong
    have hdir' : t.get? above.reverse = some .directory := by simpa [isDirectory] using hdir
    split at h
    · cases h
    · split at h
      · cases h
      · refine hrestart _ _ ?_ h
        intro m hm
        rcases List.mem_append.mp hm with hm | hm
        · exact Path.proper_of_mem_resolve (.inr (by simpa using hstand.proper)) m hm
        · exact hrest m hm
    · rename_i e hlink hget
      have hnext : t.Standing (n :: above) :=
        .step hstand (hn n (by simp)) (by simpa using hlong) hdir' hget hlink
      exact ih hrest ⟨by simpa using hnext, by simpa using hshort⟩ h hnext

theorem canonical_root (t : FileTree) : t.Canonical [] :=
  ⟨by simpa using Standing.root, by decide⟩

theorem canonical_of_realpathWithin {t : FileTree} {restarts : Nat} {names p : Names}
    (hn : ∀ n ∈ names, Proper n) (h : realpathWithin t restarts names = .ok p) :
    t.Canonical p := by
  induction restarts generalizing names p with
  | zero => cases h
  | succ restarts ih =>
    refine canonical_of_descend ?_ hn (by simpa using t.canonical_root) h
    intro names' q hn' hq
    exact ih hn' hq

theorem canonical_of_realpath {t : FileTree} {cwd p : Names} {path : String}
    (habs : Path.isAbsolute path = true) (h : t.realpath cwd path = .ok p) : t.Canonical p :=
  canonical_of_realpathWithin (Path.proper_of_mem_resolve (.inl habs)) h

theorem descend_of_canonical {t : FileTree} {names : Names}
    (restart : Names → Except Stop Names) (above : List String)
    (h : t.Canonical (above.reverse ++ names)) :
    descend t restart above names = .ok (above.reverse ++ names) := by
  induction names generalizing above with
  | nil => simp [descend]
  | cons n rest ih =>
    have hreach : above.reverse ++ n :: rest = (n :: above).reverse ++ rest := by simp
    rw [hreach] at h ⊢
    have hshort := pathTooLong_above (List.prefix_append _ _) h.short
    have hstand : t.Standing (rest.reverse ++ n :: above) := by
      simpa using h.standing
    cases hstand.of_append with
    | step _ hn hlong hdir he hl =>
      rw [descend, if_neg (by rw [hshort]; decide), if_neg (by simp [isDirectory, hdir]),
        if_neg (by simp [hlong])]
      simp only [he]
      exact ih (n :: above) h

/-- A canonical place is its own canonical path, and no other place is. -/
theorem realpath_render_iff {t : FileTree} {cwd names : Names} (hn : ∀ n ∈ names, Proper n) :
    t.realpath cwd (Path.render names) = .ok names ↔ t.Canonical names := by
  constructor
  · exact canonical_of_realpath (Path.isAbsolute_render names)
  · intro h
    simp only [realpath, Path.resolve_render cwd hn, realpathWithin]
    exact descend_of_canonical _ [] (by simpa using h)

end Inliner.FileTree
