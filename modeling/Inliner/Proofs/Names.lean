import Inliner.Path
import Mathlib

/-! Proper names are those that a walk along a path can meet. A path of such names is read back from
its text, so canonical paths may be compared as texts. -/
namespace Inliner.Path

/-- A name that stands for an entry of a directory. -/
structure Proper (name : String) : Prop where
  ne_empty : name ≠ ""
  ne_dot : name ≠ "."
  ne_dots : name ≠ ".."
  no_slash : '/' ∉ name.toList

theorem not_mem_of_mem_splitOn {c : Char} {cs piece : List Char} (h : piece ∈ cs.splitOn c) :
    c ∉ piece := by
  induction cs generalizing piece with
  | nil => simp_all
  | cons x xs ih =>
    rw [List.splitOn_cons_eq_if_modifyHead] at h
    split at h
    · rcases List.mem_cons.mp h with rfl | h
      · simp
      · exact ih h
    · rename_i hx
      have hne : c ≠ x := fun he => hx (by simp [he])
      cases hs : xs.splitOn c with
      | nil => exact absurd hs (List.splitOn_ne_nil c xs)
      | cons p ps =>
        rw [hs, List.modifyHead_cons] at h
        rcases List.mem_cons.mp h with rfl | h
        · exact List.not_mem_cons_of_ne_of_not_mem hne (ih (by simp [hs]))
        · exact ih (by simp [hs, h])

theorem slash_not_mem_of_mem_segments {path s : String} (h : s ∈ segments path) :
    '/' ∉ s.toList := by
  obtain ⟨cs, hcs, rfl⟩ := List.mem_map.mp h
  rw [String.toList_ofList]
  exact not_mem_of_mem_splitOn hcs

theorem segments_render {names : Names} (hne : names ≠ []) (h : ∀ n ∈ names, Proper n) :
    segments (render names) = "" :: names := by
  have hslash : ∀ cs ∈ names.map String.toList, '/' ∉ cs := by
    intro cs hcs
    obtain ⟨n, hn, rfl⟩ := List.mem_map.mp hcs
    exact (h n hn).no_slash
  have htext :
      (render names).toList = [] ++ '/' :: ['/'].intercalate (names.map String.toList) := by
    simp [render, String.toList_intercalate]
  rw [segments, htext, List.splitOn_append_cons_self_of_not_mem (by simp),
    List.splitOn_intercalate '/' hslash (by simpa using hne)]
  simp [Function.comp_def]

@[simp] theorem segments_root : segments (render []) = ["", ""] := by decide

@[simp] theorem isAbsolute_render (names : Names) : isAbsolute (render names) = true := by
  simp [isAbsolute, render]

theorem render_ne_empty (names : Names) : render names ≠ "" := by
  intro h
  have habsolute := isAbsolute_render names
  rw [h] at habsolute
  exact absurd habsolute (by decide)

theorem isAbsolute_append {path : String} (h : isAbsolute path = true) (rest : String) :
    isAbsolute (path ++ rest) = true := by
  simp only [isAbsolute, beq_iff_eq, String.toList_append] at h ⊢
  rw [List.head?_append, h]
  rfl

theorem resolve_of_isAbsolute {path : String} (h : isAbsolute path = true) (base other : Names) :
    resolve base path = resolve other path := by
  simp [resolve, h]

theorem isAbsolute_normalize {path : String} (h : isAbsolute path = true) :
    isAbsolute (normalize path) = true := by
  simp only [normalize, h, if_true]
  split
  · decide
  · simp [isAbsolute, render]

theorem walk_of_proper {names : Names} (h : ∀ n ∈ names, Proper n) (above : List String) :
    walk above names = names.reverse ++ above := by
  induction names generalizing above with
  | nil => rfl
  | cons n ns ih =>
    have hn := h n (by simp)
    rw [walk, if_neg (by simp [hn.ne_empty, hn.ne_dot]), if_neg hn.ne_dots,
      ih (fun m hm => h m (by simp [hm]))]
    simp

theorem proper_of_mem_walk {segs above : List String} (hs : ∀ s ∈ segs, '/' ∉ s.toList)
    (ha : ∀ n ∈ above, Proper n) : ∀ n ∈ walk above segs, Proper n := by
  induction segs generalizing above with
  | nil => exact ha
  | cons s rest ih =>
    have hrest : ∀ s ∈ rest, '/' ∉ s.toList := fun x hx => hs x (by simp [hx])
    rw [walk]
    split
    · exact ih hrest ha
    · rename_i hplain
      split
      · exact ih hrest fun n hn => ha n (List.mem_of_mem_tail hn)
      · rename_i hdots
        refine ih hrest fun n hn => ?_
        rcases List.mem_cons.mp hn with rfl | hn
        · exact ⟨fun he => hplain (.inl he), fun he => hplain (.inr he), hdots, hs n (by simp)⟩
        · exact ha n hn

theorem proper_of_mem_resolve {base : Names} {path : String}
    (hb : isAbsolute path = true ∨ ∀ n ∈ base, Proper n) :
    ∀ n ∈ resolve base path, Proper n := by
  intro n hn
  rw [resolve, List.mem_reverse] at hn
  refine proper_of_mem_walk (fun s hs => slash_not_mem_of_mem_segments hs) ?_ n hn
  intro m hm
  split at hm
  · simp at hm
  · rename_i habs
    exact (hb.resolve_left habs) m (List.mem_reverse.mp hm)

/-- The text of an absolute path of proper names names that path, wherever it is read. -/
@[simp] theorem resolve_render (base : Names) {names : Names} (h : ∀ n ∈ names, Proper n) :
    resolve base (render names) = names := by
  rw [resolve, isAbsolute_render, if_pos rfl]
  by_cases hne : names = []
  · subst hne
    rw [segments_root]
    rfl
  · rw [segments_render hne h, walk, if_pos (.inl rfl), walk_of_proper h]
    simp

theorem head?_relative_ne_dots_iff {start target : Names} (h : ".." ∉ target) :
    (relative start target).head? ≠ some ".." ↔ start <+: target := by
  induction start generalizing target with
  | nil =>
    rw [relative_nil]
    refine iff_of_true (fun he => h ?_) (List.nil_prefix)
    exact List.mem_of_head? he
  | cons s ss ih =>
    cases target with
    | nil => simp [relative]
    | cons t ts =>
      rw [relative]
      split
      · rename_i hst
        subst hst
        rw [ih (fun hm => h (by simp [hm])), List.cons_prefix_cons, and_iff_right rfl]
      · rename_i hst
        simp [List.cons_prefix_cons, hst]

theorem isWithinRoot_iff {cwd : Names} {root candidate : String}
    (h : ∀ n ∈ resolve cwd candidate, Proper n) :
    isWithinRoot cwd root candidate = true ↔ resolve cwd root <+: resolve cwd candidate := by
  rw [isWithinRoot, bne_iff_ne]
  exact head?_relative_ne_dots_iff fun hm => (h _ hm).ne_dots rfl

theorem isWithinRoot_render_iff {cwd names : Names} {root : String} (h : ∀ n ∈ names, Proper n) :
    isWithinRoot cwd root (render names) = true ↔ resolve cwd root <+: names := by
  have hresolve := resolve_render cwd h
  rw [isWithinRoot_iff (by rw [hresolve]; exact h), hresolve]

end Inliner.Path
