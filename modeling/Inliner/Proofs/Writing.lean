import Inliner.FileTree.Change
import Inliner.Proofs.Growth

/-! Making directories and writing files, told by what stands where afterwards. What was there
stays, so doing either again changes nothing. -/
namespace Inliner

namespace Path

theorem intercalate_segments (path : String) : "/".intercalate (segments path) = path := by
  rw [String.ext_iff, String.toList_intercalate, segments, List.map_map]
  have hid : String.toList ∘ String.ofList = id := by
    funext cs
    simp
  rw [hid, List.map_id]
  exact List.intercalate_splitOn '/'

theorem segments_intercalate {segs : List String} (hne : segs ≠ [])
    (h : ∀ s ∈ segs, '/' ∉ s.toList) : segments ("/".intercalate segs) = segs := by
  have hslash : ∀ cs ∈ segs.map String.toList, '/' ∉ cs := by
    intro cs hcs
    obtain ⟨s, hs, rfl⟩ := List.mem_map.mp hcs
    exact h s hs
  have htext : ("/".intercalate segs).toList = ['/'].intercalate (segs.map String.toList) := by
    simp [String.toList_intercalate]
  rw [segments, htext, List.splitOn_intercalate '/' hslash (by simpa using hne)]
  simp [Function.comp_def]

theorem segments_ne_nil (path : String) : segments path ≠ [] := by
  simp [segments]

/-- One path is a leading part of another, up to a slash or to the end. -/
def Leading (lead path : String) : Prop := path = lead ∨ ∃ rest, path = lead ++ "/" ++ rest

theorem leading_of_prefix {segs more : List String} (hne : segs ≠ []) :
    Leading ("/".intercalate segs) ("/".intercalate (segs ++ more)) := by
  by_cases hmore : more = []
  · subst hmore
    exact .inl (by rw [List.append_nil])
  · exact .inr ⟨"/".intercalate more, by
      rw [String.intercalate_append_of_ne_nil hne hmore]⟩

theorem parent_cases (path : String) :
    parent path ∈ [".", "/", "//"] ∨ ∃ rest, path = parent path ++ "/" ++ rest := by
  unfold parent
  split
  · simp
  · rename_i first rest htext
    dsimp only
    split
    · split <;> simp
    · rename_i c before hup
      split
      · simp
      · right
        have hc : c = '/' := by
          have hhead := List.head?_dropWhile_not (· != '/')
            (rest.reverse.dropWhile (· == '/'))
          rw [hup] at hhead
          simpa using hhead
        subst hc
        refine ⟨String.ofList (((rest.reverse.takeWhile (· == '/')) ++
          (rest.reverse.dropWhile (· == '/')).takeWhile (· != '/')).reverse), ?_⟩
        have hrest : rest.reverse = rest.reverse.takeWhile (· == '/') ++
            ((rest.reverse.dropWhile (· == '/')).takeWhile (· != '/') ++ '/' :: before) := by
          rw [← hup, List.takeWhile_append_dropWhile, List.takeWhile_append_dropWhile]
        rw [String.ext_iff, htext]
        have hrest' := congrArg List.reverse hrest
        rw [List.reverse_reverse] at hrest'
        rw [String.toList_append, String.toList_append, String.toList_ofList,
          String.toList_ofList]
        conv_lhs => rw [hrest']
        simp

end Path

namespace FileTree

variable {t t' : FileTree} {cwd p : Names} {path : String}

theorem replace_of_lookup {e : Entry} {entries : List (Names × Entry)}
    (h : entries.lookup p = some e) : replace p e entries = entries := by
  induction entries with
  | nil => cases h
  | cons x rest ih =>
    obtain ⟨q, old⟩ := x
    rw [replace]
    by_cases hq : q = p
    · subst hq
      rw [List.lookup_cons_self, Option.some.injEq] at h
      rw [if_pos rfl, h]
    · rw [List.lookup_cons, beq_eq_false_iff_ne.mpr (Ne.symm hq)] at h
      rw [if_neg hq, ih h]

theorem set_eq_self {e : Entry} (hp : p ≠ []) (h : t.get? p = some e) : t.set p e = t := by
  rw [get?, if_neg hp] at h
  rw [set, replace_of_lookup h]

theorem ne_nil_of_vacant (h : t.get? p = none) : p ≠ [] := by
  rintro rfl
  cases h

theorem segments_eq_of_dropWhile {name : String} {above : List String}
    (h : (Path.segments path).reverse.dropWhile (· == "") = name :: above) :
    name ≠ "" ∧ ∃ slashes, (∀ s ∈ slashes, s = "") ∧
      Path.segments path = above.reverse ++ name :: slashes := by
  have hname : (name == "") = false := by
    have hhead := List.head?_dropWhile_not (· == "") (Path.segments path).reverse
    rw [h] at hhead
    simpa using hhead
  refine ⟨by simpa using hname, ((Path.segments path).reverse.takeWhile (· == "")).reverse, ?_, ?_⟩
  · intro s hs
    have hall := List.mem_takeWhile_imp (List.mem_reverse.mp hs)
    simpa using hall
  · have happend := List.takeWhile_append_dropWhile (p := (· == ""))
      (l := (Path.segments path).reverse)
    rw [h] at happend
    have hreverse := congrArg List.reverse happend
    simpa using hreverse.symm

theorem leads_slashes {links : Nat} {above slashes : List String}
    (hdir : t.get? above.reverse = some .directory) (h : ∀ s ∈ slashes, s = "") :
    Leads t false links above slashes links (.found above.reverse) := by
  induction slashes with
  | nil => exact .done
  | cons s rest ih =>
    exact .dot hdir (.inl (h s (by simp))) (ih fun x hx => h x (by simp [hx]))

theorem Leads.directory_of_cons {creating : Bool} {links left : Nat} {above rest : List String}
    {s : String} {spot : Spot} (h : Leads t creating links above (s :: rest) left spot) :
    t.get? above.reverse = some .directory := by
  cases h with
  | dot directory => exact directory
  | dots directory => exact directory
  | vacant opens => exact opens.directory
  | down opens => exact opens.directory
  | link opens => exact opens.directory

theorem locateWithin_dot_iff {links : Nat} {above segments : List String} {q : Names}
    (hslash : ∀ s ∈ segments, '/' ∉ s.toList) :
    t.locateWithin false links above (segments ++ ["."]) = .ok (.found q) ↔
      t.get? q = some .directory ∧ ∃ left, Leads t false links above segments left (.found q) := by
  constructor
  · intro h
    have hall : ∀ s ∈ segments ++ ["."], '/' ∉ s.toList := by
      intro s hs
      rcases List.mem_append.mp hs with hs | hs
      · exact hslash s hs
      · cases List.mem_singleton.mp hs
        decide
    obtain ⟨left, hleads⟩ := exists_leads hall h
    obtain ⟨between, q', hfirst, hdot⟩ := hleads.split (by simp)
    have hdir := hdot.directory_of_cons
    have hend : Leads t false between q'.reverse ["."] between (.found q'.reverse.reverse) :=
      .dot hdir (.inr rfl) .done
    have hsame := hend.locateWithin_eq.symm.trans hdot.locateWithin_eq
    rw [List.reverse_reverse] at hdir hsame
    cases hsame
    exact ⟨hdir, between, hfirst⟩
  · rintro ⟨hdir, left, hleads⟩
    have hend : Leads t false left q.reverse ["."] left (.found q.reverse.reverse) :=
      .dot (by rwa [List.reverse_reverse]) (.inr rfl) .done
    rw [List.reverse_reverse] at hend
    exact (hleads.append hend).locateWithin_eq

theorem slash_not_mem_of_segments {above slashes : List String} {name : String}
    (h : Path.segments path = above.reverse ++ name :: slashes) :
    (∀ s ∈ above.reverse, '/' ∉ s.toList) ∧ '/' ∉ name.toList := by
  have hmem (s : String) (hs : s ∈ above.reverse ++ name :: slashes) : '/' ∉ s.toList := by
    rw [← h] at hs
    exact Path.slash_not_mem_of_mem_segments hs
  exact ⟨fun s hs => hmem s (List.mem_append_left _ hs), hmem name (by simp)⟩

/-- The last name of `path`, slashes aside, is `name`, and it is looked up in the directory `q`. -/
structure EndsIn (t : FileTree) (cwd : Names) (path : String) (q : Names) (name : String) :
    Prop where
  ne_empty : path ≠ ""
  short : pathTooLong path = false
  way : ∃ (above slashes : List String) (links : Nat),
    Path.segments path = above.reverse ++ name :: slashes ∧ (∀ s ∈ slashes, s = "") ∧
      Leads t false linkLimit (origin cwd path) above.reverse links (.found q)
  opens : Opens t q.reverse name

theorem newPlace_eq_ok (h : t.newPlace cwd path = .ok p) :
    t.get? p = none ∧ ∃ q name, p = q ++ [name] ∧ EndsIn t cwd path q name := by
  unfold newPlace at h
  split at h
  · cases h
  rename_i hne
  split at h
  · cases h
  rename_i hshort
  split at h
  · cases h
  rename_i name above hsegs
  obtain ⟨hname, slashes, hslashes, hsegments⟩ := segments_eq_of_dropWhile hsegs
  obtain ⟨habove, hslash⟩ := slash_not_mem_of_segments hsegments
  split at h
  · cases h
  · cases h
  · rename_i q hlocate
    split at h
    · cases h
    rename_i hdots
    split at h
    · cases h
    rename_i hlong
    split at h
    · cases h
    rename_i hfree
    cases h
    obtain ⟨hdir, links, hleads⟩ := (locateWithin_dot_iff habove).mp hlocate
    refine ⟨by simpa using hfree, q, name, rfl, ⟨hne, by simpa using hshort,
      ⟨above, slashes, links, hsegments, hslashes, hleads⟩, by rwa [List.reverse_reverse],
      ⟨hname, ?_, ?_, hslash⟩, by simpa using hlong⟩⟩
    · exact fun he => hdots (.inl he)
    · exact fun he => hdots (.inr he)

theorem EndsIn.stat {q : Names} {name : String} (h : EndsIn t cwd path q name)
    (ht : t.Extends t') (hget : t'.get? (q ++ [name]) = some .directory) :
    t'.stat cwd path = .ok (q ++ [name], .directory) := by
  obtain ⟨above, slashes, links, hsegments, hslashes, hleads⟩ := h.way
  have hhere : t'.get? (name :: q.reverse).reverse = some .directory := by simpa using hget
  have hlast : Leads t' false links q.reverse (name :: slashes) links (.found (q ++ [name])) := by
    have hway : Leads t' false links (name :: q.reverse) slashes links _ :=
      leads_slashes hhere hslashes
    rw [List.reverse_cons, List.reverse_reverse] at hway
    exact .down (ht.opens h.opens) rfl hhere (by simp) hway
  rw [stat_eq_ok_iff, locate_eq_ok_iff, hsegments]
  exact ⟨⟨h.ne_empty, h.short, links, (ht.leads (by simp) (by simp) hleads).append hlast⟩, hget⟩

theorem stat_set_newPlace (h : t.newPlace cwd path = .ok p) :
    (t.set p .directory).stat cwd path = .ok (p, .directory) := by
  obtain ⟨hfree, q, name, rfl, hends⟩ := newPlace_eq_ok h
  have hp : q ++ [name] ≠ [] := by simp
  exact hends.stat (extends_set hp (.inl hfree)) (by rw [get?_set t hp, if_pos rfl])

theorem newPlace_of_stat (h : t.stat cwd path = .ok (p, .directory)) :
    t.newPlace cwd path = .error .exists := by
  obtain ⟨hlocate, -⟩ := stat_eq_ok_iff.mp h
  obtain ⟨hne, hshort, left, hleads⟩ := locate_eq_ok_iff.mp hlocate
  unfold newPlace
  rw [if_neg hne, hshort, if_neg Bool.false_ne_true]
  split
  · rfl
  · rename_i name above hsegs
    obtain ⟨hname, slashes, -, hsegments⟩ := segments_eq_of_dropWhile hsegs
    rw [hsegments] at hleads
    obtain ⟨between, q, hfirst, hlast⟩ := hleads.split (by simp)
    have hdir := hlast.directory_of_cons
    rw [List.reverse_reverse] at hdir
    have hdot := (locateWithin_dot_iff (slash_not_mem_of_segments hsegments).1).mpr
      ⟨hdir, between, hfirst⟩
    rw [hdot]
    dsimp only
    split
    · rfl
    · rename_i hdots
      cases hlast with
      | dot directory stays => exact absurd stays (by simpa [hname] using fun he => hdots (.inl he))
      | dots => exact absurd (.inr rfl) hdots
      | down opens last entry plain more =>
        rw [List.reverse_cons, List.reverse_reverse] at entry
        simp [opens.short, entry]
      | link opens last entry more =>
        rw [List.reverse_cons, List.reverse_reverse] at entry
        simp [opens.short, entry]

/-- The second tree has new directories, each at a place that was free and that a path of `paths`
leads to, and is the same everywhere else. -/
def Gains (t : FileTree) (cwd : Names) (paths : String → Prop) (t' : FileTree) : Prop :=
  ∀ q, t'.get? q = t.get? q ∨
    t.get? q = none ∧ ∃ path, paths path ∧ t'.stat cwd path = .ok (q, .directory)

section gains

variable {paths : String → Prop}

theorem Gains.refl (t : FileTree) : t.Gains cwd paths t := fun _ => .inl rfl

theorem Gains.extends (h : t.Gains cwd paths t') : t.Extends t' := by
  intro q e he
  rcases h q with heq | ⟨hfree, -⟩
  · exact .inl (heq.trans he)
  · rw [hfree] at he
    cases he

theorem Gains.trans {t'' : FileTree} (h : t.Gains cwd paths t') (h' : t'.Gains cwd paths t'') :
    t.Gains cwd paths t'' := by
  intro q
  rcases h' q with heq' | ⟨hfree', hmade⟩
  · rcases h q with heq | ⟨hfree, path, hpath, hstat⟩
    · exact .inl (heq'.trans heq)
    · exact .inr ⟨hfree, path, hpath, h'.extends.stat_directory hstat⟩
  · rcases h q with heq | ⟨hfree, path, hpath, hstat⟩
    · exact .inr ⟨heq ▸ hfree', hmade⟩
    · rw [(stat_eq_ok_iff.mp hstat).2] at hfree'
      cases hfree'

theorem gains_newPlace (h : t.newPlace cwd path = .ok p) (hpath : paths path) :
    t.Gains cwd paths (t.set p .directory) := by
  obtain ⟨hfree, -⟩ := newPlace_eq_ok h
  intro q
  rw [get?_set t (ne_nil_of_vacant hfree)]
  split
  · rename_i hq
    subst hq
    exact .inr ⟨hfree, path, hpath, stat_set_newPlace h⟩
  · exact .inl rfl

end gains

theorem Gains.mono {paths paths' : String → Prop} (h : t.Gains cwd paths t')
    (hpaths : ∀ path, paths path → paths' path) : t.Gains cwd paths' t' := by
  intro q
  rcases h q with heq | ⟨hfree, path, hpath, hstat⟩
  · exact .inl heq
  · exact .inr ⟨hfree, path, hpaths path hpath, hstat⟩

theorem stat_of_settle {inner : Bool} {e : Errno} (h : t.settle cwd inner path e = .ok ()) :
    ∃ q, t.stat cwd path = .ok (q, .directory) := by
  unfold settle at h
  split at h
  · cases h
  · split at h
    · exact ⟨_, ‹_›⟩
    · cases h
    · cases h

/-- However it ends, making directories makes some of those that begin the path; if it succeeds,
the path leads to a directory. -/
theorem makeDirectories_spec (t : FileTree) (cwd : Names) (paths : String → Prop) (inner : Bool)
    {segments : List String}
    (hpaths : ∀ outer inside, outer ≠ [] → segments = inside ++ outer →
      paths ("/".intercalate outer.reverse)) :
    t.Gains cwd paths (t.makeDirectories cwd inner segments).2 ∧
      ((t.makeDirectories cwd inner segments).1 = .ok () → segments ≠ [] →
        ∃ q, (t.makeDirectories cwd inner segments).2.stat cwd
          ("/".intercalate segments.reverse) = .ok (q, .directory)) := by
  induction segments generalizing inner with
  | nil => exact ⟨Gains.refl t, fun _ h => absurd rfl h⟩
  | cons s above ih =>
    have hwhole : paths ("/".intercalate (s :: above).reverse) :=
      hpaths (s :: above) [] (by simp) rfl
    have habove := ih true fun outer inside hne heq =>
      hpaths outer (s :: inside) hne (by rw [heq, List.cons_append])
    rw [makeDirectories]
    split
    · rename_i p hp
      exact ⟨gains_newPlace hp hwhole, fun _ _ => ⟨p, stat_set_newPlace hp⟩⟩
    · rename_i e _
      split
      · split
        · rename_i o t' hmade
          rw [hmade] at habove
          exact ⟨habove.1, fun h => by cases h⟩
        · rename_i t' hmade
          rw [hmade] at habove
          split
          · rename_i p hp
            exact ⟨habove.1.trans (gains_newPlace hp hwhole), fun _ _ => ⟨p, stat_set_newPlace hp⟩⟩
          · exact ⟨habove.1, fun h _ => stat_of_settle h⟩
      · exact ⟨Gains.refl t, fun h _ => stat_of_settle h⟩

theorem makeDirectory_snd (t : FileTree) (cwd : Names) (path : String) :
    (t.makeDirectory cwd path).2 =
      (t.makeDirectories cwd false (Path.segments path).reverse).2 := by
  unfold makeDirectory
  split <;> simp [*]

theorem makeDirectory_gains (t : FileTree) (cwd : Names) (path : String) :
    t.Gains cwd (Path.Leading · path) (t.makeDirectory cwd path).2 := by
  rw [makeDirectory_snd]
  refine (makeDirectories_spec t cwd _ false fun outer inside hne heq => ?_).1
  have hsegments : Path.segments path = outer.reverse ++ inside.reverse := by
    rw [← List.reverse_append, ← heq, List.reverse_reverse]
  rw [← Path.intercalate_segments path, hsegments]
  exact Path.leading_of_prefix (by simpa using hne)

theorem stat_makeDirectory (h : (t.makeDirectory cwd path).1 = .ok ()) :
    ∃ q, (t.makeDirectory cwd path).2.stat cwd path = .ok (q, .directory) := by
  have hspec := (@makeDirectories_spec t cwd (fun _ => True) false (Path.segments path).reverse
    fun _ _ _ _ => trivial).2
  rw [List.reverse_reverse, Path.intercalate_segments] at hspec
  rw [makeDirectory_snd]
  refine hspec ?_ (by simpa using Path.segments_ne_nil path)
  unfold makeDirectory at h
  split at h
  · simp [*]
  · cases h

theorem makeDirectory_of_stat (h : t.stat cwd path = .ok (p, .directory)) :
    t.makeDirectory cwd path = (.ok (), t) := by
  have hsettle : t.settle cwd false path .exists = .ok () := by
    rw [settle, if_neg (by simp), h]
  have hmade : t.makeDirectories cwd false (Path.segments path).reverse = (.ok (), t) := by
    cases hsegs : (Path.segments path).reverse with
    | nil => rfl
    | cons s above =>
      have hpath : "/".intercalate (s :: above).reverse = path := by
        rw [← hsegs, List.reverse_reverse, Path.intercalate_segments]
      rw [makeDirectories, hpath, newPlace_of_stat h]
      simp [hsettle]
  rw [makeDirectory, hmade]

theorem makeDirectories_of_dots {segments : List String} (inner : Bool)
    (h : ∀ s ∈ segments, s = "" ∨ s = ".") : (t.makeDirectories cwd inner segments).2 = t := by
  induction segments generalizing inner with
  | nil => rfl
  | cons s above ih =>
    have hslash : ∀ x ∈ (s :: above).reverse, '/' ∉ x.toList := by
      intro x hx
      rcases h x (List.mem_reverse.mp hx) with rfl | rfl <;> decide
    have hnone (p : Names) : t.newPlace cwd ("/".intercalate (s :: above).reverse) ≠ .ok p := by
      intro hp
      obtain ⟨-, q, name, -, hends⟩ := newPlace_eq_ok hp
      obtain ⟨outer, slashes, links, hsegments, -⟩ := hends.way
      rw [Path.segments_intercalate (by simp) hslash] at hsegments
      have hname : name ∈ (s :: above).reverse := by simp [hsegments]
      rcases h name (List.mem_reverse.mp hname) with he | he
      · exact hends.opens.proper.ne_empty he
      · exact hends.opens.proper.ne_dot he
    have habove := ih true fun x hx => h x (List.mem_cons_of_mem s hx)
    rw [makeDirectories]
    split
    · exact absurd ‹_› (hnone _)
    · split
      · split
        · rename_i o t' hmade
          rw [hmade] at habove
          exact habove
        · rename_i t' hmade
          rw [hmade] at habove
          obtain rfl : t' = t := habove
          split
          · exact absurd ‹_› (hnone _)
          · rfl
      · rfl

theorem makeDirectory_parent_gains (t : FileTree) (cwd : Names) (path : String) :
    t.Gains cwd (fun lead => ∃ rest, path = lead ++ "/" ++ rest)
      (t.makeDirectory cwd (Path.parent path)).2 := by
  rcases Path.parent_cases path with hstart | ⟨rest, hrest⟩
  · have hdots : ∀ s ∈ (Path.segments (Path.parent path)).reverse, s = "" ∨ s = "." := by
      generalize Path.parent path = start at hstart
      revert start
      decide
    rw [makeDirectory_snd, makeDirectories_of_dots false hdots]
    exact Gains.refl t
  · refine (makeDirectory_gains t cwd (Path.parent path)).mono fun lead hlead => ?_
    rcases hlead with hsame | ⟨more, hmore⟩
    · exact ⟨rest, hsame ▸ hrest⟩
    · refine ⟨more ++ "/" ++ rest, ?_⟩
      conv_lhs => rw [hrest, hmore]
      simp only [String.append_assoc]

/-- Writing to `path` sets the place `p`, which is free or holds a regular file. -/
structure WritesAt (t : FileTree) (cwd : Names) (path : String) (p : Names) : Prop where
  spot : ∃ spot, t.locate true cwd path = .ok spot ∧ spot.place = p
  before : t.get? p = none ∨ ∃ old, t.get? p = some (.file old)

theorem write_eq_ok {content : Text.Bytes} (h : t.write cwd path content = .ok t') :
    ∃ p, t.WritesAt cwd path p ∧ t' = t.set p (.file content) := by
  unfold write at h
  dsimp only at h
  split at h
  · cases h
  · rename_i p hp
    cases h
    obtain ⟨-, -, left, hleads⟩ := locate_eq_ok_iff.mp hp
    exact ⟨p, ⟨⟨_, hp, rfl⟩, .inl hleads.get?_vacant⟩, rfl⟩
  · rename_i p hp
    split at h
    · rename_i old hold
      cases h
      exact ⟨p, ⟨⟨_, hp, rfl⟩, .inr ⟨old, hold⟩⟩, rfl⟩
    · cases h

namespace WritesAt

variable (h : t.WritesAt cwd path p) (content : Text.Bytes)
include h

theorem ne_nil : p ≠ [] := by
  rintro rfl
  rcases h.before with hfree | ⟨old, hold⟩
  · cases hfree
  · cases hold

theorem get?_written : (t.set p (.file content)).get? p = some (.file content) := by
  rw [get?_set t h.ne_nil, if_pos rfl]

theorem extends_written : t.Extends (t.set p (.file content)) := by
  refine extends_set h.ne_nil ?_
  rcases h.before with hfree | ⟨old, hold⟩
  · exact .inl hfree
  · exact .inr ⟨old, content, hold, rfl⟩

/-- The path leads to the file that was written. -/
theorem locate_written (making : Bool) :
    (t.set p (.file content)).locate making cwd path = .ok (.found p) := by
  obtain ⟨spot, hspot, rfl⟩ := h.spot
  refine (h.extends_written content).locate (fun _ => rfl) (fun q hq => ?_) hspot
  subst hq
  exact ⟨_, h.get?_written content, by simp⟩

theorem stat_written : (t.set p (.file content)).stat cwd path = .ok (p, .file content) :=
  stat_eq_ok_iff.mpr ⟨h.locate_written content false, h.get?_written content⟩

theorem write_written :
    (t.set p (.file content)).write cwd path content = .ok (t.set p (.file content)) := by
  have hget := h.get?_written content
  rw [write, h.locate_written content true]
  dsimp only
  rw [hget]
  exact congrArg Except.ok (set_eq_self h.ne_nil hget)

end WritesAt

/-- The second tree has `content` in the file that `path` leads to. Besides it has nothing new but
directories that were missing, to which what stands before a slash of `path` leads. -/
def Delivers (t : FileTree) (cwd : Names) (path : String) (content : Text.Bytes)
    (t' : FileTree) : Prop :=
  ∃ p, t'.stat cwd path = .ok (p, .file content) ∧
    (t.get? p = none ∨ ∃ old, t.get? p = some (.file old)) ∧
    ∀ q, q ≠ p → t'.get? q = t.get? q ∨
      t.get? q = none ∧
        ∃ above rest, path = above ++ "/" ++ rest ∧ t'.stat cwd above = .ok (q, .directory)

theorem delivers_of_write {content : Text.Bytes} {t₁ : FileTree}
    (hmade : t.makeDirectory cwd (Path.parent path) = (.ok (), t₁))
    (hwritten : t₁.write cwd path content = .ok t') : t.Delivers cwd path content t' := by
  have hgains := makeDirectory_parent_gains t cwd path
  rw [hmade] at hgains
  obtain ⟨p, hp, rfl⟩ := write_eq_ok hwritten
  have hextends := hp.extends_written content
  refine ⟨p, hp.stat_written content, ?_, fun q hq => ?_⟩
  · rcases hgains p with heq | ⟨-, _, -, hstat⟩
    · rw [← heq]
      exact hp.before
    · have hdir := (stat_eq_ok_iff.mp hstat).2
      rcases hp.before with hfree | ⟨old, hold⟩
      · rw [hfree] at hdir
        cases hdir
      · rw [hold] at hdir
        cases hdir
  · rw [get?_set t₁ hp.ne_nil, if_neg hq]
    rcases hgains q with heq | ⟨hfree, above, ⟨rest, hrest⟩, hstat⟩
    · exact .inl heq
    · exact .inr ⟨hfree, above, rest, hrest, hextends.stat_directory hstat⟩

end FileTree
end Inliner
