import Inliner.Proofs.Restarts
import Inliner.Proofs.Straying.Walk

/-! Walks that come to a spot, as derivations that can be cut and joined. What a path leads to, it
still leads to when more stands in the tree or a file has another content. -/
namespace Inliner.FileTree

open Inliner.Path (Proper)

def Spot.place : Spot → Names
  | .found p => p
  | .vacant p => p

/-- A walk along `segments` from `above` that may follow `links` links comes to `spot`, with `left` of
them still to be followed. -/
inductive Leads (t : FileTree) (creating : Bool) :
    (links : Nat) → (above segments : List String) → (left : Nat) → (spot : Spot) → Prop
  | done {links : Nat} {above : List String} :
      Leads t creating links above [] links (.found above.reverse)
  | dot {links left : Nat} {above rest : List String} {s : String} {spot : Spot}
      (directory : t.get? above.reverse = some .directory) (stays : s = "" ∨ s = ".")
      (more : Leads t creating links above rest left spot) :
      Leads t creating links above (s :: rest) left spot
  | dots {links left : Nat} {above rest : List String} {spot : Spot}
      (directory : t.get? above.reverse = some .directory)
      (more : Leads t creating links above.tail rest left spot) :
      Leads t creating links above (".." :: rest) left spot
  | vacant {links : Nat} {above : List String} {s : String} (opens : Opens t above s)
      (free : t.get? (s :: above).reverse = none) :
      Leads t creating links above [s] links (.vacant (s :: above).reverse)
  | down {links left : Nat} {above rest : List String} {s : String} {e : Entry} {spot : Spot}
      (opens : Opens t above s) (last : (creating && onlySlashes rest) = false)
      (entry : t.get? (s :: above).reverse = some e) (plain : ∀ target, e ≠ .link target)
      (more : Leads t creating links (s :: above) rest left spot) :
      Leads t creating links above (s :: rest) left spot
  | link {links left : Nat} {above rest : List String} {s target : String} {spot : Spot}
      (opens : Opens t above s) (last : (creating && onlySlashes rest) = false)
      (entry : t.get? (s :: above).reverse = some (.link target))
      (more : Leads t creating links (if Path.isAbsolute target then [] else above)
        (Path.segments target ++ rest) left spot) :
      Leads t creating (links + 1) above (s :: rest) left spot

theorem walk_of_opens {t : FileTree} {above rest : List String} {s : String} (h : Opens t above s)
    (creating : Bool) (next : List String → List String → Except Errno Spot) :
    walk t creating next above (s :: rest) =
      if creating && onlySlashes rest then .error .isDirectory
      else match t.get? (s :: above).reverse with
        | none => if rest = [] then .ok (.vacant (s :: above).reverse) else .error .missing
        | some (.link target) =>
          next (if Path.isAbsolute target then [] else above) (Path.segments target ++ rest)
        | some _ => walk t creating next (s :: above) rest := by
  rw [walk, h.directory]
  cases t.get? (s :: above).reverse with
  | none =>
    simp only [h.proper.ne_empty, h.proper.ne_dot, h.proper.ne_dots, or_self, if_false, h.short,
      Bool.false_eq_true]
  | some e =>
    cases e <;> simp only [h.proper.ne_empty, h.proper.ne_dot, h.proper.ne_dots, or_self, if_false,
      h.short, Bool.false_eq_true]

section leads

variable {t : FileTree} {creating : Bool} {links left : Nat} {above segments : List String}
  {spot : Spot}

theorem locateWithin_eq (t : FileTree) (creating : Bool) (links : Nat) :
    t.locateWithin creating links = t.walk creating (match links with
      | 0 => fun _ _ => .error .linkLoop
      | links + 1 => t.locateWithin creating links) := by
  funext above segments
  cases links <;> rfl

theorem Leads.locateWithin_eq (h : Leads t creating links above segments left spot) :
    t.locateWithin creating links above segments = .ok spot := by
  induction h with
  | @done links above =>
    rw [FileTree.locateWithin_eq, walk]
  | @dot links left above rest s spot directory stays more ih =>
    rw [FileTree.locateWithin_eq] at ih ⊢
    rw [walk, directory]
    simpa only [stays, if_true] using ih
  | @dots links left above rest spot directory more ih =>
    rw [FileTree.locateWithin_eq] at ih ⊢
    rw [walk, directory]
    simpa using ih
  | @vacant links above s opens free =>
    rw [FileTree.locateWithin_eq, walk_of_opens opens, free]
    simp [onlySlashes]
  | @down links left above rest s e spot opens last entry plain more ih =>
    rw [FileTree.locateWithin_eq] at ih ⊢
    rw [walk_of_opens opens, last, if_neg Bool.false_ne_true, entry]
    cases e with
    | link target => exact absurd rfl (plain target)
    | file content => exact ih
    | directory => exact ih
  | @link links left above rest s target spot opens last entry more ih =>
    rw [FileTree.locateWithin_eq, walk_of_opens opens, last, if_neg Bool.false_ne_true, entry]
    exact ih

theorem exists_leads_of_walk {next : List String → List String → Except Errno Spot}
    (hnext : ∀ above segments spot, (∀ s ∈ segments, '/' ∉ s.toList) →
      next above segments = .ok spot →
      ∃ fewer left, links = fewer + 1 ∧ Leads t creating fewer above segments left spot)
    (hsegments : ∀ s ∈ segments, '/' ∉ s.toList)
    (h : t.walk creating next above segments = .ok spot) :
    ∃ left, Leads t creating links above segments left spot := by
  induction segments generalizing above with
  | nil =>
    rw [walk] at h
    cases h
    exact ⟨links, .done⟩
  | cons s rest ih =>
    have hrest : ∀ s ∈ rest, '/' ∉ s.toList := fun x hx => hsegments x (List.mem_cons_of_mem s hx)
    rcases segment_cases t above (hsegments s (by simp)) with
      hdir | ⟨hdir, hdot | hdots | ⟨hproper, hlong⟩⟩ | hopens
    · rw [walk] at h
      split at h
      · cases h
      · exact absurd ‹_› hdir
      · cases h
    · rw [walk, hdir] at h
      simp only [hdot, if_true] at h
      obtain ⟨left, hmore⟩ := ih hrest h
      exact ⟨left, .dot hdir hdot hmore⟩
    · subst hdots
      rw [walk, hdir] at h
      obtain ⟨left, hmore⟩ := ih hrest (by simpa using h)
      exact ⟨left, .dots hdir hmore⟩
    · rw [walk, hdir] at h
      simp only [hproper.ne_empty, hproper.ne_dot, hproper.ne_dots, or_self, if_false, hlong,
        if_true] at h
      split at h <;> cases h
    · rw [walk_of_opens hopens] at h
      split at h
      · cases h
      · rename_i hlast
        have hlast : (creating && onlySlashes rest) = false := by simpa using hlast
        rcases entry_cases t (s :: above).reverse with he | ⟨target, he⟩ | ⟨e, he, hplain⟩
        · rw [he] at h
          dsimp only at h
          split at h
          · rename_i hend
            subst hend
            cases h
            exact ⟨links, .vacant hopens he⟩
          · cases h
        · rw [he] at h
          obtain ⟨fewer, left, rfl, hmore⟩ :=
            hnext _ _ _ (slash_not_mem_of_follow target hrest) h
          exact ⟨left, .link hopens hlast he hmore⟩
        · rw [he] at h
          have hmore : t.walk creating next (s :: above) rest = .ok spot := by
            cases e with
            | link target => exact absurd rfl (hplain target)
            | file content => exact h
            | directory => exact h
          obtain ⟨left, hmore⟩ := ih hrest hmore
          exact ⟨left, .down hopens hlast he hplain hmore⟩

theorem exists_leads (hsegments : ∀ s ∈ segments, '/' ∉ s.toList)
    (h : t.locateWithin creating links above segments = .ok spot) :
    ∃ left, Leads t creating links above segments left spot := by
  induction links generalizing above segments spot with
  | zero =>
    refine exists_leads_of_walk (fun above segments spot _ hlink => ?_) hsegments h
    cases hlink
  | succ links ih =>
    refine exists_leads_of_walk (fun above segments spot hs hlink => ?_) hsegments h
    obtain ⟨left, hleads⟩ := ih hs hlink
    exact ⟨links, left, rfl, hleads⟩

theorem Leads.get?_vacant {p : Names}
    (h : Leads t creating links above segments left (.vacant p)) : t.get? p = none := by
  generalize hspot : Spot.vacant p = spot at h
  induction h with
  | done => cases hspot
  | dot directory stays more ih => exact ih hspot
  | dots directory more ih => exact ih hspot
  | vacant opens free =>
    cases hspot
    exact free
  | down opens last entry plain more ih => exact ih hspot
  | link opens last entry more ih => exact ih hspot

theorem Leads.append {links' : Nat} {q : Names} {more : List String}
    (h : Leads t false links above segments left (.found q))
    (hmore : Leads t false left q.reverse more links' spot) :
    Leads t false links above (segments ++ more) links' spot := by
  generalize hspot : Spot.found q = first at h
  induction h with
  | done =>
    cases hspot
    rwa [List.reverse_reverse] at hmore
  | dot directory stays _ ih => exact .dot directory stays (ih hmore hspot)
  | dots directory _ ih => exact .dots directory (ih hmore hspot)
  | vacant opens free => cases hspot
  | down opens last entry plain _ ih => exact .down opens rfl entry plain (ih hmore hspot)
  | link opens last entry _ ih =>
    refine .link opens rfl entry ?_
    have hrest := ih hmore hspot
    rwa [List.append_assoc] at hrest

theorem Leads.split {more : List String} (hmore : more ≠ [])
    (h : Leads t false links above (segments ++ more) left spot) :
    ∃ between q, Leads t false links above segments between (.found q) ∧
      Leads t false between q.reverse more left spot := by
  have hhere {links left : Nat} {above all : List String} {spot : Spot}
      (h : Leads t false links above all left spot) : ∃ between q,
      Leads t false links above [] between (.found q) ∧
        Leads t false between q.reverse all left spot :=
    ⟨links, above.reverse, .done, by rwa [List.reverse_reverse]⟩
  generalize hall : segments ++ more = all at h
  induction h generalizing segments with
  | done =>
    exact absurd (List.append_eq_nil_iff.mp hall).2 hmore
  | @dot links left above rest s spot directory stays way ih =>
    cases segments with
    | nil =>
      obtain rfl : more = s :: rest := hall
      exact hhere (.dot directory stays way)
    | cons x segments =>
      rw [List.cons_append, List.cons.injEq] at hall
      obtain ⟨rfl, hrest⟩ := hall
      obtain ⟨between, q, hfirst, hsecond⟩ := ih hrest
      exact ⟨between, q, .dot directory stays hfirst, hsecond⟩
  | @dots links left above rest spot directory way ih =>
    cases segments with
    | nil =>
      obtain rfl : more = ".." :: rest := hall
      exact hhere (.dots directory way)
    | cons x segments =>
      rw [List.cons_append, List.cons.injEq] at hall
      obtain ⟨rfl, hrest⟩ := hall
      obtain ⟨between, q, hfirst, hsecond⟩ := ih hrest
      exact ⟨between, q, .dots directory hfirst, hsecond⟩
  | @vacant links above s opens free =>
    cases segments with
    | nil =>
      obtain rfl : more = [s] := hall
      exact hhere (.vacant opens free)
    | cons x segments =>
      rw [List.cons_append, List.cons.injEq] at hall
      exact absurd (List.append_eq_nil_iff.mp hall.2).2 hmore
  | @down links left above rest s e spot opens last entry plain way ih =>
    cases segments with
    | nil =>
      obtain rfl : more = s :: rest := hall
      exact hhere (.down opens last entry plain way)
    | cons x segments =>
      rw [List.cons_append, List.cons.injEq] at hall
      obtain ⟨rfl, hrest⟩ := hall
      obtain ⟨between, q, hfirst, hsecond⟩ := ih hrest
      exact ⟨between, q, .down opens rfl entry plain hfirst, hsecond⟩
  | @link links left above rest s target spot opens last entry way ih =>
    cases segments with
    | nil =>
      obtain rfl : more = s :: rest := hall
      exact hhere (.link opens last entry way)
    | cons x segments =>
      rw [List.cons_append, List.cons.injEq] at hall
      obtain ⟨rfl, rfl⟩ := hall
      obtain ⟨between, q, hfirst, hsecond⟩ := ih (List.append_assoc _ _ _)
      exact ⟨between, q, .link opens rfl entry hfirst, hsecond⟩

/-- What a path leads to, as a way from where it starts. -/
theorem locate_eq_ok_iff {cwd : Names} {path : String} :
    t.locate creating cwd path = .ok spot ↔
      path ≠ "" ∧ pathTooLong path = false ∧
        ∃ left, Leads t creating linkLimit (origin cwd path) (Path.segments path) left spot := by
  unfold locate
  split
  · simp [*]
  · rename_i hne
    split
    · simp [*]
    · rename_i hshort
      refine ⟨fun h => ⟨hne, by simpa using hshort, ?_⟩, fun ⟨_, _, left, h⟩ => h.locateWithin_eq⟩
      exact exists_leads (fun _ hs => Path.slash_not_mem_of_mem_segments hs) h

end leads

theorem stat_eq_ok_iff {t : FileTree} {cwd p : Names} {path : String} {e : Entry} :
    t.stat cwd path = .ok (p, e) ↔
      t.locate false cwd path = .ok (.found p) ∧ t.get? p = some e := by
  unfold stat
  split
  · simp [*]
  · simp [*]
  · rename_i q hq
    rw [hq]
    cases he : t.get? q with
    | none =>
      simp only [Except.ok.injEq, Spot.found.injEq, reduceCtorEq, false_iff, not_and]
      rintro rfl
      simp [he]
    | some e' =>
      simp only [Except.ok.injEq, Prod.mk.injEq, Spot.found.injEq]
      refine and_congr_right ?_
      rintro rfl
      simp [he]

/-- All that stands in the first tree stands in the second too, but for the contents of regular
files. -/
def Extends (t t' : FileTree) : Prop :=
  ∀ p e, t.get? p = some e →
    t'.get? p = some e ∨ ∃ content content', e = .file content ∧ t'.get? p = some (.file content')

theorem Extends.trans {t t' t'' : FileTree} (h : t.Extends t') (h' : t'.Extends t'') :
    t.Extends t'' := by
  intro p e he
  rcases h p e he with he' | ⟨content, content', rfl, he'⟩
  · exact h' p e he'
  · rcases h' p _ he' with he'' | ⟨_, content'', -, he''⟩
    · exact .inr ⟨content, content', rfl, he''⟩
    · exact .inr ⟨content, content'', rfl, he''⟩

theorem extends_set {t : FileTree} {p : Names} (hp : p ≠ []) {e : Entry}
    (h : t.get? p = none ∨
      ∃ old content, t.get? p = some (.file old) ∧ e = .file content) : t.Extends (t.set p e) := by
  intro q e' he'
  rw [get?_set t hp]
  split
  · rename_i hq
    subst hq
    rcases h with hfree | ⟨old, content, hold, rfl⟩
    · rw [hfree] at he'
      cases he'
    · rw [hold] at he'
      cases he'
      exact .inr ⟨old, content, rfl, rfl⟩
  · exact .inl he'

section grown

variable {t t' : FileTree} (h : t.Extends t')
include h

theorem Extends.directory {p : Names} (hp : t.get? p = some .directory) :
    t'.get? p = some .directory := by
  rcases h p _ hp with he | ⟨_, _, he, -⟩
  · exact he
  · cases he

theorem Extends.link {p : Names} {target : String} (hp : t.get? p = some (.link target)) :
    t'.get? p = some (.link target) := by
  rcases h p _ hp with he | ⟨_, _, he, -⟩
  · exact he
  · cases he

theorem Extends.plain {p : Names} {e : Entry} (hp : t.get? p = some e)
    (he : ∀ target, e ≠ .link target) :
    ∃ e', t'.get? p = some e' ∧ ∀ target, e' ≠ .link target := by
  rcases h p e hp with he' | ⟨_, content', -, he'⟩
  · exact ⟨e, he', he⟩
  · exact ⟨_, he', by simp⟩

theorem Extends.opens {above : List String} {s : String} (hs : Opens t above s) :
    Opens t' above s :=
  ⟨h.directory hs.directory, hs.proper, hs.short⟩

/-- A way through the first tree is one through the second, if what stands at its end there is no
link. It may be one that makes no file. -/
theorem Extends.leads {creating making : Bool} {links left : Nat} {above segments : List String}
    {spot : Spot} (hmaking : making = true → creating = true)
    (hend : ∀ p, spot = .vacant p → ∃ e, t'.get? p = some e ∧ ∀ target, e ≠ .link target)
    (hleads : Leads t creating links above segments left spot) :
    Leads t' making links above segments left (.found spot.place) := by
  have hlast {rest : List String} (hrest : (creating && onlySlashes rest) = false) :
      (making && onlySlashes rest) = false := by
    cases making with
    | false => rfl
    | true => rwa [hmaking rfl] at hrest
  induction hleads with
  | done => exact .done
  | dot directory stays _ ih => exact .dot (h.directory directory) stays (ih hend)
  | dots directory _ ih => exact .dots (h.directory directory) (ih hend)
  | vacant opens free =>
    obtain ⟨e, he, hplain⟩ := hend _ rfl
    exact .down (h.opens opens) (by simp [onlySlashes]) he hplain .done
  | down opens last entry plain _ ih =>
    obtain ⟨e', he', hplain'⟩ := h.plain entry plain
    exact .down (h.opens opens) (hlast last) he' hplain' (ih hend)
  | link opens last entry _ ih => exact .link (h.opens opens) (hlast last) (h.link entry) (ih hend)

theorem Extends.locate {creating making : Bool} {cwd : Names} {path : String} {spot : Spot}
    (hmaking : making = true → creating = true)
    (hend : ∀ p, spot = .vacant p → ∃ e, t'.get? p = some e ∧ ∀ target, e ≠ .link target)
    (hspot : t.locate creating cwd path = .ok spot) :
    t'.locate making cwd path = .ok (.found spot.place) := by
  obtain ⟨hne, hshort, left, hleads⟩ := locate_eq_ok_iff.mp hspot
  exact locate_eq_ok_iff.mpr ⟨hne, hshort, left, h.leads hmaking hend hleads⟩

theorem Extends.stat {cwd p : Names} {path : String} {e : Entry}
    (hstat : t.stat cwd path = .ok (p, e)) :
    ∃ e', t'.get? p = some e' ∧ t'.stat cwd path = .ok (p, e') := by
  obtain ⟨hlocate, he⟩ := stat_eq_ok_iff.mp hstat
  have hlocate' : t'.locate false cwd path = .ok (.found p) :=
    h.locate (by simp) (by simp) hlocate
  rcases h p e he with he' | ⟨_, _, -, he'⟩
  · exact ⟨_, he', stat_eq_ok_iff.mpr ⟨hlocate', he'⟩⟩
  · exact ⟨_, he', stat_eq_ok_iff.mpr ⟨hlocate', he'⟩⟩

theorem Extends.stat_directory {cwd p : Names} {path : String}
    (hstat : t.stat cwd path = .ok (p, .directory)) : t'.stat cwd path = .ok (p, .directory) := by
  obtain ⟨e', he', hstat'⟩ := h.stat hstat
  rw [h.directory (stat_eq_ok_iff.mp hstat).2] at he'
  cases he'
  exact hstat'

theorem Extends.descend {restart restart' : Names → Except Stop Names}
    (hrestart : ∀ names p, restart names = .ok p → restart' names = .ok p) {above : List String}
    {names p : Names} (hdescend : t.descend restart above names = .ok p) :
    t'.descend restart' above names = .ok p := by
  induction names generalizing above with
  | nil => exact hdescend
  | cons n rest ih =>
    rw [FileTree.descend] at hdescend ⊢
    split at hdescend
    · cases hdescend
    rename_i hshort
    split at hdescend
    · cases hdescend
    rename_i hdir
    split at hdescend
    · cases hdescend
    rename_i hlong
    have hdir' : t'.isDirectory above.reverse = true := by
      have hdir : t.get? above.reverse = some .directory := by simpa [isDirectory] using hdir
      simp [isDirectory, h.directory hdir]
    rw [if_neg hshort, if_neg (by simp [hdir']), if_neg hlong]
    split at hdescend
    · cases hdescend
    · rename_i target htarget
      rw [h.link htarget]
      dsimp only
      split at hdescend
      · cases hdescend
      · rename_i found hstat
        obtain ⟨e', -, hstat'⟩ := h.stat (e := found.2) hstat
        rw [hstat']
        exact hrestart _ _ hdescend
    · rename_i e hplain he
      obtain ⟨e', he', hplain'⟩ := h.plain he hplain
      rw [he']
      cases e' with
      | link target => exact absurd rfl (hplain' target)
      | file content => exact ih hdescend
      | directory => exact ih hdescend

theorem Extends.realpath {cwd p : Names} {path : String} (hpath : t.realpath cwd path = .ok p) :
    t'.realpath cwd path = .ok p := by
  have hwithin (restarts : Nat) (names p : Names)
      (hnames : t.realpathWithin restarts names = .ok p) :
      t'.realpathWithin restarts names = .ok p := by
    induction restarts generalizing names p with
    | zero => cases hnames
    | succ restarts ih => exact h.descend ih hnames
  obtain ⟨restarts, hrestarts⟩ := (realpath_eq_iff (by simp)).mp hpath
  exact (realpath_eq_iff (by simp)).mpr ⟨restarts, hwithin _ _ _ hrestarts⟩

end grown

end Inliner.FileTree
