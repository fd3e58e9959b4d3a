import Inliner.Proofs.Localisation
import Inliner.Proofs.Markers
import Inliner.Proofs.Preexpansion

/-! Only the file that a directive leads to matters, and not how it is spelled: a run without
markers takes the same course through files whose directives are spelled otherwise. -/
namespace Inliner

/-- Lines of a file, from one line on, that are the same but for directives that lead to the same
file. -/
inductive Respelled (v : Host Id) (r : Resolver) (path : String) :
    (number : Nat) → (lines lines' : List String) → Prop
  | done {number : Nat} : Respelled v r path number [] []
  | same {number : Nat} {line : String} {rest rest' : List String}
      (below : Respelled v r path (number + 1) rest rest') :
      Respelled v r path number (line :: rest) (line :: rest')
  | directive {number : Nat} {line line' target : String} {d d' : Directive}
      {rest rest' : List String}
      (asks : Directive.parseLine line (.count number) path = .ok (some d))
      (asks' : Directive.parseLine line' (.count number) path = .ok (some d'))
      (resolves : r.targetOf v d = .ok target) (resolves' : r.targetOf v d' = .ok target)
      (below : Respelled v r path (number + 1) rest rest') :
      Respelled v r path number (line :: rest) (line' :: rest')

namespace Respelled

variable {v : Host Id} {r : Resolver} {path line : String} {number : Nat}
  {rest lines' : List String}

theorem refl (v : Host Id) (r : Resolver) (path : String) (number : Nat) (lines : List String) :
    Respelled v r path number lines lines := by
  induction lines generalizing number with
  | nil => exact .done
  | cons line rest ih => exact .same (ih (number + 1))

theorem exists_directive (h : Respelled v r path number (line :: rest) lines') {d : Directive}
    (hd : Directive.parseLine line (.count number) path = .ok (some d)) :
    ∃ line' rest' d', lines' = line' :: rest' ∧
      Directive.parseLine line' (.count number) path = .ok (some d') ∧
      d'.location = d.location ∧ r.targetOf v d' = r.targetOf v d ∧
      Respelled v r path (number + 1) rest rest' := by
  cases h with
  | same below => exact ⟨line, _, d, rfl, hd, rfl, rfl, below⟩
  | @directive _ _ line' target _ d' _ rest' asks asks' resolves resolves' below =>
    rw [hd] at asks
    cases asks
    refine ⟨line', rest', d', rfl, asks', ?_, resolves'.trans resolves.symm, below⟩
    rw [(Directive.parseLine_eq_some asks').1, (Directive.parseLine_eq_some hd).1]

theorem exists_rest (h : Respelled v r path number (line :: rest) lines')
    (hline : ∀ d, Directive.parseLine line (.count number) path ≠ .ok (some d)) :
    ∃ rest', lines' = line :: rest' ∧ Respelled v r path (number + 1) rest rest' := by
  cases h with
  | same below => exact ⟨_, rfl, below⟩
  | directive asks => exact absurd asks (hline _)

end Respelled

/-- Hosts on which a directive leads to the same file, and which have the same files or respelled
ones wherever one may lead. -/
structure Host.Respells (v v' : Host Id) (r : Resolver) (files : String → Prop) : Prop where
  targets : ∀ d, r.targetOf v' d = r.targetOf v d
  closed : ∀ d target, r.targetOf v d = .ok target → files target
  texts : ∀ path, files path → v'.textOf path = v.textOf path ∨
    ∃ text text', v.textOf path = .ok text ∧ v'.textOf path = .ok text' ∧
      Respelled v r path 1 (Text.splitLines text) (Text.splitLines text')

namespace Expansion

variable {v v' : Host Id} {r : Resolver} {files : String → Prop}

/-- The same file, or lines of one that are respelled. -/
inductive Task.Respelled (v : Host Id) (r : Resolver) (files : String → Prop) : Task → Task → Prop
  | file {path : String} (h : files path) : Task.Respelled v r files (.file path) (.file path)
  | lines {path : String} {number : Nat} {rest rest' : List String}
      (h : Inliner.Respelled v r path number rest rest') :
      Task.Respelled v r files (.lines path number rest) (.lines path number rest')

/-- Without markers, an expansion takes the same course through respelled files. -/
theorem Course.respelled (hv : v.Respells v' r files) {l : Ledger} {task task' : Task}
    {out : Except Thrown (List String)} {visits : List Visit}
    (hc : Course v r false l task out visits) (ht : task.Respelled v r files task') :
    Course v' r false l task' out visits := by
  induction hc generalizing task' with
  | @unreadable l path e read =>
    obtain ⟨hpath⟩ := ht
    rcases hv.texts path hpath with hsame | ⟨text, text', htext, -⟩
    · exact .unreadable (hsame.trans read)
    · rw [read] at htext
      cases htext
  | @readable l path text out visits read below ih =>
    obtain ⟨hpath⟩ := ht
    rcases hv.texts path hpath with hsame | ⟨text, text', htext, htext', hlines⟩
    · exact .readable (hsame.trans read) (ih (.lines (.refl v r path 1 _)))
    · rw [read] at htext
      cases htext
      exact .readable htext' (ih (.lines hlines))
  | done =>
    obtain _ | ⟨⟨⟩⟩ := ht
    exact .done
  | plain parse below ih =>
    obtain _ | hlines := ht
    obtain ⟨rest', rfl, hrest⟩ := hlines.exists_rest (by simp [parse])
    exact .plain parse (ih (.lines hrest))
  | malformed parse =>
    obtain _ | hlines := ht
    obtain ⟨rest', rfl, -⟩ := hlines.exists_rest (by simp [parse])
    exact .malformed parse
  | unresolved parse resolve =>
    obtain _ | hlines := ht
    obtain ⟨line', rest', d', rfl, parse', -, htarget, -⟩ := hlines.exists_directive parse
    exact .unresolved parse' ((hv.targets d').trans (htarget.trans resolve))
  | refused parse resolve enter =>
    obtain _ | hlines := ht
    obtain ⟨line', rest', d', rfl, parse', hplace, htarget, -⟩ := hlines.exists_directive parse
    exact .refused parse' ((hv.targets d').trans (htarget.trans resolve)) (hplace ▸ enter)
  | failed parse resolve enter inside ih =>
    obtain _ | hlines := ht
    obtain ⟨line', rest', d', rfl, parse', hplace, htarget, -⟩ := hlines.exists_directive parse
    exact .failed parse' ((hv.targets d').trans (htarget.trans resolve)) (hplace ▸ enter)
      (ih (.file (hv.closed _ _ resolve)))
  | @inlined _ _ _ _ _ _ _ d lines _ _ _ parse resolve enter inside below ihi ihb =>
    obtain _ | hlines := ht
    obtain ⟨line', rest', d', rfl, parse', hplace, htarget, hrest⟩ := hlines.exists_directive parse
    rw [show block false d.rawPath lines = block false d'.rawPath lines from rfl]
    exact .inlined parse' ((hv.targets d').trans (htarget.trans resolve)) (hplace ▸ enter)
      (ihi (.file (hv.closed _ _ resolve))) (ihb (.lines hrest))

end Expansion

namespace Preprocessor

open Expansion

theorem outcomeOf_of_respells {v v' : Host Id} {o : Options} {input : String} {c : Config}
    {file : String} {r : Resolver} {files : String → Prop} (hv : v.Respells v' r files)
    (hc : Config.forInput v.cwd o input = .ok c) (hfile : fileOf v input = .ok file)
    (hr : resolverOf v c = .ok r) (hc' : Config.forInput v'.cwd o input = .ok c)
    (hfile' : fileOf v' input = .ok file) (hr' : resolverOf v' c = .ok r) (hin : files file)
    (hmarks : c.marks = false) : outcomeOf v' o input = outcomeOf v o input := by
  obtain ⟨out, visits, hcourse⟩ := @exists_course v r c.marks _
    (kept_opening (Config.isPositiveInteger_of_forInput hc) file) file
  have hcourse' : Course v' r c.marks (opening c file) (.file file) out visits := by
    rw [hmarks] at hcourse ⊢
    exact hcourse.respelled hv (.file hin)
  rw [outcomeOf_of_course hc hfile hr hcourse, outcomeOf_of_course hc' hfile' hr' hcourse']

theorem EndsEarly.congr {v v' : Host Id} {o : Options} {input : String} {e : Thrown}
    (h : EndsEarly v o input e) (hcwd : v'.cwd = v.cwd) (hfile : fileOf v' input = fileOf v input)
    (hr : ∀ c, resolverOf v' c = resolverOf v c) : EndsEarly v' o input e := by
  unfold EndsEarly at h ⊢
  simpa only [hcwd, hfile, hr] using h

end Preprocessor

namespace Machine

open Preprocessor

variable {s : Machine} {cwd : Names} {o : Options} {input : String}

/-- Directives of the files that differ between two trees are respelled, as the files are read in
runs on the input. -/
def RespelledBy (s : Machine) (cwd : Names) (o : Options) (input : String) (t : FileTree) : Prop :=
  ∀ p, t.get? p = s.tree.get? p ∨
    ∃ content content', s.tree.get? p = some (.file content) ∧ t.get? p = some (.file content') ∧
      ∀ c r, Config.forInput cwd o input = .ok c → resolverOf (s.view cwd) c = .ok r →
        Respelled (s.view cwd) r (Path.render p) 1 (Text.splitLines (Text.decodeUtf8 content))
          (Text.splitLines (Text.decodeUtf8 content'))

theorem RespelledBy.alike {t : FileTree} (h : s.RespelledBy cwd o input t) : s.tree.Alike t := by
  intro p
  refine (h p).imp_right ?_
  rintro ⟨content, content', hold, hnew, -⟩
  exact ⟨content, content', hold, hnew⟩

section tree

variable (hs : s.Steady) {t : FileTree} (h : s.RespelledBy cwd o input t) {c : Config}
  {r : Resolver} (hc : Config.forInput cwd o input = .ok c)
  (hr : resolverOf (s.view cwd) c = .ok r)
include hs h hc hr

theorem RespelledBy.texts {path : String} (hpath : s.MayRead cwd o input path) :
    ({ s with tree := t }.view cwd).textOf path = (s.view cwd).textOf path ∨
    ∃ text text', (s.view cwd).textOf path = .ok text ∧
      ({ s with tree := t }.view cwd).textOf path = .ok text' ∧
      Respelled (s.view cwd) r path 1 (Text.splitLines text) (Text.splitLines text') := by
  have hs' := hs.withTree t
  obtain ⟨names, rfl, hcanonical⟩ := hpath.exists_names hs
  obtain ⟨e, he, hstat⟩ := hcanonical.stat_eq cwd
  rcases h names with hsame | ⟨content, content', hold, hnew, hlines⟩
  · left
    rw [Host.textOf, Host.textOf, Host.readSource, Host.readSource, run_onPath, run_onPath,
      answersIn_read hs, answersIn_read hs', answer_with_tree]
    rw [h.alike.read_eq hstat hsame]
  · have hlocate := hcanonical.locate_eq cwd
    have hread : s.tree.read cwd (Path.render names) = .ok content := by
      rw [FileTree.read, FileTree.stat_eq_ok_iff.mpr ⟨hlocate, hold⟩]
    have hread' : t.read cwd (Path.render names) = .ok content' := by
      rw [FileTree.read, FileTree.stat_eq_ok_iff.mpr ⟨(h.alike.locate_eq ..).trans hlocate, hnew⟩]
    cases hrefusal : s.refusal? cwd .read (Path.render names) with
    | some refusal =>
      left
      rw [Host.textOf, Host.textOf, Host.readSource, Host.readSource, run_onPath, run_onPath,
        answersIn_read hs, answersIn_read hs', answer_eq, answer_eq, hrefusal]
      rw [show refusal? { s with tree := t } cwd .read (Path.render names) = some refusal from
        hrefusal]
      rfl
    | none =>
      exact .inr ⟨_, _, (textOf_eq_ok_iff hs).mpr ⟨hrefusal, content, hread, rfl⟩,
        (textOf_eq_ok_iff hs').mpr ⟨hrefusal, content', hread', rfl⟩, hlines c r hc hr⟩

end tree

/-- Only the file that a directive denotes matters, not how it is spelled. Where each line that
differs between two trees is a directive in both, and the two lead to the same file under the base
directory of the run, a run without markers gives the same text on both, or fails with the same
error. -/
theorem process_respelled {s : Machine} (hs : s.Steady) {cwd : Names} {o : Options}
    (hdebug : o.debug.isTruthy = false) {input : String} {t : FileTree}
    (ht : s.RespelledBy cwd o input t) :
    { s with tree := t }.outcome cwd o input = s.outcome cwd o input := by
  have hcorresponds : ({ s with tree := t }.view cwd).Corresponds .plain (fun _ => False)
      (s.view cwd) := corresponds_of_alike hs ht.alike fun _ hnone => hnone.elim
  have hinput : fileOf ({ s with tree := t }.view cwd) input = fileOf (s.view cwd) input :=
    hcorresponds.canonicalize _ none
  have hroot (c : Config) :
      resolverOf ({ s with tree := t }.view cwd) c = resolverOf (s.view cwd) c :=
    hcorresponds.ofBase _
  rw [outcome_eq (hs.withTree t), outcome_eq hs]
  rcases starts_or_endsEarly (s.view cwd) o input with ⟨c, file, r, hc, hfile, hr⟩ | ⟨e, he⟩
  · have hv : (s.view cwd).Respells ({ s with tree := t }.view cwd) r (s.MayRead cwd o input) :=
      { targets := fun d => hcorresponds.resolve r d
        closed := fun d target htarget => mayRead_of_targetOf hs hc hr htarget
        texts := fun path hpath => ht.texts hs hc hr hpath }
    exact outcomeOf_of_respells hv hc hfile hr hc (hinput.trans hfile) ((hroot c).trans hr)
      (.inl hfile) ((Config.marks_of_forInput hc).trans hdebug)
  · rw [he.outcomeOf_eq, (he.congr hcorresponds.cwd hinput hroot).outcomeOf_eq]

/-- The directory of `aliasing`, whose file `a` includes `b` through the link. -/
def respelled : FileTree :=
  aliasing.tree.set ["w", "a"] (.file (Text.encodeUtf8 "\t#include \"./x/../l\" \nx\n"))

theorem respelled_process_respelled :
    aliasing.Steady ∧ aliasing.RespelledBy ["w"] {} "a" respelled ∧
    { aliasing with tree := respelled }.outcome ["w"] {} "a" = aliasing.outcome ["w"] {} "a" ∧
    aliasing.outcome ["w"] {} "a" = .ok "y\nx\n" := by
  have hs : aliasing.Steady := steady_of_faults_eq_nil rfl
  have hc : Config.forInput ["w"] {} "a" = .ok ⟨.bool false, .count 100, ["w"]⟩ := by rfl
  have hr : resolverOf (aliasing.view ["w"]) ⟨.bool false, .count 100, ["w"]⟩ = .ok ⟨"/w"⟩ := by
    rfl
  let d : Directive := ⟨.count 1, "b", .bare, "/w/a"⟩
  let d' : Directive := ⟨.count 1, "./x/../l", .double, "/w/a"⟩
  have hlines : Text.splitLines "#include b\nx\n" = ["#include b", "x"] := by decide +kernel
  have hlines' : Text.splitLines "\t#include \"./x/../l\" \nx\n" =
      ["\t#include \"./x/../l\" ", "x"] := by decide +kernel
  have hasks : Directive.parseLine "#include b" (.count 1) "/w/a" = .ok (some d) := by cbv
  have hasks' : Directive.parseLine "\t#include \"./x/../l\" " (.count 1) "/w/a" =
      .ok (some d') := by cbv
  have hd : Resolver.targetOf ⟨"/w"⟩ (aliasing.view ["w"]) d = .ok "/w/b" :=
    eq_ok_of_toOption (by decide +kernel)
  have hd' : Resolver.targetOf ⟨"/w"⟩ (aliasing.view ["w"]) d' = .ok "/w/b" :=
    eq_ok_of_toOption (by decide +kernel)
  have ht : aliasing.RespelledBy ["w"] {} "a" respelled := by
    intro p
    rw [respelled, FileTree.get?_set _ (by simp)]
    by_cases hp : p = ["w", "a"]
    · subst hp
      refine .inr ⟨Text.encodeUtf8 "#include b\nx\n", _, rfl, if_pos rfl, fun c r hc' hr' => ?_⟩
      cases hc.symm.trans hc'
      cases hr.symm.trans hr'
      rw [Text.decodeUtf8_encodeUtf8, Text.decodeUtf8_encodeUtf8, hlines, hlines']
      exact .directive hasks hasks' hd hd' (.refl ..)
    · exact .inl (if_neg hp)
  exact ⟨hs, ht, process_respelled hs rfl ht, eq_ok_of_toOption (by decide +kernel)⟩

end Machine
end Inliner
