import Inliner.Proofs.Idempotence
import Inliner.Proofs.Markers

/-! Running once more. What a run writes is new or replaces the text of one file. If that was not
read, the same text is written again. -/
namespace Inliner

namespace Expansion

variable {v v' : Host Id} {r : Resolver} {debug : Bool}

/-- A course that ends well is taken on every host that finds the same targets and the same texts
on the way. -/
theorem Course.transport {l : Ledger} {task : Task} {out : Except Thrown (List String)}
    {visits : List Visit} (hc : Course v r debug l task out visits)
    (htarget : ∀ d target, r.targetOf v d = .ok target → r.targetOf v' d = .ok target)
    (htext : ∀ visit ∈ visits, ∀ text, v.textOf visit.path = .ok text →
      v'.textOf visit.path = .ok text)
    {lines : List String} (hok : out = .ok lines) : Course v' r debug l task out visits := by
  induction hc generalizing lines with
  | unreadable read => cases hok
  | @readable l path text out visits read below ih =>
    obtain ⟨hhere, hbelow⟩ := List.forall_mem_cons.mp htext
    exact .readable (hhere text read) (ih hbelow (mapError_eq_ok_iff.mp hok))
  | done => exact .done
  | plain parse below ih =>
    obtain ⟨more, hmore, -⟩ := map_eq_ok_iff.mp hok
    exact .plain parse (ih htext hmore)
  | malformed parse => cases hok
  | unresolved parse resolve => cases hok
  | refused parse resolve enter => cases hok
  | failed parse resolve enter inside ih => cases hok
  | inlined parse resolve enter inside below ihi ihb =>
    obtain ⟨hinside, hbelow⟩ := List.forall_mem_append.mp htext
    obtain ⟨more, hmore, -⟩ := map_eq_ok_iff.mp hok
    exact .inlined parse (htarget _ _ resolve) enter (ihi hinside rfl) (ihb hbelow hmore)

end Expansion

theorem FileTree.read_eq_ok_iff {t : FileTree} {cwd : Names} {path : String}
    {content : Text.Bytes} :
    t.read cwd path = .ok content ↔ ∃ p, t.stat cwd path = .ok (p, .file content) := by
  unfold read
  cases t.stat cwd path with
  | error e => simp
  | ok found =>
    obtain ⟨p, e⟩ := found
    cases e <;> simp

namespace Machine

open Preprocessor Expansion

variable {s s' : Machine} {cwd : Names} {o : Options} {input output path : String}

theorem statIn_eq_ok_iff {call : String} {t : FileTree} {e : Entry} :
    statIn cwd call path t = .ok e ↔ ∃ p, t.stat cwd path = .ok (p, e) := by
  unfold statIn
  cases t.stat cwd path with
  | error e => simp
  | ok found => simp [Prod.ext_iff]

theorem statIn_of_extends {t t' : FileTree} (htree : t.Extends t') {call : String} {e : Entry}
    (h : statIn cwd call path t = .ok e) :
    ∃ e', statIn cwd call path t' = .ok e' ∧
      (e' = e ∨ ∃ content content', e = .file content ∧ e' = .file content') := by
  obtain ⟨p, hstat⟩ := statIn_eq_ok_iff.mp h
  obtain ⟨e', he', hstat'⟩ := htree.stat hstat
  refine ⟨e', statIn_eq_ok_iff.mpr ⟨p, hstat'⟩, ?_⟩
  rcases htree p e (FileTree.stat_eq_ok_iff.mp hstat).2 with hsame | ⟨content, content', rfl, hnew⟩
  · rw [he'] at hsame
    exact .inl (Option.some.inj hsame)
  · rw [he'] at hnew
    exact .inr ⟨content, content', rfl, Option.some.inj hnew⟩

theorem isFileIn_of_extends {t t' : FileTree} (htree : t.Extends t')
    (h : isFileIn cwd path t = .ok true) : isFileIn cwd path t' = .ok true := by
  obtain ⟨e, he, hfile⟩ := map_eq_ok_iff.mp h
  obtain ⟨e', he', rfl | ⟨content, content', -, rfl⟩⟩ := statIn_of_extends htree he
  · exact map_eq_ok_iff.mpr ⟨_, he', hfile⟩
  · exact map_eq_ok_iff.mpr ⟨_, he', rfl⟩

theorem accessIn_of_extends {t t' : FileTree} (htree : t.Extends t')
    (h : accessIn cwd path t = .ok ()) : accessIn cwd path t' = .ok () := by
  obtain ⟨e, he, -⟩ := map_eq_ok_iff.mp h
  obtain ⟨e', he', -⟩ := statIn_of_extends htree he
  exact map_eq_ok_iff.mpr ⟨e', he', rfl⟩

theorem answer_of_faults (hfaults : s'.faults = s.faults) {α : Type} {call : Call}
    {action : FileTree → Except Thrown α} {a : α}
    (haction : action s.tree = .ok a → action s'.tree = .ok a)
    (h : s.answer cwd call path action = .ok a) : s'.answer cwd call path action = .ok a := by
  rw [answer_eq_ok_iff] at h ⊢
  exact ⟨by rw [refusal?, hfaults]; exact h.1, haction h.2⟩

section grown

variable (hs : s.Steady) (hs' : s'.Steady) (hfaults : s'.faults = s.faults)
include hs hs' hfaults

theorem targetOf_of_extends (htree : s.tree.Extends s'.tree) {r : Resolver} {d : Directive}
    {target : String} (h : r.targetOf (s.view cwd) d = .ok target) :
    r.targetOf (s'.view cwd) d = .ok target := by
  obtain ⟨hcandidate, hreal, hwithin, hfile, haccess⟩ := Resolver.targetOf_eq_ok_iff.mp h
  have hreal' := canonicalOf_of_extends hs hs' hfaults htree (Host.canonicalOf_eq_ok_iff.mpr hreal)
  rw [answersIn_isFile hs] at hfile
  rw [answersIn_assertReadable hs] at haccess
  refine Resolver.targetOf_eq_ok_iff.mpr
    ⟨hcandidate, Host.canonicalOf_eq_ok_iff.mp hreal', hwithin, ?_, ?_⟩
  · rw [answersIn_isFile hs']
    exact answer_of_faults hfaults (isFileIn_of_extends htree) hfile
  · rw [answersIn_assertReadable hs']
    exact answer_of_faults hfaults (accessIn_of_extends htree) haccess

theorem textOf_of_delivers {content : Text.Bytes} (htree : s.tree.Extends s'.tree)
    (hdelivers : s.tree.Delivers cwd output content s'.tree) {text : String}
    (hapart : ∀ p e e', s.tree.stat cwd path = .ok (p, e) →
      s'.tree.stat cwd output ≠ .ok (p, e'))
    (h : (s.view cwd).textOf path = .ok text) : (s'.view cwd).textOf path = .ok text := by
  obtain ⟨hmade, bytes, hbytes, hdecode⟩ := (textOf_eq_ok_iff hs).mp h
  obtain ⟨p, hread⟩ := FileTree.read_eq_ok_iff.mp hbytes
  obtain ⟨q, hq, -, helse⟩ := hdelivers
  obtain ⟨e', he', hread'⟩ := htree.stat hread
  have hold := (FileTree.stat_eq_ok_iff.mp hread).2
  have hsame : s'.tree.get? p = s.tree.get? p := by
    have hpq : p ≠ q := by
      rintro rfl
      exact hapart p _ _ hread hq
    refine (helse p hpq).resolve_right fun hnew => ?_
    rw [hold] at hnew
    cases hnew.1
  rw [hsame, hold] at he'
  cases he'
  refine (textOf_eq_ok_iff hs').mpr ⟨?_, bytes, FileTree.read_eq_ok_iff.mpr ⟨p, hread'⟩, hdecode⟩
  rw [refusal?, hfaults]
  exact hmade

/-- A run whose files are left alone ends the same once its text is written. -/
theorem outcome_of_delivers {content : Text.Bytes} (htree : s.tree.Extends s'.tree)
    (hdelivers : s.tree.Delivers cwd output content s'.tree) {text : String}
    (hapart : ∀ path ∈ (s.recorded cwd o input).2, ∀ p e e', s.tree.stat cwd path = .ok (p, e) →
      s'.tree.stat cwd output ≠ .ok (p, e'))
    (h : s.outcome cwd o input = .ok text) : s'.outcome cwd o input = .ok text := by
  have hrun := h
  rw [outcome_eq hs] at hrun
  obtain ⟨c, file, r, hc, hfile, hr⟩ := starts_of_outcomeOf hrun
  have hc : Config.forInput cwd o input = .ok c := hc
  obtain ⟨out, visits, hcourse⟩ := @exists_course (s.view cwd) r c.marks _
    (kept_opening (Config.isPositiveInteger_of_forInput hc) file) file
  obtain ⟨hends, hreads⟩ := recorded_of_course hs hc hfile hr hcourse
  obtain ⟨lines, hlines, hrender⟩ := map_eq_ok_iff.mp (hends.symm.trans h)
  have hcourse' : Course (s'.view cwd) r c.marks (opening c file) (.file file) out visits := by
    refine hcourse.transport (fun d target => targetOf_of_extends hs hs' hfaults htree)
      (fun visit hvisit text => ?_) hlines
    refine textOf_of_delivers hs hs' hfaults htree hdelivers (hapart visit.path ?_)
    rw [hreads]
    exact List.mem_map_of_mem hvisit
  have hfile' : fileOf (s'.view cwd) input = .ok file :=
    canonicalOf_of_extends hs hs' hfaults htree hfile
  have hr' : resolverOf (s'.view cwd) c = .ok r :=
    resolverOf_of_extends hs hs' hfaults htree hr
  rw [(recorded_of_course hs' hc hfile' hr' hcourse').1, ← hends, h]

end grown

/-- Reruns are stable. A run that succeeds and whose output leads to none of the files that it read
succeeds again and leaves the tree as it is. Where the output leads is told when the run is over: a
place that it led to before it still leads to, but `n/../y` leads nowhere until `n` is made, and the
run then writes to `y`. -/
theorem processFile_rerun (hs : s.Steady) {s₁ : Machine}
    (hrun : (processFile (workspace cwd) o input output).run s = (.ok (), s₁))
    (hapart : ∀ path ∈ (s.recorded cwd o input).2, ∀ p e e', s.tree.stat cwd path = .ok (p, e) →
      s₁.tree.stat cwd output ≠ .ok (p, e')) :
    (∃ s₂, (processFile (workspace cwd) o input output).run s₁ = (.ok (), s₂) ∧
      s₂.tree = s₁.tree) ∧
    ∀ p e, s.tree.stat cwd output = .ok (p, e) → ∃ e', s₁.tree.stat cwd output = .ok (p, e') := by
  obtain ⟨text, houtcome, hwrites, hakin⟩ := processFile_writes hs (Akin.refl s) hrun
  have hs₁ : s₁.Steady := hakin.steady (hs.withTree s₁.tree)
  have hfaults : s₁.faults = s.faults := hakin.faults
  have houtcome₁ := outcome_of_delivers hs hs₁ hfaults hwrites.extends hwrites.delivers hapart
    houtcome
  refine ⟨exists_processFile_of_writes hs₁ (Akin.refl s₁) houtcome₁ (hwrites.again hfaults rfl),
    fun p e hstat => ?_⟩
  obtain ⟨e', -, hstat'⟩ := hwrites.extends.stat hstat
  exact ⟨e', hstat'⟩

/-- A directory `/w` with a file `a` that includes `b`, and a link `l` to a place that is free. -/
def awaiting : Machine :=
  { tree := ⟨[(["w"], .directory), (["w", "a"], .file (Text.encodeUtf8 "#include b\n")),
      (["w", "b"], .file (Text.encodeUtf8 "y\n")), (["w", "l"], .link "/w/m")]⟩ }

/-- The first run makes the directory `n` and the file `m`. -/
theorem awaiting_rerun :
    awaiting.Steady ∧ (awaiting.recorded ["w"] {} "a").2 = ["/w/a", "/w/b"] ∧
    awaiting.tree.get? ["w", "m"] = none ∧
    ∃ s₁ s₂, (processFile (workspace ["w"]) {} "a" "n/../l").run awaiting = (.ok (), s₁) ∧
      s₁.tree.get? ["w", "m"] = some (.file (Text.encodeUtf8 "y\n")) ∧
      (processFile (workspace ["w"]) {} "a" "n/../l").run s₁ = (.ok (), s₂) ∧
      s₂.tree = s₁.tree := by
  have hs : awaiting.Steady := steady_of_faults_eq_nil rfl
  have hreads : (awaiting.recorded ["w"] {} "a").2 = ["/w/a", "/w/b"] := by decide +kernel
  have hfree : awaiting.tree.get? ["w", "m"] = none := by decide
  have hfirst : ((processFile (workspace ["w"]) {} "a" "n/../l").run awaiting).1 = .ok () :=
    eq_ok_of_toOption (by decide +kernel)
  have hplace : (((processFile (workspace ["w"]) {} "a" "n/../l").run awaiting).2.tree.stat ["w"]
      "n/../l").toOption.map Prod.fst = some ["w", "m"] := by decide +kernel
  have hwritten : ((processFile (workspace ["w"]) {} "a" "n/../l").run awaiting).2.tree.get?
      ["w", "m"] = some (.file (Text.encodeUtf8 "y\n")) := by decide +kernel
  have hrun := eq_of_fst hfirst
  obtain ⟨⟨s₂, hsecond, htree⟩, -⟩ := processFile_rerun hs hrun fun _ _ p _ _ hstat houtput => by
    rw [houtput] at hplace
    obtain rfl : p = ["w", "m"] := Option.some.inj hplace
    rw [(FileTree.stat_eq_ok_iff.mp hstat).2] at hfree
    cases hfree
  exact ⟨hs, hreads, hfree, _, s₂, hrun, hwritten, hsecond, htree⟩

end Machine
end Inliner
