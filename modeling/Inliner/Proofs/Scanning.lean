import Inliner.Proofs.Localisation
import Inliner.Proofs.Preexpansion
import Inliner.Proofs.Termination

/-! The directives of a text, found by scanning it and by expanding a file that holds it. An
expansion that succeeds opens the files that the scan tells, one after the other. -/
namespace Inliner
namespace Directive

/-- What line `i` of `lines`, counted from zero, says in the file `source`. The first of the lines
has the given number there. -/
def Tells (source : String) (number : Nat) (lines : List String) (i : Nat)
    (answer : Except Thrown (Option Directive)) : Prop :=
  ∃ line, lines[i]? = some line ∧ parseLine line (.count (number + i)) source = answer

variable {source line : String} {number i : Nat} {lines rest : List String}
  {ds : List Directive} {e : Thrown} {answer : Except Thrown (Option Directive)}

theorem not_tells_nil : ¬Tells source number [] i answer := by simp [Tells]

@[simp] theorem tells_cons_zero :
    Tells source number (line :: rest) 0 answer ↔
      parseLine line (.count number) source = answer := by simp [Tells]

@[simp] theorem tells_cons_succ :
    Tells source number (line :: rest) (i + 1) answer ↔
      Tells source (number + 1) rest i answer := by
  have hcount : number + (i + 1) = number + 1 + i := by omega
  simp [Tells, hcount]

theorem Tells.lineNumber {d : Directive} (h : Tells source number lines i (.ok (some d))) :
    d.lineNumber = .count (number + i) := by
  obtain ⟨line, -, hparse⟩ := h
  exact congrArg Location.lineNumber (parseLine_eq_some hparse).1

theorem scanLines_cons_eq_ok_iff :
    scanLines source number (line :: rest) = .ok ds ↔
      ∃ here more, parseLine line (.count number) source = .ok here ∧
        scanLines source (number + 1) rest = .ok more ∧ here.toList ++ more = ds := by
  simp [scanLines, bind, bind_eq_ok_iff, pure, Except.pure]

theorem scanLines_cons_eq_error_iff :
    scanLines source number (line :: rest) = .error e ↔
      parseLine line (.count number) source = .error e ∨
      ∃ here, parseLine line (.count number) source = .ok here ∧
        scanLines source (number + 1) rest = .error e := by
  simp [scanLines, bind, bind_eq_error_iff, pure, Except.pure]

theorem mem_scanLines_iff (h : scanLines source number lines = .ok ds) {d : Directive} :
    d ∈ ds ↔ ∃ i, Tells source number lines i (.ok (some d)) := by
  induction lines generalizing number ds with
  | nil =>
    cases h
    simp [not_tells_nil]
  | cons line rest ih =>
    obtain ⟨here, more, hhere, hmore, rfl⟩ := scanLines_cons_eq_ok_iff.mp h
    rw [List.mem_append, ih hmore, Option.mem_toList]
    constructor
    · rintro (hd | ⟨i, htells⟩)
      · exact ⟨0, tells_cons_zero.mpr (by rw [hhere, hd])⟩
      · exact ⟨i + 1, tells_cons_succ.mpr htells⟩
    · rintro ⟨i, htells⟩
      cases i with
      | zero =>
        rw [tells_cons_zero, hhere, Except.ok.injEq] at htells
        exact .inl htells
      | succ i => exact .inr ⟨i, tells_cons_succ.mp htells⟩

theorem scanLines_increasing (h : scanLines source number lines = .ok ds) :
    ∃ numbers : List Nat, ds.map lineNumber = numbers.map Number.count ∧
      numbers.Pairwise (· < ·) ∧ ∀ n ∈ numbers, number ≤ n := by
  induction lines generalizing number ds with
  | nil =>
    cases h
    exact ⟨[], rfl, .nil, by simp⟩
  | cons line rest ih =>
    obtain ⟨here, more, hhere, hmore, rfl⟩ := scanLines_cons_eq_ok_iff.mp h
    obtain ⟨numbers, hnumbers, hincreasing, hle⟩ := ih hmore
    cases here with
    | none => exact ⟨numbers, hnumbers, hincreasing, fun n hn => Nat.le_of_succ_le (hle n hn)⟩
    | some d =>
      have hnumber : d.lineNumber = .count number :=
        congrArg Location.lineNumber (parseLine_eq_some hhere).1
      refine ⟨number :: numbers, ?_, List.pairwise_cons.mpr ⟨hle, hincreasing⟩, ?_⟩
      · rw [Option.toList_some, List.singleton_append, List.map_cons, List.map_cons, hnumbers,
          hnumber]
      · exact List.forall_mem_cons.mpr ⟨le_rfl, fun n hn => Nat.le_of_succ_le (hle n hn)⟩

theorem scanLines_eq_error_iff :
    scanLines source number lines = .error e ↔ ∃ i, Tells source number lines i (.error e) ∧
      ∀ j < i, ∃ found, Tells source number lines j (.ok found) := by
  induction lines generalizing number with
  | nil => simp [scanLines, not_tells_nil]
  | cons line rest ih =>
    rw [scanLines_cons_eq_error_iff, ih]
    constructor
    · rintro (hhere | ⟨here, hhere, i, htells, hbefore⟩)
      · exact ⟨0, tells_cons_zero.mpr hhere, by simp⟩
      · refine ⟨i + 1, tells_cons_succ.mpr htells, fun j hj => ?_⟩
        cases j with
        | zero => exact ⟨here, tells_cons_zero.mpr hhere⟩
        | succ j => simpa using hbefore j (by omega)
    · rintro ⟨i, htells, hbefore⟩
      cases i with
      | zero => exact .inl (tells_cons_zero.mp htells)
      | succ i =>
        obtain ⟨here, hhere⟩ := hbefore 0 (by omega)
        refine .inr ⟨here, tells_cons_zero.mp hhere, i, tells_cons_succ.mp htells, fun j hj => ?_⟩
        simpa using hbefore (j + 1) (by omega)

theorem not_tells_error (h : scanLines source number lines = .ok ds) :
    ¬Tells source number lines i (.error e) := by
  induction lines generalizing number i ds with
  | nil => exact not_tells_nil
  | cons line rest ih =>
    obtain ⟨here, more, hhere, hmore, -⟩ := scanLines_cons_eq_ok_iff.mp h
    cases i with
    | zero => simp [hhere]
    | succ i => exact fun htells => ih hmore (tells_cons_succ.mp htells)

theorem exists_scanLines_eq_error_iff :
    (∃ e, scanLines source number lines = .error e) ↔
      ∃ i e, Tells source number lines i (.error e) := by
  constructor
  · rintro ⟨e, he⟩
    obtain ⟨i, htells, -⟩ := scanLines_eq_error_iff.mp he
    exact ⟨i, e, htells⟩
  · rintro ⟨i, e, htells⟩
    cases hscan : scanLines source number lines with
    | error e' => exact ⟨e', rfl⟩
    | ok ds => exact absurd htells (not_tells_error hscan)

end Directive

namespace Expansion

variable {m : Type → Type} [Monad m]

/-- Expand an open file as `expandFile` does and write it down; what goes on inside the file is not
written down. -/
def noting (expandFile : String → Ledgered m (List String)) (path : String) :
    Ledgered (StateT (List String) m) (List String) :=
  ExceptT.mk fun l => written (fun _ => [path]) ((expandFile path).run l)

open Ledgered Tracing

variable [LawfulMonad m] {t : Tracing m} {h : Host m} {v : Host Id} (hh : h.Traced t v)
  {r : Resolver} {debug : Bool} {path : String} {note : String → Ledgered m (List String)}
  {expandFile : String → Ledgered Id (List String)}
include hh

/-- Lines that are expanded open the files that the directives found in them resolve to. -/
theorem exists_scan_of_expandLines (hfile : ∀ target, (expandFile target).Restores)
    (hnote : ∀ target l, t.Runs (note target) l ((expandFile target).result l) l [target])
    {l : Ledger} {number : Nat} {lines out : List String}
    (hout : (expandLines v r debug path expandFile number lines).result l = .ok out) :
    ∃ ds targets, Directive.scanLines path number lines = .ok ds ∧
      ds.map (r.targetOf v) = targets.map .ok ∧
      t.Runs (expandLines h r debug path note number lines) l (.ok out) l targets := by
  induction lines generalizing number out with
  | nil =>
    cases hout
    exact ⟨[], [], rfl, rfl, runs_pure [] l⟩
  | cons line rest ih =>
    rw [result_expandLines_cons v r debug path hfile] at hout
    obtain ⟨here, hpiece, hout⟩ := bind_eq_ok_iff.mp hout
    obtain ⟨more, hmore, hout⟩ := bind_eq_ok_iff.mp hout
    cases hout
    obtain ⟨ds, targets, hscan, htargets, hruns⟩ := ih hmore
    rcases (piece_eq_ok_iff v r debug path).mp hpiece with
      ⟨hplain, rfl⟩ | ⟨d, target, l', lines, hparse, hresolve, henter, hlines, rfl⟩
    · refine ⟨ds, targets, Directive.scanLines_cons_eq_ok_iff.mpr ⟨none, ds, hplain, hscan, rfl⟩,
        htargets, ?_⟩
      rw [expandLines, hplain]
      exact (runs_pure [line] l).silentThen (runs_append hruns [line])
    · refine ⟨d :: ds, target :: targets,
        Directive.scanLines_cons_eq_ok_iff.mpr ⟨some d, ds, hparse, hscan, rfl⟩, ?_, ?_⟩
      · rw [List.map_cons, List.map_cons, hresolve, htargets]
      · have hinside := hnote target l'
        rw [hlines] at hinside
        rw [expandLines, hparse]
        refine (runs_resolve hh hresolve l).silentThen ?_
        refine (Runs.withFile henter hinside).then ?_
        exact (runs_pure _ l).silentThen (runs_append hruns _)

end Expansion

namespace Machine

open Directive Expansion Preprocessor

variable {s : Machine} {cwd : Names} {r : Resolver} {debug : Bool} {l : Ledger}
  {file text : String}

def opened (s : Machine) (cwd : Names) (r : Resolver) (debug : Bool) (l : Ledger)
    (file text : String) : Except Thrown (List String) × List String :=
  let expandFile := expandWithin (host cwd) r debug l.capacity
  let lines := expandLines (host cwd).recording r debug file (noting expandFile) 1
    (Text.splitLines text)
  let ended := (((lines.run l).run []).run s).1
  (ended.1.1, ended.2)

theorem runs_noting {x : String → Ledgered Run (List String)}
    {y : String → Ledgered Id (List String)} {target : String}
    (hx : s.settled.Runs (x target) (y target)) (hy : (y target).Restores) (l : Ledger) :
    s.tracing.Runs (noting x target) l ((y target).result l) l [target] := by
  have hended := hx l
  rw [hy.run_eq] at hended
  exact tracing_written hended _

theorem opened_of_runs {out : Except Thrown (List String)} {targets : List String}
    (h : s.tracing.Runs (expandLines (host cwd).recording r debug file
      (noting (expandWithin (host cwd) r debug l.capacity)) 1 (Text.splitLines text)) l out l
      targets) : s.opened cwd r debug l file text = (out, targets) := by
  obtain ⟨err, hrun⟩ := h s.err
  exact congrArg (fun p => (p.1.1.1, p.1.2)) (hrun [])

theorem exists_scan_of_linesOf (hs : s.Steady) {lines : List String}
    (h : s.linesOf cwd r debug l file = .ok lines) :
    ∃ text ds targets, (s.view cwd).textOf file = .ok text ∧ scan text file = .ok ds ∧
      ds.map (s.resolved cwd r) = targets.map .ok ∧
      s.opened cwd r debug l file text = (.ok lines, targets) := by
  rw [linesOf_eq hs, result_expandWithin_succ_eq_ok_iff] at h
  obtain ⟨text, htext, hlines⟩ := h
  have hrestores := fun target => restores_expandWithin (s.view cwd) r debug target l.capacity
  have hinside (target : String) :
      s.settled.Runs (expandWithin (host cwd) r debug l.capacity target)
        (expandWithin (s.view cwd) r debug l.capacity target) :=
    (host_corresponds hs cwd fun _ => True).expandWithin (fun _ _ _ => trivial) debug _ trivial
  obtain ⟨ds, targets, hscan, htargets, hruns⟩ :=
    exists_scan_of_expandLines (recording_traced hs cwd) hrestores
      (fun target => runs_noting (hinside target) (hrestores target)) hlines
  refine ⟨text, ds, targets, htext, hscan, ?_, opened_of_runs hruns⟩
  rw [← htargets]
  exact List.map_congr_left fun d _ => resolved_eq hs cwd r d

/-- The scan of a text gives the directives of all its lines in order or the error of the first
malformed one. An expansion of a file that succeeds opens directly below the file those that the
directives of the scan resolve to, in order; where the scan fails, the expansion does. -/
theorem expansion_follows_scan (hs : s.Steady) (cwd : Names) (r : Resolver) (debug : Bool)
    (l : Ledger) (file : String) :
    (∀ content source,
      let tells := Tells source 1 (Text.splitLines content)
      (∀ ds, scan content source = .ok ds →
        (∀ d, d ∈ ds ↔ ∃ i, d.lineNumber = .count (1 + i) ∧ tells i (.ok (some d))) ∧
        ∃ numbers : List Nat, ds.map lineNumber = numbers.map Number.count ∧
          numbers.Pairwise (· < ·)) ∧
      (∀ e, scan content source = .error e ↔
        ∃ i, tells i (.error e) ∧ ∀ j < i, ∃ found, tells j (.ok found)) ∧
      ((∃ e, scan content source = .error e) ↔ ∃ i e, tells i (.error e))) ∧
    (∀ lines, s.linesOf cwd r debug l file = .ok lines →
      ∃ text ds targets, (s.view cwd).textOf file = .ok text ∧ scan text file = .ok ds ∧
        ds.map (s.resolved cwd r) = targets.map .ok ∧
        s.opened cwd r debug l file text = (.ok lines, targets)) ∧
    ∀ text e, (s.view cwd).textOf file = .ok text → scan text file = .error e →
      ∃ e', s.linesOf cwd r debug l file = .error e' := by
  refine ⟨fun content source => ⟨fun ds h => ⟨fun d => ?_, ?_⟩, fun e => scanLines_eq_error_iff,
    exists_scanLines_eq_error_iff⟩, fun lines => exists_scan_of_linesOf hs,
    fun text e htext he => ?_⟩
  · rw [mem_scanLines_iff h]
    exact exists_congr fun i => ⟨fun htells => ⟨htells.lineNumber, htells⟩, And.right⟩
  · obtain ⟨numbers, hnumbers, hincreasing, -⟩ := scanLines_increasing h
    exact ⟨numbers, hnumbers, hincreasing⟩
  · cases hlines : s.linesOf cwd r debug l file with
    | error e' => exact ⟨e', rfl⟩
    | ok lines =>
      obtain ⟨text', ds, targets, htext', hscan, -⟩ := exists_scan_of_linesOf hs hlines
      rw [htext] at htext'
      cases htext'
      rw [he] at hscan
      cases hscan

theorem nested_expansion_follows_scan :
    let l : Ledger := { limit := .number (.count 2), opened := ["/w/a"], held := ["/w/a"] }
    nested.Steady ∧ nested.linesOf ["w"] ⟨"/w"⟩ false l "/w/a" = .ok ["y", "x"] ∧
    ∃ ds, scan "#include b\nx\n" "/w/a" = .ok ds ∧
      ds.map (nested.resolved ["w"] ⟨"/w"⟩) = [.ok "/w/b"] ∧
      nested.opened ["w"] ⟨"/w"⟩ false l "/w/a" "#include b\nx\n" = (.ok ["y", "x"], ["/w/b"]) := by
  intro l
  have hs : nested.Steady := steady_of_faults_eq_nil rfl
  have hlines : nested.linesOf ["w"] ⟨"/w"⟩ false l "/w/a" = .ok ["y", "x"] :=
    eq_ok_of_toOption (by decide +kernel)
  have htext : (nested.view ["w"]).textOf "/w/a" = .ok "#include b\nx\n" :=
    eq_ok_of_toOption (by decide +kernel)
  have hone : (nested.opened ["w"] ⟨"/w"⟩ false l "/w/a" "#include b\nx\n").2 = ["/w/b"] := by
    decide +kernel
  obtain ⟨-, hfollows, -⟩ := expansion_follows_scan hs ["w"] ⟨"/w"⟩ false l "/w/a"
  obtain ⟨text, ds, targets, htext', hscan, htargets, hopened⟩ := hfollows _ hlines
  rw [htext] at htext'
  cases htext'
  rw [hopened] at hone
  dsimp only at hone
  subst hone
  exact ⟨hs, hlines, ds, hscan, htargets, hopened⟩

end Machine
end Inliner
