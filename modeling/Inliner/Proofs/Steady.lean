import Inliner.Machine
import Inliner.Proofs.Correspondence

/-! Machines that answer the same call the same way all through a run. A run ends as it does on
their answers, and changes nothing but the text logged so far. -/
namespace Inliner

/-- The answers that a host gives in the state `s`; nothing is logged. -/
def Host.answersIn {σ : Type} (h : Host (StateM σ)) (s : σ) : Host Id where
  cwd := h.cwd
  log _ := ()
  logs level := (h.logs level s).1
  realpath path := ((h.realpath path).run s).1
  isFile path := ((h.isFile path).run s).1
  assertReadable path := ((h.assertReadable path).run s).1
  read path := ((h.read path).run s).1

namespace Machine

/-- A machine on which the faults that are set stay, each with an error of the system: a file tree
in which some calls on some paths are refused. -/
structure Steady (s : Machine) : Prop where
  lasting : ∀ f ∈ s.faults, f.times = none
  foreign : ∀ f ∈ s.faults, f.error.IsForeign

theorem steady_of_faults_eq_nil {s : Machine} (h : s.faults = []) : s.Steady := by
  constructor <;> simp [h]

theorem Steady.withTree {s : Machine} (hs : s.Steady) (t : FileTree) :
    { s with tree := t }.Steady :=
  ⟨hs.lasting, hs.foreign⟩

theorem take?_of_lasting {call : Call} {path : String} {faults rest : List Fault} {e : Thrown}
    (hl : ∀ f ∈ faults, f.times = none) (h : Fault.take? call path faults = some (e, rest)) :
    rest = faults ∧ ∃ f ∈ faults, e = f.error := by
  induction faults generalizing rest with
  | nil => cases h
  | cons f fs ih =>
    rw [Fault.take?] at h
    split at h
    · cases h
      have hused : f.used = f := by
        have hf := hl f (by simp)
        cases f
        simp_all [Fault.used]
      exact ⟨by rw [hused], f, by simp, rfl⟩
    · obtain ⟨⟨e', fs'⟩, hrest, heq⟩ := Option.map_eq_some_iff.mp h
      cases heq
      obtain ⟨hfs, g, hg, he⟩ := ih (fun g hg => hl g (by simp [hg])) hrest
      exact ⟨by rw [hfs], g, by simp [hg], he⟩

/-- What a call that changes nothing comes to on the machine `s`. -/
def answer {α : Type} (s : Machine) (cwd : Names) (call : Call) (path : String)
    (action : FileTree → Except Thrown α) : Except Thrown α :=
  match Fault.take? call (Path.render (Path.resolve cwd path)) s.faults with
  | some (e, _) => .error e
  | none => if path.toList.contains (Char.ofNat 0) then .error (nulError path) else action s.tree

theorem reading_run {s : Machine} (hs : s.Steady) {α : Type} (cwd : Names) (call : Call)
    (path : String) (action : FileTree → Except Thrown α) (err : String) :
    (reading cwd call path action).run { s with err } =
      (s.answer cwd call path action, { s with err }) := by
  show guarded cwd call path (fun t => (action t, t)) { s with err } = _
  unfold guarded answer
  cases heq : Fault.take? call (Path.render (Path.resolve cwd path)) s.faults with
  | some found =>
    obtain ⟨e, rest⟩ := found
    obtain ⟨rfl, -⟩ := take?_of_lasting hs.lasting heq
    simp only [ExceptT.mk, heq]
  | none =>
    by_cases hnul : path.toList.contains (Char.ofNat 0) = true
    · simp only [ExceptT.mk, heq, hnul, if_true]
    · simp only [ExceptT.mk, heq, hnul, if_false, Bool.false_eq_true]

/-- Computations that come to a value on `s` whatever was logged, and leave all else alone. -/
def settled (s : Machine) : Correspondence Run where
  Rel x a := ∀ err, ∃ err', x.run { s with err } = (a, { s with err := err' })
  value a err := ⟨err, rfl⟩
  sequence {α β x a f b} hx hf err := by
    obtain ⟨err₁, h₁⟩ := hx err
    obtain ⟨err₂, h₂⟩ := hf err₁
    refine ⟨err₂, ?_⟩
    rw [StateT.run_bind, h₁]
    exact h₂

theorem settled_reading {s : Machine} (hs : s.Steady) {α : Type} (cwd : Names) (call : Call)
    (path : String) (action : FileTree → Except Thrown α) :
    s.settled.Ends (reading cwd call path action) ((reading cwd call path action).run s).1 := by
  intro err
  refine ⟨err, ?_⟩
  have hself := reading_run hs cwd call path action s.err
  rw [show (reading cwd call path action).run s = _ from hself]
  exact reading_run hs cwd call path action err

theorem settled_log (s : Machine) (r : Log.Record) : s.settled.Rel (log r) () := by
  intro err
  by_cases h : r.level.enabledAt s.threshold
  · refine ⟨err ++ r.line ++ "\n", ?_⟩
    show ((), if r.level.enabledAt s.threshold then _ else _) = _
    rw [if_pos h]
  · refine ⟨err, ?_⟩
    show ((), if r.level.enabledAt s.threshold then _ else _) = _
    rw [if_neg h]

/-- The answers of a machine to the calls of a run in the directory `cwd`. -/
abbrev view (s : Machine) (cwd : Names) : Host Id := (host cwd).answersIn s

def outcome (s : Machine) (cwd : Names) (o : Options) (input : String) : Except Thrown String :=
  ((Preprocessor.process (host cwd) o input).run s).1

def resolved (s : Machine) (cwd : Names) (r : Resolver) (d : Directive) : Except Thrown String :=
  ((r.resolve (host cwd) d).run s).1

theorem host_corresponds {s : Machine} (hs : s.Steady) (cwd : Names) (files : String → Prop) :
    (host cwd).Corresponds s.settled files (s.view cwd) where
  cwd := rfl
  log r := s.settled_log r
  realpath path := settled_reading hs cwd _ path _
  isFile path := settled_reading hs cwd _ path _
  assertReadable path := settled_reading hs cwd _ path _
  read path _ := settled_reading hs cwd .read path fun t => (t.read cwd path).map Text.decodeUtf8

/-- A run on a steady machine ends as the run on its answers, and only adds to the log. -/
theorem process_run {s : Machine} (hs : s.Steady) (cwd : Names) (o : Options) (input : String) :
    ∃ err, (Preprocessor.process (host cwd) o input).run s =
      (Preprocessor.outcomeOf (s.view cwd) o input, { s with err }) :=
  (host_corresponds hs cwd fun _ => True).process (fun _ _ => trivial)
    (fun _ _ _ _ _ _ _ => trivial) s.err

theorem outcome_eq {s : Machine} (hs : s.Steady) (cwd : Names) (o : Options) (input : String) :
    s.outcome cwd o input = Preprocessor.outcomeOf (s.view cwd) o input := by
  obtain ⟨err, h⟩ := process_run hs cwd o input
  exact congrArg Prod.fst h

theorem resolved_eq {s : Machine} (hs : s.Steady) (cwd : Names) (r : Resolver) (d : Directive) :
    s.resolved cwd r d = r.targetOf (s.view cwd) d := by
  obtain ⟨err, h⟩ := (host_corresponds hs cwd fun _ => True).resolve r d s.err
  exact congrArg Prod.fst h

section answers

variable {s : Machine} (hs : s.Steady) (cwd : Names) (path : String)
include hs

theorem answersIn_realpath : (s.view cwd).realpath path =
    s.answer cwd .realpath path (realpathIn cwd path) :=
  congrArg Prod.fst (reading_run hs cwd _ path _ s.err)

theorem answersIn_isFile : (s.view cwd).isFile path =
    s.answer cwd .isFile path (isFileIn cwd path) :=
  congrArg Prod.fst (reading_run hs cwd _ path _ s.err)

theorem answersIn_assertReadable : (s.view cwd).assertReadable path =
    s.answer cwd .assertReadable path (accessIn cwd path) :=
  congrArg Prod.fst (reading_run hs cwd _ path _ s.err)

theorem answersIn_read : (s.view cwd).read path =
    s.answer cwd .read path fun t => (t.read cwd path).map Text.decodeUtf8 :=
  congrArg Prod.fst (reading_run hs cwd .read path _ s.err)

end answers

theorem answer_eq_ok {s : Machine} {cwd : Names} {call : Call} {path : String} {α : Type}
    {action : FileTree → Except Thrown α} {a : α} (h : s.answer cwd call path action = .ok a) :
    action s.tree = .ok a := by
  unfold answer at h
  split at h
  · cases h
  · split at h
    · cases h
    · exact h

theorem answer_foreign {s : Machine} (hs : s.Steady) {cwd : Names} {call : Call} {path : String}
    {α : Type} {action : FileTree → Except Thrown α}
    (haction : ∀ e, action s.tree = .error e → e.IsForeign) {e : Thrown}
    (h : s.answer cwd call path action = .error e) : e.IsForeign := by
  unfold answer at h
  split at h
  · rename_i heq
    cases h
    obtain ⟨f, hf, rfl⟩ := (take?_of_lasting hs.lasting heq).2
    exact hs.foreign f hf
  · split at h
    · cases h
      trivial
    · exact haction e h

theorem statIn_foreign {cwd : Names} {call path : String} {t : FileTree} {e : Thrown}
    (h : statIn cwd call path t = .error e) : e.IsForeign := by
  unfold statIn at h
  split at h
  · cases h
  · cases h
    trivial

theorem isForeign_thrownBy (stop : FileTree.Stop) : (thrownBy stop).IsForeign := by
  cases stop <;> trivial

theorem realpathIn_foreign {cwd : Names} {path : String} {t : FileTree} {e : Thrown}
    (h : realpathIn cwd path t = .error e) : e.IsForeign := by
  unfold realpathIn at h
  split at h
  · cases h
  · cases h
    exact isForeign_thrownBy _

theorem isFileIn_foreign {cwd : Names} {path : String} {t : FileTree} {e : Thrown}
    (h : isFileIn cwd path t = .error e) : e.IsForeign :=
  statIn_foreign (map_eq_error_iff.mp h)

theorem accessIn_foreign {cwd : Names} {path : String} {t : FileTree} {e : Thrown}
    (h : accessIn cwd path t = .error e) : e.IsForeign :=
  statIn_foreign (map_eq_error_iff.mp h)

theorem read_foreign {cwd : Names} {path : String} {t : FileTree} {e : Thrown}
    (h : (t.read cwd path).map Text.decodeUtf8 = .error e) : e.IsForeign := by
  have hread := map_eq_error_iff.mp h
  unfold FileTree.read at hread
  split at hread
  · cases hread
    trivial
  · cases hread
  · cases hread
    trivial

theorem raisesForeign {s : Machine} (hs : s.Steady) (cwd : Names) :
    (s.view cwd).RaisesForeign where
  realpath {path e} h := by
    rw [answersIn_realpath hs] at h
    exact answer_foreign hs (fun _ => realpathIn_foreign) h
  isFile {path e} h := by
    rw [answersIn_isFile hs] at h
    exact answer_foreign hs (fun _ => isFileIn_foreign) h
  assertReadable {path e} h := by
    rw [answersIn_assertReadable hs] at h
    exact answer_foreign hs (fun _ => accessIn_foreign) h
  read {path e} h := by
    rw [answersIn_read hs] at h
    exact answer_foreign hs (fun _ => read_foreign) h

end Machine
end Inliner
