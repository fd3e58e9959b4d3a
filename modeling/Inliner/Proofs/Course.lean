import Inliner.Proofs.Correspondence

/-! The course that an expansion takes, as a finite tree of calls with no bound on its depth. Every
file that is open on a ledger in good order has one. -/
namespace Inliner.Expansion

/-- What there is to expand: a file, or its lines from line `number` on. -/
inductive Task where
  | file (path : String)
  | lines (path : String) (number : Nat) (rest : List String)
  deriving DecidableEq, Repr

/-- A file that is expanded, with the files that are open at that point, outermost first. -/
structure Visit where
  path : String
  stack : List String
  deriving DecidableEq, Repr

/-- What a task ends with while the files of a ledger are open, and the files that are expanded on
the way, in order. -/
inductive Course (v : Host Id) (r : Resolver) (debug : Bool) :
    Ledger → Task → Except Thrown (List String) → List Visit → Prop
  | unreadable {l : Ledger} {path : String} {e : Thrown} (read : v.textOf path = .error e) :
      Course v r debug l (.file path) (.error (e.attach l.stack)) [⟨path, l.stack⟩]
  | readable {l : Ledger} {path text : String} {out : Except Thrown (List String)}
      {visits : List Visit} (read : v.textOf path = .ok text)
      (below : Course v r debug l (.lines path 1 (Text.splitLines text)) out visits) :
      Course v r debug l (.file path) (out.mapError (Thrown.attach l.stack))
        (⟨path, l.stack⟩ :: visits)
  | done {l : Ledger} {path : String} {number : Nat} :
      Course v r debug l (.lines path number []) (.ok []) []
  | plain {l : Ledger} {path line : String} {number : Nat} {rest : List String}
      {out : Except Thrown (List String)} {visits : List Visit}
      (parse : Directive.parseLine line (.count number) path = .ok none)
      (below : Course v r debug l (.lines path (number + 1) rest) out visits) :
      Course v r debug l (.lines path number (line :: rest)) (out.map ([line] ++ ·)) visits
  | malformed {l : Ledger} {path line : String} {number : Nat} {rest : List String} {e : Thrown}
      (parse : Directive.parseLine line (.count number) path = .error e) :
      Course v r debug l (.lines path number (line :: rest)) (.error e) []
  | unresolved {l : Ledger} {path line : String} {number : Nat} {rest : List String}
      {d : Directive} {e : Thrown}
      (parse : Directive.parseLine line (.count number) path = .ok (some d))
      (resolve : r.targetOf v d = .error e) :
      Course v r debug l (.lines path number (line :: rest)) (.error e) []
  | refused {l : Ledger} {path line target : String} {number : Nat} {rest : List String}
      {d : Directive} {e : Thrown}
      (parse : Directive.parseLine line (.count number) path = .ok (some d))
      (resolve : r.targetOf v d = .ok target)
      (enter : l.enter target (some d.location) = .error e) :
      Course v r debug l (.lines path number (line :: rest)) (.error e) []
  | failed {l l' : Ledger} {path line target : String} {number : Nat} {rest : List String}
      {d : Directive} {e : Thrown} {visits : List Visit}
      (parse : Directive.parseLine line (.count number) path = .ok (some d))
      (resolve : r.targetOf v d = .ok target)
      (enter : l.enter target (some d.location) = .ok l')
      (inside : Course v r debug l' (.file target) (.error e) visits) :
      Course v r debug l (.lines path number (line :: rest)) (.error e) visits
  | inlined {l l' : Ledger} {path line target : String} {number : Nat} {rest : List String}
      {d : Directive} {lines : List String} {out : Except Thrown (List String)}
      {visits more : List Visit}
      (parse : Directive.parseLine line (.count number) path = .ok (some d))
      (resolve : r.targetOf v d = .ok target)
      (enter : l.enter target (some d.location) = .ok l')
      (inside : Course v r debug l' (.file target) (.ok lines) visits)
      (below : Course v r debug l (.lines path (number + 1) rest) out more) :
      Course v r debug l (.lines path number (line :: rest))
        (out.map (block debug d.rawPath lines ++ ·)) (visits ++ more)

variable {v : Host Id} {r : Resolver} {debug : Bool}

theorem exists_course_lines {l : Ledger}
    (hfile : ∀ target location l', l.enter target location = .ok l' →
      ∃ out visits, Course v r debug l' (.file target) out visits)
    (path : String) (number : Nat) (rest : List String) :
    ∃ out visits, Course v r debug l (.lines path number rest) out visits := by
  induction rest generalizing number with
  | nil => exact ⟨_, _, .done⟩
  | cons line rest ih =>
    obtain ⟨out, more, hbelow⟩ := ih (number + 1)
    cases hparse : Directive.parseLine line (.count number) path with
    | error e => exact ⟨_, _, .malformed hparse⟩
    | ok found =>
      cases found with
      | none => exact ⟨_, _, .plain hparse hbelow⟩
      | some d =>
        cases hresolve : r.targetOf v d with
        | error e => exact ⟨_, _, .unresolved hparse hresolve⟩
        | ok target =>
          cases henter : l.enter target (some d.location) with
          | error e => exact ⟨_, _, .refused hparse hresolve henter⟩
          | ok l' =>
            obtain ⟨inner, visits, hinside⟩ := hfile target (some d.location) l' henter
            cases inner with
            | error e => exact ⟨_, _, .failed hparse hresolve henter hinside⟩
            | ok lines => exact ⟨_, _, .inlined hparse hresolve henter hinside hbelow⟩

/-- Every file that is expanded on a ledger in good order has a course. -/
theorem exists_course {l : Ledger} (hl : l.Kept) (path : String) :
    ∃ out visits, Course v r debug l (.file path) out visits := by
  -- the room that is left decreases with every file that is opened
  induction hroom : l.capacity - l.depth using Nat.strong_induction_on generalizing l path with
  | _ room ih =>
    have hinside (target : String) (location : Option Location) (l' : Ledger)
        (henter : l.enter target location = .ok l') :
        ∃ out visits, Course v r debug l' (.file target) out visits := by
      have hl' := hl.enter henter
      obtain ⟨-, hless, rfl⟩ := hl.enter_eq_ok_iff.mp henter
      refine ih _ ?_ hl' target rfl
      rw [Ledger.push_capacity, Ledger.push_depth]
      omega
    cases hread : v.textOf path with
    | error e => exact ⟨_, _, .unreadable hread⟩
    | ok text =>
      obtain ⟨out, visits, hlines⟩ := exists_course_lines hinside path 1 (Text.splitLines text)
      exact ⟨_, _, .readable hread hlines⟩

/-- The visit is made on the ledger, or with further targets of directives open on it in good
order. -/
def Visit.Inside (v : Host Id) (r : Resolver) (l : Ledger) (visit : Visit) : Prop :=
  ∃ inner, visit.stack = (l.pushAll inner).stack ∧ (l.pushAll inner).Kept ∧
    ∀ target ∈ inner, r.IsTarget v target

namespace Visit.Inside

variable {l l' : Ledger} {visit : Visit}

theorem of_enter {d : Directive} {target : String} (hresolve : r.targetOf v d = .ok target)
    {location : Option Location} (henter : l.enter target location = .ok l')
    (h : visit.Inside v r l') : visit.Inside v r l := by
  obtain ⟨inner, hstack, hkept, htargets⟩ := h
  obtain rfl := Ledger.enter_eq_ok henter
  exact ⟨target :: inner, hstack, hkept, List.forall_mem_cons.mpr ⟨⟨d, hresolve⟩, htargets⟩⟩

theorem length_le (h : visit.Inside v r l) : visit.stack.length ≤ l.capacity := by
  obtain ⟨inner, hstack, hkept, -⟩ := h
  have hdepth := hkept.depth_le
  rwa [← Ledger.length_stack, ← hstack, Ledger.pushAll_capacity] at hdepth

end Visit.Inside

namespace Course

variable {l : Ledger} {out : Except Thrown (List String)} {visits : List Visit}

theorem mem_visits {path : String} (hc : Course v r debug l (.file path) out visits) :
    ⟨path, l.stack⟩ ∈ visits := by
  cases hc with
  | unreadable read => simp
  | readable read below => simp

theorem inside {task : Task} (hc : Course v r debug l task out visits) (hl : l.Kept) :
    ∀ visit ∈ visits, visit.Inside v r l := by
  have hhere {l : Ledger} (hl : l.Kept) (path : String) : Visit.Inside v r l ⟨path, l.stack⟩ :=
    ⟨[], rfl, hl, by simp⟩
  induction hc with
  | @unreadable l path e read =>
    intro visit hvisit
    cases List.mem_singleton.mp hvisit
    exact hhere hl path
  | @readable l path text out visits read below ih =>
    exact List.forall_mem_cons.mpr ⟨hhere hl path, ih hl⟩
  | plain parse below ih => exact ih hl
  | done | malformed | unresolved | refused => simp
  | failed parse resolve enter inside ih =>
    intro visit hvisit
    exact (ih (hl.enter enter) visit hvisit).of_enter resolve enter
  | inlined parse resolve enter inside below ihi ihb =>
    intro visit hvisit
    rcases List.mem_append.mp hvisit with hvisit | hvisit
    · exact (ihi (hl.enter enter) visit hvisit).of_enter resolve enter
    · exact ihb hl visit hvisit

end Course
end Inliner.Expansion
