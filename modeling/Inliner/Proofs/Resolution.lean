import Inliner.Resolver
import Mathlib

/-! Resolving and reading on a host that answers as a plain function. A target is told by four
answers, and what fails without one of them is a failure to reach a file. -/
namespace Inliner

/-- Not a failure of the domain, which surroundings never raise of their own accord. -/
def Thrown.IsForeign : Thrown → Prop
  | .failure _ => False
  | .error _ | .value _ => True

def Thrown.IsAccess : Thrown → Prop
  | .failure f =>
    match f.problem with
    | .notFound .. | .denied .. | .io .. => True
    | _ => False
  | _ => False

theorem Thrown.isAccess_onPath {e : Thrown} (h : e.IsForeign) (path : String)
    (location : Option Location) : (Thrown.failure (e.onPath path location)).IsAccess := by
  cases e with
  | failure f => exact h.elim
  | error e =>
    have hcode (code : Value) :
        (Thrown.failure { problem := .ofCode code path location
                          causes := chain (.error e) }).IsAccess := by
      simp only [Problem.ofCode]
      split <;> trivial
    exact hcode e.code
  | value v => cases v <;> trivial

/-- No call of the host raises a failure of the domain. -/
structure Host.RaisesForeign (v : Host Id) : Prop where
  realpath : ∀ {path e}, v.realpath path = Except.error e → e.IsForeign
  isFile : ∀ {path e}, v.isFile path = Except.error e → e.IsForeign
  assertReadable : ∀ {path e}, v.assertReadable path = Except.error e → e.IsForeign
  read : ∀ {path e}, v.read path = Except.error e → e.IsForeign

theorem run_bind_eq {α β : Type} (x : ExceptT Thrown Id α) (f : α → ExceptT Thrown Id β) :
    (x >>= f).run = Except.bind x.run fun a => (f a).run := by
  cases hx : x.run with
  | ok a => exact congrArg (ExceptT.bindCont f) hx
  | error e => exact congrArg (ExceptT.bindCont f) hx

theorem run_onPath {α : Type} (path : String) (location : Option Location)
    (x : ExceptT Thrown Id α) :
    (onPath path location x).run = x.run.mapError fun t => .failure (t.onPath path location) := by
  cases hx : x.run with
  | ok a =>
    have hx' : x = Except.ok a := hx
    rw [hx']
    rfl
  | error e =>
    have hx' : x = Except.error e := hx
    rw [hx']
    rfl

theorem isAccess_of_run_onPath {α : Type} {path : String} {location : Option Location}
    {x : ExceptT Thrown Id α} (hx : ∀ e, x.run = .error e → e.IsForeign) {e : Thrown}
    (h : (onPath path location x).run = .error e) : e.IsAccess := by
  rw [run_onPath] at h
  cases hr : x.run with
  | ok a => rw [hr] at h; cases h
  | error t =>
    rw [hr] at h
    cases h
    exact Thrown.isAccess_onPath (hx t hr) path location

theorem eq_ok_of_toOption {α : Type} {x : Except Thrown α} {a : α} (h : x.toOption = some a) :
    x = .ok a := by
  cases x with
  | error e => cases h
  | ok b =>
    cases h
    rfl

theorem mapError_eq_ok_iff {α : Type} {x : Except Thrown α} {f : Thrown → Thrown} {a : α} :
    x.mapError f = .ok a ↔ x = .ok a := by
  cases x <;> simp [Except.mapError]

theorem mapError_eq_error_iff {α : Type} {x : Except Thrown α} {f : Thrown → Thrown} {e : Thrown} :
    x.mapError f = .error e ↔ ∃ t, x = .error t ∧ f t = e := by
  cases x <;> simp [Except.mapError]

theorem map_eq_ok_iff {ε α β : Type} {x : Except ε α} {f : α → β} {b : β} :
    x.map f = .ok b ↔ ∃ a, x = .ok a ∧ f a = b := by
  cases x <;> simp [Except.map]

theorem map_eq_error_iff {ε α β : Type} {x : Except ε α} {f : α → β} {e : ε} :
    x.map f = .error e ↔ x = .error e := by
  cases x <;> simp [Except.map]

theorem bind_eq_ok_iff {α β : Type} {x : Except Thrown α} {f : α → Except Thrown β} {b : β} :
    x.bind f = .ok b ↔ ∃ a, x = .ok a ∧ f a = .ok b := by
  cases x <;> simp [Except.bind]

theorem bind_eq_error_iff {α β : Type} {x : Except Thrown α} {f : α → Except Thrown β}
    {e : Thrown} :
    x.bind f = .error e ↔ x = .error e ∨ ∃ a, x = .ok a ∧ f a = .error e := by
  cases x <;> simp [Except.bind]

theorem exists_ok_iff_of_error_iff {ε α β : Type} {x : Except ε α} {y : Except ε β}
    (h : ∀ e, x = .error e ↔ y = .error e) : (∃ a, x = .ok a) ↔ ∃ b, y = .ok b := by
  cases x with
  | error e =>
    obtain rfl := (h e).mp rfl
    simp
  | ok a =>
    cases y with
    | error e => cases (h e).mpr rfl
    | ok b => exact iff_of_true ⟨a, rfl⟩ ⟨b, rfl⟩

namespace Host

variable (v : Host Id)

/-- The text of a source file, or why it cannot be read. -/
def textOf (path : String) : Except Thrown String := (v.readSource path none).run

def canonicalOf (path : String) (location : Option Location) : Except Thrown String :=
  (v.canonicalize path location).run

variable {v}

theorem canonicalOf_eq (v : Host Id) (path : String) (location : Option Location) :
    v.canonicalOf path location =
      Except.mapError (fun t => .failure (t.onPath path location)) (v.realpath path) := by
  rw [canonicalOf, canonicalize, run_onPath]
  rfl

theorem canonicalOf_eq_ok_iff {path canonical : String} {location : Option Location} :
    v.canonicalOf path location = .ok canonical ↔ v.realpath path = Except.ok canonical := by
  rw [canonicalOf_eq]
  exact mapError_eq_ok_iff

theorem RaisesForeign.textOf (hv : v.RaisesForeign) {path : String} {e : Thrown}
    (h : v.textOf path = .error e) : e.IsAccess :=
  isAccess_of_run_onPath (fun _ he => hv.read he) h

theorem RaisesForeign.canonicalOf (hv : v.RaisesForeign) {path : String}
    {location : Option Location} {e : Thrown} (h : v.canonicalOf path location = .error e) :
    e.IsAccess :=
  isAccess_of_run_onPath (fun _ he => hv.realpath he) h

end Host

namespace Resolver

variable (r : Resolver) (v : Host Id) (d : Directive)

/-- The file that a directive stands for, or why there is none. -/
def targetOf : Except Thrown String := (r.resolve v d).run

/-- A file that some directive stands for. -/
def IsTarget (path : String) : Prop := ∃ d, r.targetOf v d = .ok path

def escaped : Thrown := .ofProblem (.notFound d.rawPath (some d.location))

/-- The checks on a canonical path: a regular file stands there, and it may be read. -/
def checkFile (path canonical : String) : Except Thrown Unit :=
  Except.mapError (fun t => .failure (t.onPath path (some d.location)))
    (Except.bind (v.isFile canonical) fun found =>
      if found then v.assertReadable canonical
      else .error (.ofProblem (.notFound path (some d.location))))

theorem targetOf_eq :
    r.targetOf v d =
      let path := candidate v.cwd r.root d
      if Path.isWithinRoot v.cwd r.root path then
        (v.canonicalOf path (some d.location)).bind fun canonical =>
          if Path.isWithinRoot v.cwd r.root canonical then
            (checkFile v d path canonical).bind fun _ => .ok canonical
          else .error (escaped d)
      else .error (escaped d) := by
  have hcheck (path canonical : String) :
      (onPath path (some d.location) do
        if !(← v.isFile canonical) then
          throw (.ofProblem (.notFound path (some d.location)))
        v.assertReadable canonical).run = checkFile v d path canonical := by
    rw [run_onPath, run_bind_eq]
    apply congrArg (fun found => Except.mapError _ (Except.bind _ found))
    funext found
    cases found <;> rfl
  simp only [targetOf, resolve]
  cases Path.isWithinRoot v.cwd r.root (candidate v.cwd r.root d) with
  | false => rfl
  | true =>
    rw [if_neg (by simp), if_pos rfl, run_bind_eq]
    apply congrArg (Except.bind _)
    funext canonical
    cases Path.isWithinRoot v.cwd r.root canonical with
    | false => rfl
    | true =>
      rw [if_neg (by simp), if_pos rfl, run_bind_eq, hcheck]
      rfl

variable {v d}

theorem checkFile_eq_ok_iff {path canonical : String} :
    checkFile v d path canonical = .ok () ↔
      v.isFile canonical = Except.ok true ∧ v.assertReadable canonical = Except.ok () := by
  rw [checkFile, mapError_eq_ok_iff, bind_eq_ok_iff]
  constructor
  · rintro ⟨found, hfile, hread⟩
    cases found with
    | false => cases hread
    | true => exact ⟨hfile, hread⟩
  · rintro ⟨hfile, hread⟩
    exact ⟨true, hfile, hread⟩

theorem checkFile_eq_error (hv : v.RaisesForeign) {path canonical : String} {e : Thrown}
    (h : checkFile v d path canonical = .error e) :
    (∃ path, e = .ofProblem (.notFound path (some d.location))) ∨
    ∃ (t : Thrown) (path : String), t.IsForeign ∧ e = .failure (t.onPath path (some d.location)) := by
  obtain ⟨t, ht, rfl⟩ := mapError_eq_error_iff.mp h
  rcases bind_eq_error_iff.mp ht with hfile | ⟨found, -, hread⟩
  · exact .inr ⟨t, path, hv.isFile hfile, rfl⟩
  · cases found with
    | false =>
      cases hread
      exact .inl ⟨path, rfl⟩
    | true => exact .inr ⟨t, path, hv.assertReadable hread, rfl⟩

variable {r}

/-- A target is a canonical path below the root at which a readable file stands. -/
theorem targetOf_eq_ok_iff {target : String} :
    r.targetOf v d = .ok target ↔
      Path.isWithinRoot v.cwd r.root (candidate v.cwd r.root d) = true ∧
      v.realpath (candidate v.cwd r.root d) = Except.ok target ∧
      Path.isWithinRoot v.cwd r.root target = true ∧
      v.isFile target = Except.ok true ∧ v.assertReadable target = Except.ok () := by
  rw [targetOf_eq, ← checkFile_eq_ok_iff]
  by_cases hw : Path.isWithinRoot v.cwd r.root (candidate v.cwd r.root d)
  · simp only [hw, if_true, true_and, bind_eq_ok_iff, Host.canonicalOf_eq_ok_iff]
    constructor
    · rintro ⟨canonical, hcanonical, h⟩
      split at h
      · obtain ⟨⟨⟩, hcheck, hsame⟩ := bind_eq_ok_iff.mp h
        cases hsame
        exact ⟨hcanonical, ‹_›, hcheck⟩
      · cases h
    · rintro ⟨hcanonical, hwithin, hcheck⟩
      refine ⟨target, hcanonical, ?_⟩
      rw [if_pos hwithin, hcheck]
      rfl
  · simp [hw]

theorem targetOf_of_not_within
    (hw : Path.isWithinRoot v.cwd r.root (candidate v.cwd r.root d) = false) :
    r.targetOf v d = .error (escaped d) := by
  rw [targetOf_eq]
  simp [hw]

theorem targetOf_of_escape
    (hw : Path.isWithinRoot v.cwd r.root (candidate v.cwd r.root d) = true) {canonical : String}
    (hreal : v.realpath (candidate v.cwd r.root d) = Except.ok canonical)
    (hout : Path.isWithinRoot v.cwd r.root canonical = false) :
    r.targetOf v d = .error (escaped d) := by
  rw [targetOf_eq]
  simp [hw, Host.canonicalOf_eq_ok_iff.mpr hreal, hout, Except.bind]

theorem targetOf_of_realpath_error
    (hw : Path.isWithinRoot v.cwd r.root (candidate v.cwd r.root d) = true) {e : Thrown}
    (hreal : v.realpath (candidate v.cwd r.root d) = Except.error e) :
    r.targetOf v d =
      .error (.failure (e.onPath (candidate v.cwd r.root d) (some d.location))) := by
  have hc : v.canonicalOf (candidate v.cwd r.root d) (some d.location) =
      .error (.failure (e.onPath (candidate v.cwd r.root d) (some d.location))) := by
    rw [Host.canonicalOf_eq, hreal]
    rfl
  rw [targetOf_eq]
  simp [hw, hc, Except.bind]

/-- Resolving depends on how the candidate is made canonical, and on the checks of what that gives
below the root. -/
theorem targetOf_congr {v' : Host Id} (hcwd : v'.cwd = v.cwd)
    (hreal : v'.realpath (candidate v.cwd r.root d) = v.realpath (candidate v.cwd r.root d))
    (hfile : ∀ canonical, v.realpath (candidate v.cwd r.root d) = Except.ok canonical →
      Path.isWithinRoot v.cwd r.root canonical = true →
      v'.isFile canonical = v.isFile canonical ∧
        v'.assertReadable canonical = v.assertReadable canonical) :
    r.targetOf v' d = r.targetOf v d := by
  rw [targetOf_eq, targetOf_eq, hcwd]
  dsimp only
  rw [Host.canonicalOf_eq, Host.canonicalOf_eq, hreal, ← Host.canonicalOf_eq]
  split
  · cases hc : v.canonicalOf (candidate v.cwd r.root d) (some d.location) with
    | error e => rfl
    | ok canonical =>
      simp only [Except.bind]
      split
      · rename_i hw
        obtain ⟨hisFile, hreadable⟩ := hfile canonical (Host.canonicalOf_eq_ok_iff.mp hc) hw
        rw [checkFile, checkFile, hisFile, hreadable]
      · rfl
  · rfl

theorem targetOf_eq_error (hv : v.RaisesForeign) {e : Thrown} (h : r.targetOf v d = .error e) :
    (∃ path, e = .ofProblem (.notFound path (some d.location))) ∨
    ∃ (t : Thrown) (path : String), t.IsForeign ∧ e = .failure (t.onPath path (some d.location)) := by
  rw [targetOf_eq] at h
  dsimp only at h
  split at h
  · rcases bind_eq_error_iff.mp h with hcanonical | ⟨canonical, -, h⟩
    · rw [Host.canonicalOf_eq] at hcanonical
      obtain ⟨t, ht, rfl⟩ := mapError_eq_error_iff.mp hcanonical
      exact .inr ⟨t, _, hv.realpath ht, rfl⟩
    · split at h
      · rcases bind_eq_error_iff.mp h with hcheck | ⟨⟨⟩, -, hok⟩
        · exact checkFile_eq_error hv hcheck
        · cases hok
      · cases h
        exact .inl ⟨_, rfl⟩
  · cases h
    exact .inl ⟨_, rfl⟩

theorem targetOf_access (hv : v.RaisesForeign) {e : Thrown} (h : r.targetOf v d = .error e) :
    e.IsAccess := by
  rcases targetOf_eq_error hv h with ⟨path, rfl⟩ | ⟨t, path, ht, rfl⟩
  · trivial
  · exact Thrown.isAccess_onPath ht path _

end Resolver
end Inliner
