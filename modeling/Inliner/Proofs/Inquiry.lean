import Inliner.Proofs.Recording
import Inliner.Proofs.Resolution

/-! What resolving asks its host: which calls it makes, in which order, on which paths, and for
which answers they wait, whatever the host answers. -/
namespace Inliner

/-- A call that looks for the target of a directive, with its answer. -/
inductive Inquiry where
  | realpath (path : String) (answer : Except Thrown String)
  | isFile (path : String) (answer : Except Thrown Bool)
  | assertReadable (path : String) (answer : Except Thrown Unit)

namespace Inquiry

def isRealpath : Inquiry → Bool
  | realpath .. => true
  | _ => false

def raised? : Inquiry → Option Thrown
  | realpath _ (.error t) | isFile _ (.error t) | assertReadable _ (.error t) => some t
  | _ => none

end Inquiry

def raised (calls : List Inquiry) : List Thrown := calls.filterMap Inquiry.raised?

/-- The problem is that `path` cannot be reached, told with the place that asks for it. -/
inductive Problem.Misses (path : String) (location : Location) : Problem → Prop
  | notFound : Misses path location (.notFound path (some location))
  | denied : Misses path location (.denied path (some location))
  | io : Misses path location (.io path (some location))

theorem Problem.Misses.details {path : String} {location : Location} {p : Problem}
    (h : p.Misses path location) : p.details = some (("path", .text path) :: location.fields) := by
  cases h <;> rfl

theorem Problem.misses_onPath {t : Thrown} (h : t.IsForeign) (path : String) (location : Location) :
    (t.onPath path (some location)).problem.Misses path location := by
  cases t with
  | failure f => exact h.elim
  | value v => cases v <;> exact .io
  | error e =>
    simp only [Thrown.onPath, ofCode]
    split
    · exact .notFound
    · exact .notFound
    · exact .denied
    · exact .denied
    · exact .io

/-- The host with all that resolving asks of it written down. -/
def Host.inquiring {m : Type → Type} [Monad m] (h : Host m) : Host (StateT (List Inquiry) m) where
  cwd := h.cwd
  log r := StateT.lift (h.log r)
  logs level := StateT.lift (h.logs level)
  realpath path := ExceptT.mk (written (fun answer => [.realpath path answer]) (h.realpath path).run)
  isFile path := ExceptT.mk (written (fun answer => [.isFile path answer]) (h.isFile path).run)
  assertReadable path :=
    ExceptT.mk (written (fun answer => [.assertReadable path answer]) (h.assertReadable path).run)
  read path := ExceptT.mk (StateT.lift (h.read path).run)

variable {σ : Type}

namespace Resolver

variable (h : Host (StateM σ)) (r : Resolver) (d : Directive)

/-- How the checks of the canonical path `p` of `path` go, by the answers that they get: the calls
that are made, and what they end with. -/
inductive Checks (path p : String) (s : σ) : List Inquiry → Except Thrown Unit → Prop
  | unseen {t : Thrown} {s₁ : σ} (file : (h.isFile p).run.run s = (.error t, s₁)) :
      Checks path p s [.isFile p (.error t)] (.error t)
  | irregular {s₁ : σ} (file : (h.isFile p).run.run s = (.ok false, s₁)) :
      Checks path p s [.isFile p (.ok false)]
        (.error (.ofProblem (.notFound path (some d.location))))
  | unreadable {t : Thrown} {s₁ s₂ : σ} (file : (h.isFile p).run.run s = (.ok true, s₁))
      (read : (h.assertReadable p).run.run s₁ = (.error t, s₂)) :
      Checks path p s [.isFile p (.ok true), .assertReadable p (.error t)] (.error t)
  | readable {s₁ s₂ : σ} (file : (h.isFile p).run.run s = (.ok true, s₁))
      (read : (h.assertReadable p).run.run s₁ = (.ok (), s₂)) :
      Checks path p s [.isFile p (.ok true), .assertReadable p (.ok ())] (.ok ())

/-- How the search for a target goes whose candidate is `path`. -/
inductive Searches (path : String) (s : σ) : List Inquiry → Except Thrown String → Prop
  | outside (leaves : Path.isWithinRoot h.cwd r.root path = false) :
      Searches path s [] (.error (escaped d))
  | lost {t : Thrown} {s₁ : σ} (within : Path.isWithinRoot h.cwd r.root path = true)
      (real : (h.realpath path).run.run s = (.error t, s₁)) :
      Searches path s [.realpath path (.error t)]
        (.error (.failure (t.onPath path (some d.location))))
  | linked {p : String} {s₁ : σ} (within : Path.isWithinRoot h.cwd r.root path = true)
      (real : (h.realpath path).run.run s = (.ok p, s₁))
      (leaves : Path.isWithinRoot h.cwd r.root p = false) :
      Searches path s [.realpath path (.ok p)] (.error (escaped d))
  | checked {p : String} {s₁ : σ} {calls : List Inquiry} {out : Except Thrown Unit}
      (within : Path.isWithinRoot h.cwd r.root path = true)
      (real : (h.realpath path).run.run s = (.ok p, s₁))
      (below : Path.isWithinRoot h.cwd r.root p = true)
      (checks : Checks h d path p s₁ calls out) :
      Searches path s (.realpath path (.ok p) :: calls)
        ((out.mapError fun t => .failure (t.onPath path (some d.location))).map fun _ => p)

theorem records_canonicalize (path : String) (location : Option Location) {s s₁ : σ}
    {answer : Except Thrown String} (hreal : (h.realpath path).run.run s = (answer, s₁)) :
    Records (h.inquiring.canonicalize path location).run (h.canonicalize path location).run s
      [.realpath path answer] (answer.mapError fun t => .failure (t.onPath path location)) s₁ :=
  (records_written hreal fun answer => [Inquiry.realpath path answer]).onPath path location

theorem exists_records_escape (message : String) (s : σ) :
    ∃ s', Records (r.escape h.inquiring d message).run (r.escape h d message).run s []
      (.error (escaped d)) s' :=
  ⟨_, (records_lift _ s).lift.then (records_throw _ _)⟩

theorem exists_records_checks (path p : String) (s : σ) :
    ∃ calls out s', Checks h d path p s calls out ∧
      Records
        (do
          if !(← h.inquiring.isFile p) then
            throw (.ofProblem (.notFound path (some d.location)))
          h.inquiring.assertReadable p : ExceptT Thrown _ Unit).run
        (do
          if !(← h.isFile p) then throw (.ofProblem (.notFound path (some d.location)))
          h.assertReadable p : ExceptT Thrown _ Unit).run s calls out s' := by
  rcases hfile : (h.isFile p).run.run s with ⟨t | found, s₁⟩
  · have hasked := records_written hfile fun answer => [Inquiry.isFile p answer]
    exact ⟨_, _, _, .unseen hfile, hasked.stop⟩
  · have hasked := records_written hfile fun answer => [Inquiry.isFile p answer]
    cases found with
    | false => exact ⟨_, _, _, .irregular hfile, hasked.then (records_throw _ s₁).stop⟩
    | true =>
      rcases hread : (h.assertReadable p).run.run s₁ with ⟨t | ⟨⟩, s₂⟩
      · have htried := records_written hread fun answer => [Inquiry.assertReadable p answer]
        exact ⟨_, _, _, .unreadable hfile hread, hasked.then htried⟩
      · have htried := records_written hread fun answer => [Inquiry.assertReadable p answer]
        exact ⟨_, _, _, .readable hfile hread, hasked.then htried⟩

/-- Resolving goes in one of the ways that there are. -/
theorem exists_searches (s : σ) :
    ∃ calls out s', Searches h r d (candidate h.cwd r.root d) s calls out ∧
      Records (r.resolve h.inquiring d).run (r.resolve h d).run s calls out s' := by
  unfold resolve
  rw [show h.inquiring.cwd = h.cwd from rfl]
  dsimp only
  by_cases hwithin : Path.isWithinRoot h.cwd r.root (candidate h.cwd r.root d) = true
  · rw [hwithin, Bool.not_true, if_neg Bool.false_ne_true, if_neg Bool.false_ne_true]
    rcases hreal : (h.realpath (candidate h.cwd r.root d)).run.run s with ⟨t | p, s₁⟩
    · exact ⟨_, _, _, .lost hwithin hreal, (records_canonicalize h _ _ hreal).stop⟩
    · have hasked := records_canonicalize h (candidate h.cwd r.root d) (some d.location) hreal
      by_cases hbelow : Path.isWithinRoot h.cwd r.root p = true
      · obtain ⟨calls, out, s₂, hchecks, hbody⟩ :=
          exists_records_checks h d (candidate h.cwd r.root d) p s₁
        have hguarded := hbody.onPath (candidate h.cwd r.root d) (some d.location)
        cases out with
        | error t =>
          refine ⟨_, _, s₂, .checked hwithin hreal hbelow hchecks, hasked.then ?_⟩
          rw [hbelow]
          exact hguarded.stop
        | ok _ =>
          obtain ⟨s₃, htold⟩ : ∃ s₃, Records
              (ExceptT.lift (h.inquiring.log _) >>= fun _ => pure p : ExceptT Thrown _ String).run
              (ExceptT.lift (h.log _) >>= fun _ => pure p : ExceptT Thrown _ String).run s₂ []
              (.ok p) s₃ :=
            ⟨_, (records_lift (h.log (.debug
              ("Resolved include " ++ d.rawPath ++ " -> " ++ p))) s₂).lift.then (records_pure _ _)⟩
          refine ⟨_, _, s₃, .checked hwithin hreal hbelow hchecks, hasked.then ?_⟩
          rw [hbelow, ← List.append_nil calls]
          exact hguarded.then htold
      · obtain ⟨s₂, hescape⟩ := exists_records_escape h r d
          "Include resolves outside sandbox root through a symlink: " s₁
        refine ⟨_, _, s₂, .linked hwithin hreal (by simpa using hbelow), hasked.then ?_⟩
        rw [if_pos (by simpa using hbelow), if_pos (by simpa using hbelow)]
        exact hescape
  · obtain ⟨s₁, hescape⟩ := exists_records_escape h r d "Include escapes sandbox root: " s
    refine ⟨_, _, s₁, .outside (by simpa using hwithin), ?_⟩
    rw [if_pos (by simpa using hwithin), if_pos (by simpa using hwithin)]
    exact hescape

/-- The path leaves the root, by its segments or by what it is made canonical to. -/
def Escapes (path : String) (calls : List Inquiry) : Prop :=
  Path.isWithinRoot h.cwd r.root path = false ∨
    ∃ p, Inquiry.realpath path (.ok p) ∈ calls ∧ Path.isWithinRoot h.cwd r.root p = false

variable {h r d} {path p : String} {s : σ} {calls : List Inquiry}

namespace Checks

variable {out : Except Thrown Unit} (hc : Checks h d path p s calls out)
include hc

theorem countP_isRealpath : calls.countP Inquiry.isRealpath = 0 := by
  cases hc <;> rfl

theorem realpath_not_mem (path' : String) (answer : Except Thrown String) :
    Inquiry.realpath path' answer ∉ calls := by
  cases hc <;> simp

theorem isFile {path' : String} {answer : Except Thrown Bool}
    (hmem : Inquiry.isFile path' answer ∈ calls) : path' = p := by
  cases hc <;> simp_all

theorem assertReadable {path' : String} {answer : Except Thrown Unit}
    (hmem : Inquiry.assertReadable path' answer ∈ calls) :
    calls = [.isFile p (.ok true), .assertReadable p answer] ∧ path' = p := by
  cases hc <;> simp_all

end Checks

namespace Searches

variable {out : Except Thrown String} (hs : Searches h r d path s calls out)
include hs

theorem countP_isRealpath_le : calls.countP Inquiry.isRealpath ≤ 1 := by
  cases hs with
  | outside => simp
  | lost | linked => simp [Inquiry.isRealpath]
  | checked _ _ _ checks => simp [List.countP_cons, checks.countP_isRealpath, Inquiry.isRealpath]

theorem realpath {path' : String} {answer : Except Thrown String}
    (hmem : Inquiry.realpath path' answer ∈ calls) :
    path' = path ∧ Path.isWithinRoot h.cwd r.root path = true := by
  cases hs with
  | outside => simp at hmem
  | lost within | linked within => simp_all
  | checked within _ _ checks => simp_all [checks.realpath_not_mem]

theorem isFile {path' : String} {answer : Except Thrown Bool}
    (hmem : Inquiry.isFile path' answer ∈ calls) :
    .realpath path (.ok path') ∈ calls ∧ Path.isWithinRoot h.cwd r.root path' = true := by
  cases hs with
  | outside | lost | linked => simp at hmem
  | checked _ _ below checks =>
    obtain rfl := checks.isFile (by simpa using hmem)
    exact ⟨by simp, below⟩

theorem assertReadable {path' : String} {answer : Except Thrown Unit}
    (hmem : Inquiry.assertReadable path' answer ∈ calls) :
    calls = [.realpath path (.ok path'), .isFile path' (.ok true), .assertReadable path' answer] ∧
      Path.isWithinRoot h.cwd r.root path' = true := by
  cases hs with
  | outside | lost | linked => simp at hmem
  | checked _ _ below checks =>
    obtain ⟨rfl, rfl⟩ := checks.assertReadable (by simpa using hmem)
    exact ⟨rfl, below⟩

theorem eq_ok_iff (target : String) :
    out = .ok target ↔ Path.isWithinRoot h.cwd r.root path = true ∧
      Path.isWithinRoot h.cwd r.root target = true ∧
      ∃ s₁ s₂ s₃, (h.realpath path).run.run s = (.ok target, s₁) ∧
        (h.isFile target).run.run s₁ = (.ok true, s₂) ∧
        (h.assertReadable target).run.run s₂ = (.ok (), s₃) := by
  constructor
  · intro hout
    cases hs with
    | outside | lost | linked => cases hout
    | checked within real below checks =>
      cases checks with
      | unseen | irregular | unreadable => cases hout
      | readable file read =>
        cases hout
        exact ⟨within, below, _, _, _, real, file, read⟩
  · rintro ⟨hwithin, hbelow, s₁, s₂, s₃, hreal, hfile, hread⟩
    cases hs with
    | outside leaves => simp_all
    | lost _ real => cases real.symm.trans hreal
    | linked _ real leaves =>
      cases real.symm.trans hreal
      simp_all
    | checked _ real _ checks =>
      cases real.symm.trans hreal
      cases checks with
      | unseen file | irregular file => cases file.symm.trans hfile
      | unreadable file read =>
        cases file.symm.trans hfile
        cases read.symm.trans hread
      | readable => rfl

theorem eq_of_escapes (hleaves : Escapes h r path calls) : out = .error (escaped d) := by
  obtain houtside | ⟨p, hmem, hout⟩ := hleaves
  · cases hs <;> simp_all
  · cases hs with
    | outside | linked => rfl
    | lost => simp at hmem
    | checked _ _ below checks => simp_all [checks.realpath_not_mem]

theorem eq_of_raised {f : Failure} (hraised : .failure f ∈ raised calls) :
    out = .error (.failure f) := by
  cases hs with
  | outside | linked => simp [raised, Inquiry.raised?] at hraised
  | lost =>
    obtain rfl : Thrown.failure f = _ := by simpa [raised, Inquiry.raised?] using hraised
    rfl
  | checked _ _ _ checks =>
    cases checks with
    | irregular | readable => simp [raised, Inquiry.raised?] at hraised
    | unseen | unreadable =>
      obtain rfl : _ = Thrown.failure f := by simpa [raised, Inquiry.raised?] using hraised
      rfl

theorem misses {e : Thrown} (hout : out = .error e) (hstays : ¬Escapes h r path calls)
    (hforeign : ∀ t ∈ raised calls, t.IsForeign) :
    ∃ f, e = .failure f ∧ f.problem.Misses path d.location := by
  cases hs with
  | outside leaves => exact absurd (.inl leaves) hstays
  | linked _ _ leaves => exact absurd (.inr ⟨_, by simp, leaves⟩) hstays
  | lost =>
    cases hout
    exact ⟨_, rfl,
      Problem.misses_onPath (hforeign _ (by simp [raised, Inquiry.raised?])) path d.location⟩
  | checked _ _ _ checks =>
    cases checks with
    | unseen | unreadable =>
      cases hout
      exact ⟨_, rfl,
        Problem.misses_onPath (hforeign _ (by simp [raised, Inquiry.raised?])) path d.location⟩
    | irregular =>
      cases hout
      exact ⟨_, rfl, .notFound⟩
    | readable => cases hout

end Searches

end Resolver
end Inliner
