import Inliner.Proofs.IncludeTree
import Inliner.Proofs.Recording
import Inliner.Proofs.Scope
import Inliner.Proofs.TypedOptions

/-! Whatever a call of the host raises ends the run at once, as the kind of failure that its code
stands for and with it as the cause; all other failures have no cause. -/
namespace Inliner

variable {σ α β : Type}

def noted {m : Type → Type} [Monad m] (call : ExceptT Thrown m α) :
    ExceptT Thrown (StateT (List Thrown) m) α :=
  ExceptT.mk (written (fun
    | .ok _ => []
    | .error t => [t]) call.run)

def Host.noting {m : Type → Type} [Monad m] (h : Host m) : Host (StateT (List Thrown) m) where
  cwd := h.cwd
  log r := StateT.lift (h.log r)
  logs level := StateT.lift (h.logs level)
  realpath path := noted (h.realpath path)
  isFile path := noted (h.isFile path)
  assertReadable path := noted (h.assertReadable path)
  read path := noted (h.read path)

/-- From a state in `I`, a computation ends in one and raises nothing that is a failure of the
domain. -/
def Honest (I : σ → Prop) (x : ExceptT Thrown (StateM σ) α) : Prop :=
  ∀ s, I s → I (x.run.run s).2 ∧ ∀ t, (x.run.run s).1 = .error t → t.IsForeign

/-- Whatever the state of a host, among those in `I`, its calls may fail with errors that are no
failures of the domain. -/
structure Host.Honest (h : Host (StateM σ)) (I : σ → Prop) : Prop where
  log : ∀ r s, I s → I ((h.log r).run s).2
  realpath : ∀ path, Inliner.Honest I (h.realpath path)
  isFile : ∀ path, Inliner.Honest I (h.isFile path)
  assertReadable : ∀ path, Inliner.Honest I (h.assertReadable path)
  read : ∀ path, Inliner.Honest I (h.read path)

/-- The two computations end in the same way and in the same state, which is in `I` again. The first
has written down what calls have raised on the way, which is nothing if a value is returned, and
is told by the error otherwise, as `Q` says. -/
def Noted (I : σ → Prop) (Q : List Thrown → Thrown → Prop)
    (x : ExceptT Thrown (StateT (List Thrown) (StateM σ)) α) (y : ExceptT Thrown (StateM σ) α) :
    Prop :=
  ∀ s, I s → ∃ r s' raised, Records x.run y.run s raised r s' ∧ I s' ∧
    (∀ a, r = .ok a → raised = []) ∧ ∀ e, r = .error e → Q raised e

section noted

variable {I : σ → Prop} {Q Q' : List Thrown → Thrown → Prop}

theorem noted_pure (a : α) : Noted I Q (pure a) (pure a) :=
  fun s hs => ⟨.ok a, s, [], records_pure _ s, hs, by simp, by simp⟩

theorem noted_throw {e : Thrown} (he : Q [] e) :
    Noted I Q (throw e) (throw e : ExceptT Thrown (StateM σ) α) := by
  intro s hs
  refine ⟨.error e, s, [], records_throw e s, hs, by simp, ?_⟩
  rintro e' ⟨⟩
  exact he

theorem noted_lift {x : StateM σ α} (hx : ∀ s, I s → I (x.run s).2) :
    Noted I Q (ExceptT.lift (StateT.lift x)) (ExceptT.lift x) :=
  fun s hs => ⟨.ok (x.run s).1, (x.run s).2, [], (records_lift x s).lift, hx s hs, by simp, by simp⟩

theorem noted_call {call : ExceptT Thrown (StateM σ) α} (h : Honest I call)
    (hcall : ∀ t, t.IsForeign → Q [t] t) : Noted I Q (noted call) call := by
  intro s hs
  obtain ⟨hkept, hforeign⟩ := h s hs
  rcases hrun : call.run.run s with ⟨t | a, s'⟩
  · rw [hrun] at hkept hforeign
    refine ⟨.error t, s', [t], records_written hrun _, hkept, by simp, ?_⟩
    rintro t' ⟨⟩
    exact hcall t (hforeign t rfl)
  · rw [hrun] at hkept
    exact ⟨.ok a, s', [], records_written hrun _, hkept, by simp, by simp⟩

theorem Noted.bind {x : ExceptT Thrown (StateT (List Thrown) (StateM σ)) α}
    {y : ExceptT Thrown (StateM σ) α}
    {f : α → ExceptT Thrown (StateT (List Thrown) (StateM σ)) β}
    {g : α → ExceptT Thrown (StateM σ) β} (hx : Noted I Q x y) (hf : ∀ a, Noted I Q (f a) (g a)) :
    Noted I Q (x >>= f) (y >>= g) := by
  intro s hs
  obtain ⟨r, s₁, raised, hrecords, hs₁, hok, herror⟩ := hx s hs
  cases r with
  | ok a =>
    obtain rfl := hok a rfl
    obtain ⟨r, s₂, more, hmore, hs₂, hends⟩ := hf a s₁ hs₁
    exact ⟨r, s₂, more, hrecords.then hmore, hs₂, hends⟩
  | error e =>
    refine ⟨.error e, s₁, raised, hrecords.stop, hs₁, by simp, ?_⟩
    rintro e' ⟨⟩
    exact herror e rfl

theorem Noted.rethrow {x : ExceptT Thrown (StateT (List Thrown) (StateM σ)) α}
    {y : ExceptT Thrown (StateM σ) α} (h : Noted I Q x y) {f : Thrown → Thrown}
    (hf : ∀ raised e, Q raised e → Q' raised (f e)) :
    Noted I Q' (tryCatch x fun e => throw (f e)) (tryCatch y fun e => throw (f e)) := by
  intro s hs
  obtain ⟨r, s₁, raised, hrecords, hs₁, hok, herror⟩ := h s hs
  refine ⟨r.mapError f, s₁, raised, hrecords.rethrow f, hs₁, ?_, ?_⟩
  · cases r with
    | ok a => exact fun _ _ => hok a rfl
    | error e => simp [Except.mapError]
  · cases r with
    | ok a => simp [Except.mapError]
    | error e =>
      rintro e' ⟨⟩
      exact hf raised e (herror e rfl)

theorem Noted.mono {x : ExceptT Thrown (StateT (List Thrown) (StateM σ)) α}
    {y : ExceptT Thrown (StateM σ) α} (h : Noted I Q x y)
    (hQ : ∀ raised e, Q raised e → Q' raised e) : Noted I Q' x y := by
  intro s hs
  obtain ⟨r, s', raised, hrecords, hs', hok, herror⟩ := h s hs
  exact ⟨r, s', raised, hrecords, hs', hok, fun e he => hQ raised e (herror e he)⟩

end noted

namespace Ledgered

variable {I : σ → Prop} {Q Q' : List Thrown → Thrown → Prop} {l : Ledger}

/-- While the files of a ledger are open, the two computations end in the same way, the first with
what calls have raised written down, and the ledger is the same after them. -/
def Noted (I : σ → Prop) (Q : List Thrown → Thrown → Prop) (l : Ledger)
    (x : Ledgered (StateT (List Thrown) (StateM σ)) α) (y : Ledgered (StateM σ) α) : Prop :=
  ∃ x' y', x.Restored l x' ∧ y.Restored l y' ∧ Inliner.Noted I Q x' y'

theorem noted_pure (a : α) : Noted I Q l (pure a) (pure a) :=
  ⟨_, _, restored_pure a l, restored_pure a l, Inliner.noted_pure a⟩

theorem noted_throw {e : Thrown} (he : Q [] e) :
    Noted I Q l (throw e) (throw e : Ledgered (StateM σ) α) :=
  ⟨_, _, restored_throw e l, restored_throw e l, Inliner.noted_throw he⟩

theorem noted_outside {x : ExceptT Thrown (StateT (List Thrown) (StateM σ)) α}
    {y : ExceptT Thrown (StateM σ) α} (h : Inliner.Noted I Q x y) :
    Noted I Q l (outside x) (outside y) :=
  ⟨x, y, rfl, rfl, h⟩

variable {x : Ledgered (StateT (List Thrown) (StateM σ)) α} {y : Ledgered (StateM σ) α}

theorem Noted.bind {f : α → Ledgered (StateT (List Thrown) (StateM σ)) β}
    {g : α → Ledgered (StateM σ) β} (h : Noted I Q l x y) (hf : ∀ a, Noted I Q l (f a) (g a)) :
    Noted I Q l (x >>= f) (y >>= g) := by
  obtain ⟨x', y', hx, hy, hxy⟩ := h
  choose f' g' hf hg hfg using hf
  exact ⟨_, _, hx.bind hf, hy.bind hg, hxy.bind hfg⟩

theorem Noted.mono (h : Noted I Q l x y) (hQ : ∀ raised e, Q raised e → Q' raised e) :
    Noted I Q' l x y := by
  obtain ⟨x', y', hx, hy, hxy⟩ := h
  exact ⟨x', y', hx, hy, hxy.mono hQ⟩

theorem Noted.ledger_bind {f : Ledger → Ledgered (StateT (List Thrown) (StateM σ)) α}
    {g : Ledger → Ledgered (StateM σ) α} (h : Noted I Q l (f l) (g l)) :
    Noted I Q l (ledger >>= f) (ledger >>= g) := by
  obtain ⟨x', y', hf, hg, hfg⟩ := h
  exact ⟨x', y', hf.ledger_bind, hg.ledger_bind, hfg⟩

theorem Noted.attach {k : Except Thrown α → Ledgered (StateT (List Thrown) (StateM σ)) α}
    {k' : Except Thrown α → Ledgered (StateM σ) α} (h : Noted I Q l x y)
    (hQ : ∀ raised e, Q raised e → Q' raised (e.attach l.stack))
    (hk : ∀ a, k (.ok a) = pure a) (hk' : ∀ a, k' (.ok a) = pure a)
    (herror : ∀ e, k (.error e) = ledger >>= fun l => throw (e.attach l.stack))
    (herror' : ∀ e, k' (.error e) = ledger >>= fun l => throw (e.attach l.stack)) :
    Noted I Q' l (outcome x >>= k) (outcome y >>= k') := by
  obtain ⟨x', y', hx, hy, hxy⟩ := h
  refine ⟨_, _, hx.recover hk fun e => ?_, hy.recover hk' fun e => ?_, hxy.rethrow hQ⟩
  · rw [herror]
    exact (restored_throw _ l).ledger_bind
  · rw [herror']
    exact (restored_throw _ l).ledger_bind

theorem Noted.withFile {path : String} {location : Option Location}
    (h : ∀ l', l.enter path location = .ok l' → Noted I Q l' x y)
    (hrefused : ∀ e, l.enter path location = .error e → Q [] e) :
    Noted I Q l (withFile path location x) (withFile path location y) := by
  cases henter : l.enter path location with
  | ok l' =>
    obtain ⟨x', y', hx, hy, hxy⟩ := h l' henter
    exact ⟨x', y', hx.opened henter, hy.opened henter, hxy⟩
  | error e =>
    exact ⟨_, _, restored_refused henter, restored_refused henter,
      Inliner.noted_throw (hrefused e henter)⟩

end Ledgered

/-- What a run finds wrong by itself, on files that can be read. -/
inductive Problem.IsFound : Problem → Prop
  | invalidDirective (text : String) (location : Location) :
      IsFound (.invalidDirective text location)
  | notFound (path : String) (location : Option Location) : IsFound (.notFound path location)
  | circular (chain : List String) (location : Option Location) :
      IsFound (.circular chain location)
  | tooDeep (path : String) (limit : Number) (location : Option Location) :
      IsFound (.tooDeep path (.number limit) location)

/-- A failure tells what calls have raised: nothing, and it was found by the run itself; or one
error, of which it is the kind that the code stands for and which is its cause. `P` is what is known
of the failure besides. -/
inductive Explains (P : Failure → Prop) : (raised : List Thrown) → Thrown → Prop
  | found {f : Failure} (problem : f.problem.IsFound) (causes : f.causes = [])
      (mark : f.codeMark = none) (known : P f) : Explains P [] (.failure f)
  | call {f : Failure} {t : Thrown} {path : String} {location : Option Location}
      (foreign : t.IsForeign) (problem : f.problem = (t.onPath path location).problem)
      (causes : f.causes = (t.onPath path location).causes) (mark : f.codeMark = none)
      (known : P f) : Explains P [t] (.failure f)

/-- The code of a failed system call. -/
def Thrown.errno? : Thrown → Option String
  | .error { code := .text code, .. } => some code
  | _ => none

/-- The kind of failure that an error stands for: a file that is not found, one that may not be
read, or any other trouble with it. -/
def Problem.IsClassOf (p : Problem) (t : Thrown) : Prop :=
  if t.errno? = some "ENOENT" ∨ t.errno? = some "ENOTDIR" then
    ∃ path location, p = .notFound path location
  else if t.errno? = some "EACCES" ∨ t.errno? = some "EPERM" then
    ∃ path location, p = .denied path location
  else ∃ path location, p = .io path location

theorem Problem.ofCode_text (code path : String) (location : Option Location) :
    ofCode (.text code) path location =
      if code = "ENOENT" ∨ code = "ENOTDIR" then .notFound path location
      else if code = "EACCES" ∨ code = "EPERM" then .denied path location
      else .io path location := by
  unfold ofCode
  split <;> simp_all

theorem Problem.isClassOf_onPath {t : Thrown} (h : t.IsForeign) (path : String)
    (location : Option Location) : (t.onPath path location).problem.IsClassOf t := by
  unfold IsClassOf
  cases t with
  | failure f => exact h.elim
  | value v => cases v <;> exact ⟨path, location, rfl⟩
  | error e =>
    obtain ⟨name, message, code, causes, trace⟩ := e
    cases code with
    | text code =>
      simp only [Thrown.onPath, Thrown.errno?, ofCode_text, Option.some.injEq]
      split
      · exact ⟨path, location, rfl⟩
      · split <;> exact ⟨path, location, rfl⟩
    | _ => exact ⟨path, location, rfl⟩

theorem Thrown.causes_onPath {t : Thrown} (h : t.IsForeign) (hvalue : t ≠ .value .absent)
    (path : String) (location : Option Location) : (t.onPath path location).causes = t.chain := by
  cases t with
  | failure f => exact h.elim
  | error e => rfl
  | value v =>
    cases v with
    | absent => exact absurd rfl hvalue
    | _ => rfl

abbrev Anyhow (_ : Failure) : Prop := True

def Unplaced (f : Failure) : Prop := f.includeStack = none

def Placed (f : Failure) : Prop := f.includeStack.isSome = true

theorem Thrown.onPath_of_isForeign {t : Thrown} (h : t.IsForeign) (path : String)
    (location : Option Location) :
    (t.onPath path location).includeStack = none ∧ (t.onPath path location).codeMark = none := by
  cases t with
  | failure f => exact h.elim
  | error e => exact ⟨rfl, rfl⟩
  | value v => cases v <;> exact ⟨rfl, rfl⟩

namespace Explains

variable {P P' : Failure → Prop} {raised : List Thrown} {e : Thrown}

theorem mono (h : Explains P raised e) (hP : ∀ f, P f → P' f) : Explains P' raised e := by
  cases h with
  | found problem causes mark known => exact .found problem causes mark (hP _ known)
  | call foreign problem causes mark known => exact .call foreign problem causes mark (hP _ known)

theorem ofProblem {p : Problem} (h : p.IsFound) : Explains Unplaced [] (.ofProblem p) :=
  .found h rfl rfl rfl

theorem onPath {t : Thrown} (h : t.IsForeign) (path : String) (location : Option Location) :
    Explains Unplaced [t] (.failure (t.onPath path location)) :=
  have hfresh := Thrown.onPath_of_isForeign h path location
  .call h rfl rfl hfresh.2 hfresh.1

theorem attach (h : Explains P raised e) (stack : List String) :
    Explains Placed raised (e.attach stack) := by
  have hplaced (f : Failure) : Placed (f.attach stack) := by
    unfold Placed Failure.attach
    split <;> simp_all
  have hrest (f : Failure) :
      (f.attach stack).causes = f.causes ∧ (f.attach stack).codeMark = f.codeMark := by
    unfold Failure.attach
    split <;> exact ⟨rfl, rfl⟩
  cases h with
  | @found f problem causes mark known =>
    refine .found ?_ ((hrest f).1.trans causes) ((hrest f).2.trans mark) (hplaced f)
    rwa [Failure.attach_problem]
  | @call f t path location foreign problem causes mark known =>
    have hproblem : (f.attach stack).problem = (t.onPath path location).problem := by
      rwa [Failure.attach_problem]
    exact .call foreign hproblem ((hrest f).1.trans causes) ((hrest f).2.trans mark) (hplaced f)

end Explains

/-- An error as a call raises it, or as a run tells it. -/
def Untold (raised : List Thrown) (e : Thrown) : Prop :=
  raised = [e] ∧ e.IsForeign ∨ Explains Unplaced raised e

theorem Noted.onPath {I : σ → Prop} {x : ExceptT Thrown (StateT (List Thrown) (StateM σ)) α}
    {y : ExceptT Thrown (StateM σ) α} (h : Noted I Untold x y) (path : String)
    (location : Option Location) :
    Noted I (Explains Unplaced) (Inliner.onPath path location x)
      (Inliner.onPath path location y) := by
  refine h.rethrow ?_
  rintro raised e (⟨rfl, hforeign⟩ | htold)
  · exact Explains.onPath hforeign path location
  · cases htold with
    | found problem causes mark known => exact .found problem causes mark known
    | call foreign problem causes mark known => exact .call foreign problem causes mark known

theorem Ledger.enter_explained {l : Ledger} {n : Number} (hl : l.limit = .number n) {path : String}
    {location : Option Location} {e : Thrown} (h : l.enter path location = .error e) :
    Explains Unplaced [] e := by
  unfold enter at h
  split at h
  · cases h
    exact .ofProblem (.circular _ _)
  · split at h
    · cases h
      rw [hl]
      exact .ofProblem (.tooDeep _ _ _)
    · cases h

theorem Directive.parseLine_explained {line path : String} {number : Number} {e : Thrown}
    (h : parseLine line number path = .error e) : Explains Unplaced [] e := by
  unfold parseLine at h
  split at h
  · cases h
  · cases h
  · cases h
    exact .ofProblem (.invalidDirective _ _)

namespace Host.Honest

variable {I : σ → Prop} {h : Host (StateM σ)} (hh : h.Honest I)
include hh

theorem noted_canonicalize (path : String) (location : Option Location) :
    Noted I (Explains Unplaced) (h.noting.canonicalize path location)
      (h.canonicalize path location) :=
  (noted_call (hh.realpath path) fun _ ht => .inl ⟨rfl, ht⟩).onPath path location

theorem noted_ofBase (base : String) :
    Noted I (Explains Unplaced) (Resolver.ofBase h.noting base) (Resolver.ofBase h base) :=
  (hh.noted_canonicalize _ none).bind fun root => noted_pure (Resolver.mk root)

theorem noted_escape (r : Resolver) (d : Directive) (message : String) :
    Noted I (Explains Unplaced) (r.escape h.noting d message) (r.escape h d message) :=
  (noted_lift (hh.log _)).bind fun _ => noted_throw (.ofProblem (.notFound _ _))

theorem noted_resolve (r : Resolver) (d : Directive) :
    Noted I (Explains Unplaced) (r.resolve h.noting d) (r.resolve h d) := by
  have hnotFound (path : String) :
      Untold [] (.ofProblem (.notFound path (some d.location))) :=
    .inr (.ofProblem (.notFound _ _))
  unfold Resolver.resolve
  rw [show h.noting.cwd = h.cwd from rfl]
  dsimp only
  split
  · exact hh.noted_escape r d _
  · refine (hh.noted_canonicalize _ _).bind fun canonical => ?_
    split
    · exact hh.noted_escape r d _
    · refine (Noted.onPath ?_ _ _).bind fun _ => ?_
      · refine (noted_call (hh.isFile canonical) fun _ ht => .inl ⟨rfl, ht⟩).bind fun found => ?_
        have hreadable : Noted I Untold (h.noting.assertReadable canonical)
            (h.assertReadable canonical) :=
          noted_call (hh.assertReadable canonical) fun _ ht => .inl ⟨rfl, ht⟩
        cases found with
        | true => exact hreadable
        | false => exact (noted_throw (hnotFound _)).bind fun _ => hreadable
      · exact (noted_lift (hh.log _)).bind fun _ => noted_pure canonical

open Expansion Ledgered

variable (r : Resolver) (debug : Bool)

theorem noted_expandLines {l : Ledger} {n : Number} (hl : l.limit = .number n) (path : String)
    {f : String → Ledgered (StateT (List Thrown) (StateM σ)) (List String)}
    {g : String → Ledgered (StateM σ) (List String)}
    (hf : ∀ target, Ledgered.Noted I (Explains Anyhow) (l.push target) (f target) (g target))
    (number : Nat) (lines : List String) :
    Ledgered.Noted I (Explains Anyhow) l (expandLines h.noting r debug path f number lines)
      (expandLines h r debug path g number lines) := by
  have hanyhow {raised : List Thrown} {e : Thrown} (he : Explains Unplaced raised e) :
      Explains Anyhow raised e := he.mono fun _ _ => trivial
  induction lines generalizing number with
  | nil => exact Ledgered.noted_pure []
  | cons line rest ih =>
    have hmore (here : List String) := (ih (number + 1)).bind fun more =>
      Ledgered.noted_pure (here ++ more)
    rw [expandLines, expandLines]
    cases hparse : Directive.parseLine line (.count number) path with
    | error e =>
      exact (Ledgered.noted_throw (hanyhow (Directive.parseLine_explained hparse))).bind hmore
    | ok found =>
      cases found with
      | none => exact (Ledgered.noted_pure [line]).bind hmore
      | some d =>
        refine (Ledgered.noted_outside ((hh.noted_resolve r d).mono fun _ _ => hanyhow)).bind
          fun target => ?_
        refine (Ledgered.Noted.withFile (fun l' henter => ?_) fun e he =>
          hanyhow (Ledger.enter_explained hl he)).bind fun lines => ?_
        · rw [Ledger.enter_eq_ok henter]
          exact hf target
        · exact (Ledgered.noted_pure _).bind hmore

theorem noted_expandOpen {room : Nat}
    (hbelow : ∀ {l : Ledger} {n : Number}, l.limit = .number n → ∀ path,
      Ledgered.Noted I (Explains Anyhow) l (expandWithin h.noting r debug room path)
        (expandWithin h r debug room path))
    {l : Ledger} {n : Number} (hl : l.limit = .number n) (path : String) :
    Ledgered.Noted I (Explains Placed) l (expandWithin h.noting r debug (room + 1) path)
      (expandWithin h r debug (room + 1) path) := by
  refine Ledgered.Noted.ledger_bind ?_
  refine (Ledgered.noted_outside (noted_lift (hh.log _))).bind fun _ => ?_
  refine Ledgered.Noted.attach (Q := Explains Anyhow) ?_ (fun raised e he => he.attach l.stack)
    (fun _ => rfl) (fun _ => rfl) (fun _ => rfl) fun _ => rfl
  have hread : Noted I (Explains Unplaced) (h.noting.readSource path none)
      (h.readSource path none) :=
    (noted_call (hh.read path) fun _ ht => .inl ⟨rfl, ht⟩).onPath path none
  refine (Ledgered.noted_outside (hread.mono fun _ _ he => he.mono fun _ _ => trivial)).bind
    fun text => ?_
  exact hh.noted_expandLines r debug hl path (fun target => hbelow (l := l.push target) hl target) 1
    (Text.splitLines text)

theorem noted_expandWithin (room : Nat) {l : Ledger} {n : Number} (hl : l.limit = .number n)
    (path : String) :
    Ledgered.Noted I (Explains Anyhow) l (expandWithin h.noting r debug room path)
      (expandWithin h r debug room path) := by
  induction room generalizing l n path with
  | zero =>
    refine Ledgered.Noted.ledger_bind (Ledgered.noted_throw ?_)
    rw [hl]
    exact .found (.tooDeep _ _ _) rfl rfl trivial
  | succ room ih =>
    exact (hh.noted_expandOpen r debug ih hl path).mono fun _ _ he => he.mono fun _ _ => trivial

end Host.Honest

namespace Preprocessor

open Expansion

def prepare {m : Type → Type} [Monad m] (h : Host m) (c : Config) (input : String) :
    ExceptT Thrown m (String × Resolver) := do
  let file ← h.canonicalize (Path.render (Path.resolve h.cwd input)) none
  let r ← Resolver.ofBase h (Path.render c.baseDirectory)
  pure (file, r)

def expandPrepared {m : Type → Type} [Monad m] (h : Host m) (c : Config) :
    String × Resolver → ExceptT Thrown m String
  | (file, r) => do
    let lines ← expandInput h c r file
    h.log (.debug ("Expanded " ++ file ++ " into " ++ toString lines.length ++ " lines"))
    pure (Text.renderLines lines)

section general

variable {m : Type → Type} [Monad m] {h : Host m} {o : Options} {input : String}

theorem process_of_error {e : Thrown} (hc : Config.forInput h.cwd o input = .error e) :
    process h o input = throw e := by
  unfold process
  rw [hc]

theorem process_of_ok [LawfulMonad m] {c : Config} (hc : Config.forInput h.cwd o input = .ok c) :
    process h o input = prepare h c input >>= expandPrepared h c := by
  unfold process prepare
  rw [hc]
  simp only [bind_assoc, pure_bind]
  rfl

end general

variable {I : σ → Prop} {h : Host (StateM σ)} (hh : h.Honest I)
include hh

theorem noted_prepare (c : Config) (input : String) :
    Noted I (Explains Unplaced) (prepare h.noting c input) (prepare h c input) :=
  (hh.noted_canonicalize _ _).bind fun file =>
    (hh.noted_ofBase _).bind fun r => noted_pure (file, r)

variable {c : Config} (hpos : c.maxIncludeDepth.isPositiveInteger = true)
include hpos

theorem noted_expandInput (r : Resolver) (file : String) :
    Noted I (Explains Placed) (expandInput h.noting c r file) (expandInput h c r file) := by
  have henter := enter_opening hpos file
  have hopen : Ledgered.Noted I (Explains Placed) { limit := .number c.maxIncludeDepth }
      (Ledgered.withFile file none (expand h.noting r c.marks file))
      (Ledgered.withFile file none (expand h r c.marks file)) := by
    refine Ledgered.Noted.withFile (fun l' hl' => Ledgered.Noted.ledger_bind ?_) fun e he => ?_
    · rw [henter] at hl'
      cases hl'
      exact hh.noted_expandOpen r c.marks (hh.noted_expandWithin r c.marks _) rfl file
    · rw [henter] at he
      cases he
  obtain ⟨x, y, hx, hy, hxy⟩ := hopen
  rw [expandInput_eq hx, expandInput_eq hy]
  exact hxy

theorem noted_expandPrepared (prepared : String × Resolver) :
    Noted I (Explains Placed) (expandPrepared h.noting c prepared) (expandPrepared h c prepared) :=
  (noted_expandInput hh hpos prepared.2 prepared.1).bind fun _ =>
    (noted_lift (hh.log _)).bind fun _ => noted_pure _

/-- What fails before the input is opened is told without open files, and what fails afterwards is
told with them. -/
theorem noted_run (input : String) {s : σ} (hs : I s) :
    ∃ ended s' raised, (prepare h c input >>= expandPrepared h c).run.run s = (ended, s') ∧
      ((prepare h.noting c input >>= expandPrepared h.noting c).run.run []).run s =
        ((ended, raised), s') ∧
      (∀ text, ended = .ok text → raised = []) ∧
      ∀ e, ended = .error e → Explains
        (fun f => Placed f ↔ ∃ x, ((prepare h c input).run.run s).1 = .ok x) raised e := by
  obtain ⟨r, s₁, raised, hprepare, hs₁, hok, herror⟩ := noted_prepare hh c input s hs
  rw [hprepare.plain]
  cases r with
  | error e =>
    have hends := hprepare.stop (f := expandPrepared h.noting c) (g := expandPrepared h c)
    refine ⟨.error e, s₁, raised, hends.plain, hends.writes [], by simp, ?_⟩
    rintro e' ⟨⟩
    refine (herror e rfl).mono fun f hf => ?_
    simp [Placed, show f.includeStack = none from hf]
  | ok prepared =>
    obtain rfl := hok prepared rfl
    obtain ⟨r, s₂, raised, hexpand, -, hok, herror⟩ :=
      noted_expandPrepared hh hpos prepared s₁ hs₁
    have hends := hprepare.then hexpand
    refine ⟨r, s₂, raised, hends.plain, hends.writes [], hok, fun e he =>
      (herror e he).mono fun f hf => ?_⟩
    exact iff_of_true hf ⟨prepared, rfl⟩

end Preprocessor

namespace Machine

/-- Each fault that is set, once or for good, has an error of the system. -/
def HasForeignFaults (s : Machine) : Prop := ∀ f ∈ s.faults, f.error.IsForeign

theorem take?_foreign {call : Call} {path : String} {faults rest : List Fault} {e : Thrown}
    (hf : ∀ f ∈ faults, f.error.IsForeign) (h : Fault.take? call path faults = some (e, rest)) :
    e.IsForeign ∧ ∀ f ∈ rest, f.error.IsForeign := by
  induction faults generalizing rest with
  | nil => cases h
  | cons f fs ih =>
    obtain ⟨hfirst, hothers⟩ := List.forall_mem_cons.mp hf
    rw [Fault.take?] at h
    split at h
    · cases h
      exact ⟨hfirst, List.forall_mem_cons.mpr ⟨hfirst, hothers⟩⟩
    · obtain ⟨⟨e', fs'⟩, hrest, heq⟩ := Option.map_eq_some_iff.mp h
      cases heq
      obtain ⟨he, hmore⟩ := ih hothers hrest
      exact ⟨he, List.forall_mem_cons.mpr ⟨hfirst, hmore⟩⟩

theorem honest_reading (cwd : Names) (call : Call) (path : String)
    {action : FileTree → Except Thrown α} (h : ∀ t e, action t = .error e → e.IsForeign) :
    Honest HasForeignFaults (reading cwd call path action) := by
  intro s hs
  show HasForeignFaults (guarded cwd call path (fun t => (action t, t)) s).2 ∧
    ∀ t, (guarded cwd call path (fun t => (action t, t)) s).1 = .error t → t.IsForeign
  unfold guarded
  dsimp only [ExceptT.mk]
  split
  · rename_i e faults hfault
    obtain ⟨he, hrest⟩ := take?_foreign hs hfault
    refine ⟨hrest, ?_⟩
    rintro t ⟨⟩
    exact he
  · split
    · refine ⟨hs, ?_⟩
      rintro t ⟨⟩
      trivial
    · exact ⟨hs, h s.tree⟩

theorem host_honest (cwd : Names) : (host cwd).Honest HasForeignFaults where
  log r s hs := by
    show HasForeignFaults (if _ then _ else _)
    split <;> exact hs
  realpath path := honest_reading cwd _ path fun _ _ => realpathIn_foreign
  isFile path := honest_reading cwd _ path fun _ _ => isFileIn_foreign
  assertReadable path := honest_reading cwd _ path fun _ _ => accessIn_foreign
  read path := honest_reading cwd _ path fun _ _ => read_foreign

def flaky : Machine :=
  { Preprocessor.nested with
    faults := [⟨.read, "/w/b", .error { message := "EIO: i/o error, read", code := .text "EIO" },
      some 1⟩] }

end Machine
end Inliner
