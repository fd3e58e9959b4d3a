import Inliner.Proofs.Expansion

/-! A run says the same about all surroundings: what it comes to on a plain function of answers
carries over to every host that corresponds to it. -/
namespace Inliner

variable {m : Type → Type} [Monad m]

/-- What computations come to, for some reading of that which respects values and sequences. -/
structure Correspondence (m : Type → Type) [Monad m] where
  Rel : {α : Type} → m α → α → Prop
  value : ∀ {α : Type} (a : α), Rel (pure a : m α) a
  sequence : ∀ {α β : Type} {x : m α} {a : α} {f : α → m β} {b : β},
    Rel x a → Rel (f a) b → Rel (x >>= f) b

namespace Correspondence

variable (c : Correspondence m) {α β : Type}

/-- Computations that may raise come to the same end. -/
def Ends (x : ExceptT Thrown m α) (y : ExceptT Thrown Id α) : Prop := c.Rel x.run y.run

def Runs (x : Ledgered m α) (y : Ledgered Id α) : Prop := ∀ l, c.Rel (x.run l) (y.run l)

theorem ends_pure (a : α) : c.Ends (pure a) (pure a) := c.value (Except.ok a)

theorem ends_throw (e : Thrown) : c.Ends (throw e : ExceptT Thrown m α) (throw e) :=
  c.value (Except.error e)

variable {c}

theorem Ends.bind {x : ExceptT Thrown m α} {y : ExceptT Thrown Id α} {f : α → ExceptT Thrown m β}
    {g : α → ExceptT Thrown Id β} (hx : c.Ends x y)
    (hf : ∀ a, y.run = .ok a → c.Ends (f a) (g a)) : c.Ends (x >>= f) (y >>= g) := by
  show c.Rel (x.run >>= ExceptT.bindCont f) (y >>= g).run
  refine c.sequence hx ?_
  rw [run_bind_eq]
  cases hy : y.run with
  | ok a => exact hf a hy
  | error e => exact c.value (Except.error e)

theorem Ends.onPath {path : String} {location : Option Location} {x : ExceptT Thrown m α}
    {y : ExceptT Thrown Id α} (h : c.Ends x y) :
    c.Ends (Inliner.onPath path location x) (Inliner.onPath path location y) := by
  rw [Ends, run_onPath]
  refine c.sequence h ?_
  cases y.run with
  | ok a => exact c.value (Except.ok a)
  | error e => exact c.ends_throw _

theorem ends_lift [LawfulMonad m] {x : m α} {a : α} (h : c.Rel x a) :
    c.Ends (ExceptT.lift x) (pure a) := by
  show c.Rel (Except.ok <$> x) (Except.ok a)
  rw [map_eq_pure_bind]
  exact c.sequence h (c.value _)

variable (c)

theorem runs_pure (a : α) : c.Runs (pure a) (pure a) := fun l => c.value (Except.ok a, l)

theorem runs_throw (e : Thrown) : c.Runs (throw e : Ledgered m α) (throw e) :=
  fun l => c.value (Except.error e, l)

theorem runs_ledger : c.Runs Ledgered.ledger Ledgered.ledger := fun l => c.value (Except.ok l, l)

theorem runs_update (f : Ledger → Except Thrown Ledger) :
    c.Runs (Ledgered.update f) (Ledgered.update f) := fun _ => c.value _

variable {c}

theorem Runs.bind {x : Ledgered m α} {y : Ledgered Id α} {f : α → Ledgered m β}
    {g : α → Ledgered Id β} (hx : c.Runs x y)
    (hf : ∀ a, (∃ l, y.result l = .ok a) → c.Runs (f a) (g a)) : c.Runs (x >>= f) (y >>= g) := by
  intro l
  show c.Rel (x.run l >>= fun p => ExceptT.bindCont f p.1 p.2) _
  refine c.sequence (hx l) ?_
  rw [Ledgered.run_bind]
  cases hy : (y.run l).1 with
  | ok a => exact hf a ⟨l, hy⟩ _
  | error e => exact c.value _

theorem Ends.outside {x : ExceptT Thrown m α} {y : ExceptT Thrown Id α} (h : c.Ends x y) :
    c.Runs (Ledgered.outside x) (Ledgered.outside y) := by
  intro l
  show c.Rel (x.run >>= fun r => pure (r, l)) _
  exact c.sequence h (c.value _)

theorem Runs.outcome {x : Ledgered m α} {y : Ledgered Id α} (h : c.Runs x y) :
    c.Runs (Ledgered.outcome x) (Ledgered.outcome y) := by
  intro l
  show c.Rel (x.run l >>= fun p => pure (Except.ok p.1, p.2)) _
  exact c.sequence (h l) (c.value _)

theorem Runs.withFile {path : String} {location : Option Location} {x : Ledgered m α}
    {y : Ledgered Id α} (h : c.Runs x y) :
    c.Runs (Ledgered.withFile path location x) (Ledgered.withFile path location y) := by
  refine (c.runs_update _).bind fun _ _ => ?_
  refine h.outcome.bind fun r _ => ?_
  refine (c.runs_update _).bind fun _ _ => ?_
  cases r with
  | ok a => exact c.runs_pure a
  | error e => exact c.runs_throw e

/-- On a host that answers as a plain function, computations are what they come to. -/
def plain : Correspondence Id where
  Rel x a := x = a
  value _ := rfl
  sequence hx hf := by
    cases hx
    exact hf

end Correspondence

/-- The calls of `h` come to the answers of `v`; reads need do so only on the files in `files`. -/
structure Host.Corresponds (c : Correspondence m) (files : String → Prop) (h : Host m)
    (v : Host Id) : Prop where
  cwd : h.cwd = v.cwd
  log : ∀ r, c.Rel (h.log r) ()
  realpath : ∀ path, c.Ends (h.realpath path) (v.realpath path)
  isFile : ∀ path, c.Ends (h.isFile path) (v.isFile path)
  assertReadable : ∀ path, c.Ends (h.assertReadable path) (v.assertReadable path)
  read : ∀ path, files path → c.Ends (h.read path) (v.read path)

namespace Host.Corresponds

variable {c : Correspondence m} {files : String → Prop} {h : Host m} {v : Host Id}
  (hh : h.Corresponds c files v)
include hh

theorem canonicalize (path : String) (location : Option Location) :
    c.Ends (h.canonicalize path location) (v.canonicalize path location) :=
  (hh.realpath path).onPath

theorem ofBase (base : String) : c.Ends (Resolver.ofBase h base) (Resolver.ofBase v base) := by
  rw [Resolver.ofBase, Resolver.ofBase, hh.cwd]
  exact (hh.canonicalize _ _).bind fun root _ => c.ends_pure (Resolver.mk root)

variable [LawfulMonad m]

theorem escape (r : Resolver) (d : Directive) (message : String) :
    c.Ends (r.escape h d message) (r.escape v d message) :=
  (Correspondence.ends_lift (hh.log _)).bind fun _ _ => c.ends_throw _

theorem resolve (r : Resolver) (d : Directive) : c.Ends (r.resolve h d) (r.resolve v d) := by
  unfold Resolver.resolve
  rw [hh.cwd]
  dsimp only
  split
  · exact hh.escape r d _
  · refine (hh.canonicalize _ _).bind fun canonical _ => ?_
    split
    · exact hh.escape r d _
    · refine Correspondence.Ends.bind (Correspondence.Ends.onPath ?_) fun _ _ => ?_
      · refine (hh.isFile canonical).bind fun found _ => ?_
        cases found with
        | true => exact hh.assertReadable canonical
        | false => exact (c.ends_throw _).bind fun _ _ => hh.assertReadable canonical
      · refine (Correspondence.ends_lift (hh.log _)).bind fun _ _ => ?_
        exact c.ends_pure canonical

variable {r : Resolver} (hfiles : ∀ d target, r.targetOf v d = .ok target → files target)
  (debug : Bool)
include hfiles

theorem expandLines (path : String) {f : String → Ledgered m (List String)}
    {g : String → Ledgered Id (List String)}
    (hf : ∀ target, files target → c.Runs (f target) (g target))
    (number : Nat) (lines : List String) :
    c.Runs (Expansion.expandLines h r debug path f number lines)
      (Expansion.expandLines v r debug path g number lines) := by
  induction lines generalizing number with
  | nil => exact c.runs_pure []
  | cons line rest ih =>
    have hmore (here : List String) : c.Runs
        (Expansion.expandLines h r debug path f (number + 1) rest >>= fun more =>
          pure (here ++ more))
        (Expansion.expandLines v r debug path g (number + 1) rest >>= fun more =>
          pure (here ++ more)) :=
      (ih (number + 1)).bind fun more _ => c.runs_pure (here ++ more)
    rw [Expansion.expandLines, Expansion.expandLines]
    cases Directive.parseLine line (.count number) path with
    | error e => exact (c.runs_throw e).bind fun here _ => hmore here
    | ok d =>
      cases d with
      | none => exact (c.runs_pure [line]).bind fun here _ => hmore here
      | some d =>
        refine (hh.resolve r d).outside.bind fun target hresolved => ?_
        obtain ⟨_, htarget⟩ := hresolved
        refine (hf target (hfiles d target htarget)).withFile.bind fun lines _ => ?_
        exact (c.runs_pure _).bind fun here _ => hmore here

theorem expandWithin (room : Nat) {path : String} (hpath : files path) :
    c.Runs (Expansion.expandWithin h r debug room path)
      (Expansion.expandWithin v r debug room path) := by
  induction room generalizing path with
  | zero => exact c.runs_ledger.bind fun l _ => c.runs_throw _
  | succ room ih =>
    refine c.runs_ledger.bind fun l _ => ?_
    refine (Correspondence.ends_lift (hh.log _)).outside.bind fun _ _ => ?_
    refine Correspondence.Runs.bind (Correspondence.Runs.outcome ?_) fun result _ => ?_
    · refine (hh.read path hpath).onPath.outside.bind fun text _ => ?_
      exact hh.expandLines hfiles debug path (fun target ht => ih ht) 1 (Text.splitLines text)
    · cases result with
      | ok lines => exact c.runs_pure lines
      | error e => exact c.runs_ledger.bind fun l _ => c.runs_throw _

theorem expandInput (config : Config) {input : String} (hinput : files input) :
    c.Ends (Preprocessor.expandInput h config r input)
      (Preprocessor.expandInput v config r input) := by
  have hexpand : c.Runs (Expansion.expand h r config.marks input)
      (Expansion.expand v r config.marks input) :=
    c.runs_ledger.bind fun l _ => hh.expandWithin hfiles config.marks _ hinput
  have hfile : c.Runs (Ledgered.withFile input none (Expansion.expand h r config.marks input))
      (Ledgered.withFile input none (Expansion.expand v r config.marks input)) := hexpand.withFile
  have hbody := hfile { limit := .number config.maxIncludeDepth }
  refine (Correspondence.ends_lift hbody).bind fun result _ => ?_
  obtain ⟨outcome, _⟩ := result
  cases outcome with
  | ok lines => exact c.ends_pure lines
  | error e => exact c.ends_throw e

omit hfiles

/-- A run on `h` comes to what the run on `v` ends with, if `files` has all that is read. -/
theorem process {o : Options} {input : String}
    (hinput : ∀ file, Preprocessor.fileOf v input = .ok file → files file)
    (htargets : ∀ config r, Config.forInput v.cwd o input = .ok config →
      Preprocessor.resolverOf v config = .ok r →
      ∀ d target, r.targetOf v d = .ok target → files target) :
    c.Rel (Preprocessor.process h o input).run (Preprocessor.outcomeOf v o input) := by
  show c.Ends (Preprocessor.process h o input) (Preprocessor.process v o input)
  unfold Preprocessor.process
  rw [hh.cwd]
  cases hconfig : Config.forInput v.cwd o input with
  | error e => exact c.ends_throw e
  | ok config =>
    refine (hh.canonicalize _ _).bind fun file hfile => ?_
    refine (hh.ofBase _).bind fun r hr => ?_
    refine (hh.expandInput (htargets config r hconfig hr) config (hinput file hfile)).bind
      fun lines _ => ?_
    refine (Correspondence.ends_lift (hh.log _)).bind fun _ _ => ?_
    exact c.ends_pure (Text.renderLines lines)

end Host.Corresponds
end Inliner
