import Inliner.Proofs.Scope
import Inliner.Settings.Load

/-! Where computations can be carried over to another monad, with values and sequences kept, a run
in surroundings that are carried over is the run itself, carried over. -/
namespace Inliner

variable {m n : Type → Type} [Monad m] [Monad n]

/-- A way to carry computations over to another monad that keeps values and sequences. -/
structure Passage (m n : Type → Type) [Monad m] [Monad n] where
  carry : {α : Type} → m α → n α
  value : ∀ {α : Type} (a : α), carry (pure a) = pure a
  sequence : ∀ {α β : Type} (x : m α) (f : α → m β),
    carry (x >>= f) = carry x >>= fun a => carry (f a)

namespace Passage

variable (p : Passage m n) {α β : Type}

/-- A computation that may raise, carried over. -/
def ends (x : ExceptT Thrown m α) : ExceptT Thrown n α := ExceptT.mk (p.carry x.run)

def runs (x : Ledgered m α) : Ledgered n α := ExceptT.mk fun l => p.carry (x.run l)

abbrev host (h : Host m) : Host n := h.carried p.carry

theorem carry_bind {x : m α} {x' : n α} {f : α → m β} {f' : α → n β} (hx : p.carry x = x')
    (hf : ∀ a, p.carry (f a) = f' a) : p.carry (x >>= f) = x' >>= f' := by
  rw [p.sequence, hx]
  exact congrArg (x' >>= ·) (funext hf)

theorem ends_pure (a : α) : p.ends (pure a) = pure a := p.value (Except.ok a)

theorem ends_throw (e : Thrown) : p.ends (throw e : ExceptT Thrown m α) = throw e :=
  p.value (Except.error e)

theorem ends_bind {x : ExceptT Thrown m α} {x' : ExceptT Thrown n α}
    {f : α → ExceptT Thrown m β} {f' : α → ExceptT Thrown n β} (hx : p.ends x = x')
    (hf : ∀ a, p.ends (f a) = f' a) : p.ends (x >>= f) = x' >>= f' := by
  refine p.carry_bind hx fun r => ?_
  cases r with
  | ok a => exact hf a
  | error e => exact p.value (Except.error e)

theorem ends_onPath {path : String} {location : Option Location} {x : ExceptT Thrown m α}
    {x' : ExceptT Thrown n α} (hx : p.ends x = x') :
    p.ends (onPath path location x) = onPath path location x' := by
  refine p.carry_bind hx fun r => ?_
  cases r with
  | ok a => exact p.value (Except.ok a)
  | error e => exact p.ends_throw _

theorem ends_lift [LawfulMonad m] [LawfulMonad n] (x : m α) :
    p.ends (ExceptT.lift x) = ExceptT.lift (p.carry x) := by
  show p.carry (Except.ok <$> x) = Except.ok <$> p.carry x
  rw [map_eq_pure_bind, map_eq_pure_bind]
  exact p.carry_bind rfl fun a => p.value (Except.ok a)

theorem runs_pure (a : α) : p.runs (pure a) = pure a := funext fun l => p.value (Except.ok a, l)

theorem runs_throw (e : Thrown) : p.runs (throw e : Ledgered m α) = throw e :=
  funext fun l => p.value (Except.error e, l)

theorem runs_ledger : p.runs Ledgered.ledger = Ledgered.ledger :=
  funext fun l => p.value (Except.ok l, l)

theorem runs_update (f : Ledger → Except Thrown Ledger) :
    p.runs (Ledgered.update f) = Ledgered.update f := funext fun _ => p.value _

theorem runs_bind {x : Ledgered m α} {x' : Ledgered n α} {f : α → Ledgered m β}
    {f' : α → Ledgered n β} (hx : p.runs x = x') (hf : ∀ a, p.runs (f a) = f' a) :
    p.runs (x >>= f) = x' >>= f' := by
  refine funext fun l => p.carry_bind (congrFun hx l) fun r => ?_
  obtain ⟨r, l'⟩ := r
  cases r with
  | ok a => exact congrFun (hf a) l'
  | error e => exact p.value (Except.error e, l')

theorem runs_outside {x : ExceptT Thrown m α} {x' : ExceptT Thrown n α} (hx : p.ends x = x') :
    p.runs (Ledgered.outside x) = Ledgered.outside x' :=
  funext fun l => p.carry_bind hx fun r => p.value (r, l)

theorem runs_outcome {x : Ledgered m α} {x' : Ledgered n α} (hx : p.runs x = x') :
    p.runs (Ledgered.outcome x) = Ledgered.outcome x' :=
  funext fun l => p.carry_bind (congrFun hx l) fun r => p.value (Except.ok r.1, r.2)

theorem runs_withFile {path : String} {location : Option Location} {x : Ledgered m α}
    {x' : Ledgered n α} (hx : p.runs x = x') :
    p.runs (Ledgered.withFile path location x) = Ledgered.withFile path location x' := by
  refine p.runs_bind (p.runs_update _) fun _ => ?_
  refine p.runs_bind (p.runs_outcome hx) fun r => ?_
  refine p.runs_bind (p.runs_update _) fun _ => ?_
  cases r with
  | ok a => exact p.runs_pure a
  | error e => exact p.runs_throw e

variable (h : Host m)

theorem ends_canonicalize (path : String) (location : Option Location) :
    p.ends (h.canonicalize path location) = (p.host h).canonicalize path location :=
  p.ends_onPath rfl

theorem ends_ofBase (base : String) :
    p.ends (Resolver.ofBase h base) = Resolver.ofBase (p.host h) base :=
  p.ends_bind (p.ends_canonicalize h _ _) fun root => p.ends_pure (Resolver.mk root)

variable [LawfulMonad m] [LawfulMonad n]

theorem ends_log (r : Log.Record) :
    p.ends (ExceptT.lift (h.log r)) = ExceptT.lift ((p.host h).log r) := p.ends_lift _

theorem ends_escape (r : Resolver) (d : Directive) (message : String) :
    p.ends (r.escape h d message) = r.escape (p.host h) d message :=
  p.ends_bind (p.ends_log h _) fun _ => p.ends_throw _

theorem ends_resolve (r : Resolver) (d : Directive) :
    p.ends (r.resolve h d) = r.resolve (p.host h) d := by
  unfold Resolver.resolve
  have hcwd : (p.host h).cwd = h.cwd := rfl
  rw [hcwd]
  dsimp only
  split
  · exact p.ends_escape h r d _
  · refine p.ends_bind (p.ends_canonicalize h _ _) fun canonical => ?_
    split
    · exact p.ends_escape h r d _
    · refine p.ends_bind (p.ends_onPath (p.ends_bind rfl fun found => ?_)) fun _ => ?_
      · cases found with
        | true => rfl
        | false => exact p.ends_bind (p.ends_throw _) fun _ => rfl
      · exact p.ends_bind (p.ends_log h _) fun _ => p.ends_pure canonical

theorem runs_expandLines (r : Resolver) (debug : Bool) (path : String)
    {f : String → Ledgered m (List String)} {f' : String → Ledgered n (List String)}
    (hf : ∀ target, p.runs (f target) = f' target) (number : Nat) (lines : List String) :
    p.runs (Expansion.expandLines h r debug path f number lines) =
      Expansion.expandLines (p.host h) r debug path f' number lines := by
  induction lines generalizing number with
  | nil => exact p.runs_pure []
  | cons line rest ih =>
    rw [Expansion.expandLines, Expansion.expandLines]
    cases Directive.parseLine line (.count number) path with
    | error e =>
      exact p.runs_bind (p.runs_throw e) fun here =>
        p.runs_bind (ih (number + 1)) fun more => p.runs_pure (here ++ more)
    | ok d =>
      cases d with
      | none =>
        exact p.runs_bind (p.runs_pure [line]) fun here =>
          p.runs_bind (ih (number + 1)) fun more => p.runs_pure (here ++ more)
      | some d =>
        refine p.runs_bind (p.runs_outside (p.ends_resolve h r d)) fun target => ?_
        refine p.runs_bind (p.runs_withFile (hf target)) fun lines => ?_
        exact p.runs_bind (p.runs_pure _) fun here =>
          p.runs_bind (ih (number + 1)) fun more => p.runs_pure (here ++ more)

theorem runs_expandWithin (r : Resolver) (debug : Bool) (room : Nat) (path : String) :
    p.runs (Expansion.expandWithin h r debug room path) =
      Expansion.expandWithin (p.host h) r debug room path := by
  induction room generalizing path with
  | zero => exact p.runs_bind p.runs_ledger fun l => p.runs_throw _
  | succ room ih =>
    refine p.runs_bind p.runs_ledger fun l => ?_
    refine p.runs_bind (p.runs_outside (p.ends_log h _)) fun _ => ?_
    refine p.runs_bind (p.runs_outcome ?_) fun result => ?_
    · refine p.runs_bind (p.runs_outside (p.ends_onPath rfl)) fun text => ?_
      exact p.runs_expandLines h r debug path ih 1 (Text.splitLines text)
    · cases result with
      | ok lines => exact p.runs_pure lines
      | error e => exact p.runs_bind p.runs_ledger fun l => p.runs_throw _

theorem ends_expandInput (c : Config) (r : Resolver) (input : String) :
    p.ends (Preprocessor.expandInput h c r input) =
      Preprocessor.expandInput (p.host h) c r input := by
  have hexpand : p.runs (Expansion.expand h r c.marks input) =
      Expansion.expand (p.host h) r c.marks input :=
    p.runs_bind p.runs_ledger fun l => p.runs_expandWithin h r c.marks _ input
  have hfile : p.runs (Ledgered.withFile input none (Expansion.expand h r c.marks input)) =
      Ledgered.withFile input none (Expansion.expand (p.host h) r c.marks input) :=
    p.runs_withFile hexpand
  have hbody := congrFun hfile { limit := .number c.maxIncludeDepth }
  refine p.ends_bind ((p.ends_lift _).trans (congrArg ExceptT.lift hbody)) fun result => ?_
  obtain ⟨outcome, _⟩ := result
  cases outcome with
  | ok lines => exact p.ends_pure lines
  | error e => exact p.ends_throw e

theorem ends_process (o : Options) (input : String) :
    p.ends (Preprocessor.process h o input) = Preprocessor.process (p.host h) o input := by
  unfold Preprocessor.process
  have hcwd : (p.host h).cwd = h.cwd := rfl
  rw [hcwd]
  cases Config.forInput h.cwd o input with
  | error e => exact p.ends_throw e
  | ok c =>
    refine p.ends_bind (p.ends_canonicalize h _ _) fun file => ?_
    refine p.ends_bind (p.ends_ofBase h _) fun r => ?_
    refine p.ends_bind (p.ends_expandInput h c r file) fun lines => ?_
    exact p.ends_bind (p.ends_log h _) fun _ => p.ends_pure (Text.renderLines lines)

abbrev workspace (w : Workspace m) : Workspace n := w.carried p.carry

variable (w : Workspace m)

omit [LawfulMonad m] [LawfulMonad n] in
theorem carry_exists? (path : String) :
    p.carry (w.exists? path) = (p.workspace w).exists? path := by
  refine p.carry_bind rfl fun r => ?_
  cases r with
  | ok _ => exact p.value true
  | error _ => exact p.value false

omit [LawfulMonad m] [LawfulMonad n] in
theorem carry_isRegularFile (path : String) :
    p.carry (w.isRegularFile path) = (p.workspace w).isRegularFile path := by
  refine p.carry_bind rfl fun r => ?_
  cases r with
  | ok b => exact p.value b
  | error _ => exact p.value false

omit [LawfulMonad m] [LawfulMonad n] in
theorem ends_readText (path : String) (encoding : Text.Encoding) :
    p.ends (w.readText path encoding) = (p.workspace w).readText path encoding :=
  p.ends_bind (p.ends_onPath rfl) fun bytes => p.ends_pure (encoding.decode bytes)

theorem ends_ensureDirectory (path : String) :
    p.ends (w.ensureDirectory path) = (p.workspace w).ensureDirectory path :=
  p.ends_bind (p.ends_onPath rfl) fun _ => p.ends_log w.toHost _

omit [LawfulMonad m] [LawfulMonad n] in
theorem ends_settled (x : Except Thrown α) :
    p.ends (LoadedConfig.lift x) = LoadedConfig.lift x := p.value x

theorem ends_load (yaml : YamlReader) (input : String) (o : CommandOptions) :
    p.ends (LoadedConfig.load yaml w input o) = LoadedConfig.load yaml (p.workspace w) input o := by
  have hcwd : (p.workspace w).cwd = w.cwd := rfl
  have hsettle (path : String) (file : ProjectFile) (configFile : Option String) :
      p.ends (do
        let options ← LoadedConfig.lift (o.merge w.cwd input path file)
        let config ← LoadedConfig.lift (Config.ofOptions w.cwd options)
        pure (⟨config, configFile, file.warnings⟩ : LoadedConfig)) = (do
        let options ← LoadedConfig.lift (o.merge w.cwd input path file)
        let config ← LoadedConfig.lift (Config.ofOptions w.cwd options)
        pure (⟨config, configFile, file.warnings⟩ : LoadedConfig)) :=
    p.ends_bind (p.ends_settled _) fun _ => p.ends_bind (p.ends_settled _) fun _ => p.ends_pure _
  unfold LoadedConfig.load
  rw [hcwd]
  refine p.ends_bind (p.ends_settled _) fun path => ?_
  have hthere := (p.ends_lift (w.exists? path)).trans
    (congrArg ExceptT.lift (p.carry_exists? w path))
  refine p.ends_bind hthere fun there => ?_
  cases there with
  | true =>
    refine p.ends_bind (p.ends_log w.toHost _) fun _ => ?_
    refine p.ends_bind (p.ends_readText w path .utf8) fun content => ?_
    refine p.ends_bind (p.ends_settled _) fun file => ?_
    exact p.ends_bind (p.ends_pure _) fun found => hsettle path found.1 found.2
  | false =>
    dsimp only
    rw [if_neg Bool.false_ne_true, if_neg Bool.false_ne_true]
    split
    · exact p.ends_bind (p.ends_throw _) fun found => hsettle path found.1 found.2
    · refine p.ends_bind (p.ends_log w.toHost _) fun _ => ?_
      exact p.ends_bind (p.ends_pure _) fun found => hsettle path found.1 found.2

end Passage
end Inliner
