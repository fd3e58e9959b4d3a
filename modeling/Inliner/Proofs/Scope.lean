import Inliner.Proofs.Expansion

/-! Computations that open a file only around a further such computation. However they end, the
ledger after them is the one before them. Expansion is one of them. -/
namespace Inliner

/-- Computations made of values, throws, sequences and catches, and of files that are open while a
further computation runs. They may also do what has nothing to do with the ledger, and look at
it. -/
inductive Scoped (m : Type → Type) : Type → Type 1
  | value {α : Type} (a : α) : Scoped m α
  | raise {α : Type} (e : Thrown) : Scoped m α
  | outside {α : Type} (x : ExceptT Thrown m α) : Scoped m α
  | ledger : Scoped m Ledger
  | sequence {α β : Type} (x : Scoped m α) (f : α → Scoped m β) : Scoped m β
  | rescue {α : Type} (x : Scoped m α) (handler : Thrown → Scoped m α) : Scoped m α
  | withFile {α : Type} (path : String) (location : Option Location) (body : Scoped m α) :
      Scoped m α

namespace Scoped

variable {m : Type → Type} [Monad m] {α β : Type}

/-- The computation on a ledger, which opens and closes files. -/
def run {α : Type} : Scoped m α → Ledgered m α
  | value a => pure a
  | raise e => throw e
  | outside x => Ledgered.outside x
  | ledger => Ledgered.ledger
  | sequence x f => x.run >>= fun a => (f a).run
  | rescue x handler => tryCatch x.run fun e => (handler e).run
  | withFile path location body => Ledgered.withFile path location body.run

/-- What the computation itself comes to while the files of a ledger are open. A file that is opened
is known to the computation inside it and to nothing else, so that there is nothing to close. -/
def meaning {α : Type} : Scoped m α → Ledger → ExceptT Thrown m α
  | value a, _ => pure a
  | raise e, _ => throw e
  | outside x, _ => x
  | ledger, l => pure l
  | sequence x f, l => x.meaning l >>= fun a => (f a).meaning l
  | rescue x handler, l => tryCatch (x.meaning l) fun e => (handler e).meaning l
  | withFile path location body, l =>
    match l.enter path location with
    | .ok l' => body.meaning l'
    | .error e => throw e

end Scoped

namespace Ledgered

variable {m : Type → Type} [Monad m] {α β : Type}

theorem run_update (f : Ledger → Except Thrown Ledger) (l : Ledger) :
    (update f : Ledgered m Unit).run l = pure (match f l with
      | .ok l' => (.ok (), l')
      | .error e => (.error e, l)) := rfl

/-- On the ledger `l` the computation ends as `y` does, and `l` is the ledger after it. -/
def Restored (x : Ledgered m α) (l : Ledger) (y : ExceptT Thrown m α) : Prop :=
  x.run l = y.run >>= fun r => pure (r, l)

variable [LawfulMonad m]

theorem restored_pure (a : α) (l : Ledger) : (pure a : Ledgered m α).Restored l (pure a) := by
  show pure (Except.ok a, l) = (pure (Except.ok a) : m _) >>= fun r => pure (r, l)
  rw [pure_bind]

theorem restored_throw (e : Thrown) (l : Ledger) :
    (throw e : Ledgered m α).Restored l (throw e) := by
  show pure (Except.error e, l) = (pure (Except.error e) : m _) >>= fun r => pure (r, l)
  rw [pure_bind]

theorem restored_ledger (l : Ledger) : (ledger : Ledgered m Ledger).Restored l (pure l) :=
  restored_pure l l

theorem Restored.bind {x : Ledgered m α} {f : α → Ledgered m β} {l : Ledger}
    {y : ExceptT Thrown m α} {g : α → ExceptT Thrown m β} (hx : x.Restored l y)
    (hf : ∀ a, (f a).Restored l (g a)) : (x >>= f).Restored l (y >>= g) := by
  show (x.run l >>= fun p => ExceptT.bindCont f p.1 p.2) =
    (y.run >>= ExceptT.bindCont g) >>= fun r => pure (r, l)
  rw [hx, bind_assoc, bind_assoc]
  refine congrArg (y.run >>= ·) (funext fun r => ?_)
  rw [pure_bind]
  cases r with
  | ok a => exact hf a
  | error e => exact restored_throw e l

theorem Restored.rescue {x : Ledgered m α} {f : Thrown → Ledgered m α} {l : Ledger}
    {y : ExceptT Thrown m α} {g : Thrown → ExceptT Thrown m α} (hx : x.Restored l y)
    (hf : ∀ e, (f e).Restored l (g e)) : (tryCatch x f).Restored l (tryCatch y g) := by
  show x.run l >>= _ = (y.run >>= _) >>= fun r => pure (r, l)
  rw [hx, bind_assoc, bind_assoc]
  refine congrArg (y.run >>= ·) (funext fun r => ?_)
  rw [pure_bind]
  cases r with
  | ok a => exact restored_pure a l
  | error e => exact hf e

theorem run_then {x : Ledgered m α} {f : α → Ledgered m β} {l l' : Ledger} {a : α}
    (h : x.run l = pure (.ok a, l')) : (x >>= f).run l = (f a).run l' := by
  show (x.run l >>= fun p => ExceptT.bindCont f p.1 p.2) = _
  rw [h, pure_bind]
  rfl

theorem run_stop {x : Ledgered m α} {f : α → Ledgered m β} {l l' : Ledger} {e : Thrown}
    (h : x.run l = pure (.error e, l')) : (x >>= f).run l = pure (.error e, l') := by
  show (x.run l >>= fun p => ExceptT.bindCont f p.1 p.2) = _
  rw [h, pure_bind]
  rfl

theorem Restored.ledger_bind {f : Ledger → Ledgered m α} {l : Ledger} {y : ExceptT Thrown m α}
    (h : (f l).Restored l y) : (ledger >>= f).Restored l y := by
  have hread : (ledger : Ledgered m Ledger).run l = pure (.ok l, l) := rfl
  rw [Restored, run_then hread]
  exact h

theorem run_outcome_bind (x : Ledgered m α) (k : Except Thrown α → Ledgered m β) (l : Ledger) :
    (outcome x >>= k).run l = x.run l >>= fun ended => (k ended.1).run ended.2 := by
  show (x.run l >>= fun p => pure (Except.ok p.1, p.2)) >>=
    (fun p => ExceptT.bindCont k p.1 p.2) = _
  rw [bind_assoc]
  simp only [pure_bind]
  rfl

theorem Restored.recover {x : Ledgered m α} {k : Except Thrown α → Ledgered m α} {l : Ledger}
    {y : ExceptT Thrown m α} {g : Thrown → ExceptT Thrown m α} (hx : x.Restored l y)
    (hok : ∀ a, k (.ok a) = pure a) (herror : ∀ e, (k (.error e)).Restored l (g e)) :
    (outcome x >>= k).Restored l (tryCatch y g) := by
  rw [Restored, run_outcome_bind, hx, bind_assoc, ExceptT.run_tryCatch, bind_assoc]
  refine congrArg (y.run >>= ·) (funext fun r => ?_)
  rw [pure_bind]
  cases r with
  | ok a =>
    dsimp only
    rw [hok a]
    exact restored_pure a l
  | error e => exact herror e

section withFile

variable {path : String} {location : Option Location} {x : Ledgered m α} {l l' : Ledger}

theorem restored_refused {e : Thrown} (he : l.enter path location = .error e) :
    (withFile path location x).Restored l (throw e) := by
  have henter : (enter path location : Ledgered m Unit).run l = pure (.error e, l) := by
    rw [enter, run_update, he]
  rw [Ledgered.withFile, Restored, run_stop henter]
  exact restored_throw e l

theorem Restored.opened (he : l.enter path location = .ok l') {y : ExceptT Thrown m α}
    (hx : x.Restored l' y) : (withFile path location x).Restored l y := by
  have henter : (enter path location : Ledgered m Unit).run l = pure (.ok (), l') := by
    rw [enter, run_update, he]
  have hleave : (leave : Ledgered m Unit).run l' = pure (.ok (), l) := by
    rw [leave, run_update, Ledger.enter_eq_ok he, Ledger.leave_push]
  rw [Ledgered.withFile, Restored, run_then henter, run_outcome_bind, hx, bind_assoc]
  refine congrArg (y.run >>= ·) (funext fun r => ?_)
  rw [pure_bind, run_then hleave]
  cases r with
  | ok a => rfl
  | error e => rfl

theorem Restored.withFile {y : Ledger → ExceptT Thrown m α} (hx : ∀ l', x.Restored l' (y l'))
    (l : Ledger) :
    (withFile path location x).Restored l (match l.enter path location with
      | .ok l' => y l'
      | .error e => throw e) := by
  cases he : l.enter path location with
  | error e => exact restored_refused he
  | ok l' => exact (hx l').opened he

end withFile

end Ledgered

namespace Scoped

variable {m : Type → Type} [Monad m] [LawfulMonad m] {α β : Type}

/-- Every computation leaves the ledger as it found it and ends as it means to. -/
theorem restored (p : Scoped m α) (l : Ledger) : p.run.Restored l (p.meaning l) := by
  induction p generalizing l with
  | value a => exact Ledgered.restored_pure a l
  | raise e => exact Ledgered.restored_throw e l
  | outside x => rfl
  | ledger => exact Ledgered.restored_ledger l
  | sequence x f ihx ihf => exact (ihx l).bind fun a => ihf a l
  | rescue x handler ihx ihh => exact (ihx l).rescue fun e => ihh e l
  | withFile path location body ih => exact Ledgered.Restored.withFile ih l

end Scoped

def Thrown.IsOwn (e : Thrown) : Prop := ¬e.IsForeign

theorem Thrown.isOwn_ofProblem (problem : Problem) : (Thrown.ofProblem problem).IsOwn := fun h => h

theorem Thrown.IsOwn.attach {e : Thrown} (h : e.IsOwn) (stack : List String) :
    (e.attach stack).IsOwn := by
  cases e with
  | failure f => exact h
  | error e => exact absurd trivial h
  | value v => exact absurd trivial h

theorem Ledger.enter_isOwn {l : Ledger} {path : String} {location : Option Location} {e : Thrown}
    (h : l.enter path location = .error e) : e.IsOwn := by
  unfold enter at h
  split at h
  · cases h
    exact Thrown.isOwn_ofProblem _
  · split at h
    · cases h
      exact Thrown.isOwn_ofProblem _
    · cases h

/-- Whatever state the computation starts in, what it raises is in `P`. -/
def Raises {σ α : Type} (P : Thrown → Prop) (x : ExceptT Thrown (StateM σ) α) : Prop :=
  ∀ s e, (x.run.run s).1 = .error e → P e

section raises

variable {σ α β : Type} {P : Thrown → Prop}

theorem raises_pure (a : α) : Raises P (pure a : ExceptT Thrown (StateM σ) α) := by
  intro s e h
  cases h

theorem raises_throw {e : Thrown} (he : P e) :
    Raises P (throw e : ExceptT Thrown (StateM σ) α) := by
  intro s e' h
  cases h
  exact he

theorem raises_lift (x : StateM σ α) : Raises P (ExceptT.lift x) := by
  intro s e h
  cases h

theorem Raises.mono {Q : Thrown → Prop} (h : ∀ e, P e → Q e)
    {x : ExceptT Thrown (StateM σ) α} (hx : Raises P x) : Raises Q x :=
  fun s e he => h e (hx s e he)

theorem Raises.bind {x : ExceptT Thrown (StateM σ) α} {f : α → ExceptT Thrown (StateM σ) β}
    (hx : Raises P x) (hf : ∀ a, Raises P (f a)) : Raises P (x >>= f) := by
  intro s e h
  have hfirst := hx s
  rw [ExceptT.run_bind, StateT.run_bind] at h
  generalize x.run.run s = ended at h hfirst
  obtain ⟨r, s'⟩ := ended
  cases r with
  | ok a => exact hf a s' e h
  | error e' =>
    cases h
    exact hfirst e rfl

theorem Raises.rescue {Q : Thrown → Prop} {x : ExceptT Thrown (StateM σ) α}
    {f : Thrown → ExceptT Thrown (StateM σ) α} (hx : Raises Q x)
    (hf : ∀ e, Q e → Raises P (f e)) : Raises P (tryCatch x f) := by
  intro s e h
  have hfirst := hx s
  rw [ExceptT.run_tryCatch, StateT.run_bind] at h
  generalize x.run.run s = ended at h hfirst
  obtain ⟨r, s'⟩ := ended
  cases r with
  | ok a => cases h
  | error e' => exact hf e' (hfirst e' rfl) s' e h

theorem raises_onPath (path : String) (location : Option Location)
    (x : ExceptT Thrown (StateM σ) α) : Raises Thrown.IsOwn (onPath path location x) :=
  Raises.rescue (Q := fun _ => True) (fun _ _ _ => trivial) fun _ _ => raises_throw (fun h => h)

end raises

namespace Scoped

variable {σ α β : Type} {P : Thrown → Prop}

/-- What the computation raises of itself, and what comes of opening files in it, is in `P`. -/
def Raises {α : Type} (P : Thrown → Prop) : Scoped (StateM σ) α → Prop
  | value _ | ledger => True
  | raise e => P e
  | outside x => Inliner.Raises P x
  | sequence x f => x.Raises P ∧ ∀ a, (f a).Raises P
  | rescue x handler => x.Raises P ∧ ∀ e, P e → (handler e).Raises P
  | withFile path location body =>
    (∀ (l : Ledger) e, l.enter path location = .error e → P e) ∧ body.Raises P

theorem Raises.meaning {p : Scoped (StateM σ) α} (h : p.Raises P) (l : Ledger) :
    Inliner.Raises P (p.meaning l) := by
  induction p generalizing l with
  | value a => exact raises_pure a
  | raise e => exact raises_throw h
  | outside x => exact h
  | ledger => exact raises_pure l
  | sequence x f ihx ihf => exact (ihx h.1 l).bind fun a => ihf a (h.2 a) l
  | rescue x handler ihx ihh => exact (ihx h.1 l).rescue fun e he => ihh e (h.2 e he) l
  | withFile path location body ih =>
    rw [Scoped.meaning]
    cases henter : l.enter path location with
    | ok l' => exact ih h.2 l'
    | error e => exact raises_throw (h.1 l e henter)

end Scoped

namespace Ledgered

variable {σ α β : Type} {P : Thrown → Prop}

/-- The computation is one that opens files only around others, and what is raised in it is in `P`. -/
def IsScoped (P : Thrown → Prop) (x : Ledgered (StateM σ) α) : Prop :=
  ∃ p : Scoped (StateM σ) α, p.run = x ∧ p.Raises P

theorem isScoped_pure (a : α) : IsScoped P (pure a : Ledgered (StateM σ) α) :=
  ⟨.value a, rfl, trivial⟩

theorem isScoped_throw {e : Thrown} (he : P e) :
    IsScoped P (throw e : Ledgered (StateM σ) α) :=
  ⟨.raise e, rfl, he⟩

theorem isScoped_ledger : IsScoped P (ledger : Ledgered (StateM σ) Ledger) :=
  ⟨.ledger, rfl, trivial⟩

theorem isScoped_outside {x : ExceptT Thrown (StateM σ) α} (hx : Inliner.Raises P x) :
    IsScoped P (outside x) :=
  ⟨.outside x, rfl, hx⟩

theorem IsScoped.bind {x : Ledgered (StateM σ) α} {f : α → Ledgered (StateM σ) β}
    (hx : IsScoped P x) (hf : ∀ a, IsScoped P (f a)) : IsScoped P (x >>= f) := by
  obtain ⟨p, rfl, hp⟩ := hx
  choose q hq hraises using hf
  refine ⟨.sequence p q, ?_, hp, hraises⟩
  rw [Scoped.run]
  exact congrArg (p.run >>= ·) (funext hq)

theorem IsScoped.withFile {path : String} {location : Option Location}
    {x : Ledgered (StateM σ) α} (hx : IsScoped P x)
    (henter : ∀ (l : Ledger) e, l.enter path location = .error e → P e) :
    IsScoped P (withFile path location x) := by
  obtain ⟨p, rfl, hp⟩ := hx
  exact ⟨.withFile path location p, rfl, henter, hp⟩

theorem IsScoped.recover {x : Ledgered (StateM σ) α}
    {k : Except Thrown α → Ledgered (StateM σ) α} (hx : IsScoped P x)
    (hok : ∀ a, k (.ok a) = pure a)
    (herror : ∀ e, ∃ q : Scoped (StateM σ) α, q.run = k (.error e) ∧ (P e → q.Raises P)) :
    IsScoped P (outcome x >>= k) := by
  obtain ⟨p, rfl, hp⟩ := hx
  choose q hq hraises using herror
  refine ⟨.rescue p q, ?_, hp, hraises⟩
  funext l
  show (tryCatch p.run fun e => (q e).run : Ledgered (StateM σ) α).run.run l =
    (outcome p.run >>= k).run l
  rw [ExceptT.run_tryCatch, StateT.run_bind, run_outcome_bind]
  refine congrArg (p.run.run l >>= ·) (funext fun ended => ?_)
  obtain ⟨r, l'⟩ := ended
  cases r with
  | ok a => exact (congrFun (hok a) l').symm
  | error e => exact congrFun (hq e) l'

end Ledgered

theorem Directive.parseLine_isOwn {line path : String} {number : Number} {e : Thrown}
    (h : parseLine line number path = .error e) : e.IsOwn := by
  unfold parseLine at h
  split at h
  · cases h
  · cases h
  · cases h
    exact Thrown.isOwn_ofProblem _

theorem Resolver.raises_escape {σ : Type} (h : Host (StateM σ)) (r : Resolver) (d : Directive)
    (message : String) : Raises Thrown.IsOwn (r.escape h d message) :=
  (raises_lift _).bind fun _ => raises_throw (Thrown.isOwn_ofProblem _)

theorem Resolver.raises_resolve {σ : Type} (h : Host (StateM σ)) (r : Resolver) (d : Directive) :
    Raises Thrown.IsOwn (r.resolve h d) := by
  unfold resolve
  dsimp only
  split
  · exact raises_escape h r d _
  · refine (raises_onPath _ _ _).bind fun canonical => ?_
    split
    · exact raises_escape h r d _
    · refine (raises_onPath _ _ _).bind fun _ => ?_
      exact (raises_lift _).bind fun _ => raises_pure canonical

namespace Expansion

open Ledgered

variable {σ : Type} (h : Host (StateM σ)) (r : Resolver) (debug : Bool)

theorem isScoped_expandLines (path : String) {expandFile : String → Ledgered (StateM σ) (List String)}
    (hf : ∀ target, IsScoped Thrown.IsOwn (expandFile target)) (number : Nat)
    (lines : List String) :
    IsScoped Thrown.IsOwn (expandLines h r debug path expandFile number lines) := by
  induction lines generalizing number with
  | nil => exact isScoped_pure []
  | cons line rest ih =>
    have hmore (here : List String) : IsScoped Thrown.IsOwn
        (expandLines h r debug path expandFile (number + 1) rest >>= fun more =>
          pure (here ++ more)) :=
      (ih (number + 1)).bind fun more => isScoped_pure _
    rw [expandLines]
    cases hparse : Directive.parseLine line (.count number) path with
    | error e => exact (isScoped_throw (Directive.parseLine_isOwn hparse)).bind hmore
    | ok found =>
      cases found with
      | none => exact (isScoped_pure [line]).bind hmore
      | some d =>
        refine (isScoped_outside (r.raises_resolve h d)).bind fun target => ?_
        refine ((hf target).withFile fun _ _ => Ledger.enter_isOwn).bind fun lines => ?_
        exact (isScoped_pure _).bind hmore

theorem isScoped_expandWithin (room : Nat) (path : String) :
    IsScoped Thrown.IsOwn (expandWithin h r debug room path) := by
  induction room generalizing path with
  | zero => exact isScoped_ledger.bind fun l => isScoped_throw (Thrown.isOwn_ofProblem _)
  | succ room ih =>
    refine isScoped_ledger.bind fun l => ?_
    refine (isScoped_outside (raises_lift _)).bind fun _ => ?_
    refine IsScoped.recover ?_ (fun lines => rfl) fun e => ?_
    · refine (isScoped_outside (raises_onPath _ _ _)).bind fun text => ?_
      exact isScoped_expandLines h r debug path ih 1 (Text.splitLines text)
    · exact ⟨.sequence .ledger fun l => .raise (e.attach l.stack), rfl,
        fun he => ⟨trivial, fun l => he.attach l.stack⟩⟩

/-- Expansion opens files only around expansions. -/
theorem isScoped_expand (path : String) : IsScoped Thrown.IsOwn (expand h r debug path) :=
  isScoped_ledger.bind fun l => isScoped_expandWithin h r debug (l.capacity + 1) path

end Expansion

theorem Config.forInput_ne_unbalanced (cwd : Names) (o : Options) (input : String) :
    forInput cwd o input ≠ .error Ledger.unbalanced := by
  intro h
  rcases bind_eq_error_iff.mp h with hdepth | ⟨depth, -, h⟩
  · simp only [depthOf, complain] at hdepth
    split at hdepth
    · cases hdepth
    · cases hdepth
  · dsimp only at h
    split at h
    · cases h
    · rcases bind_eq_error_iff.mp h with hpath | ⟨base, -, hok⟩
      · unfold pathOf at hpath
        split at hpath
        · cases hpath
        · simp [Ledger.unbalanced] at hpath
      · cases hok

namespace Preprocessor

theorem expandInput_eq {m : Type → Type} [Monad m] [LawfulMonad m] {h : Host m} {c : Config}
    {r : Resolver} {input : String} {y : ExceptT Thrown m (List String)}
    (hy : (Ledgered.withFile input none (Expansion.expand h r c.marks input)).Restored
      { limit := .number c.maxIncludeDepth } y) : expandInput h c r input = y := by
  refine ExceptT.ext ?_
  unfold expandInput
  dsimp only
  rw [hy]
  change (ExceptT.lift _ >>= _ : ExceptT Thrown m _).run = _
  rw [ExceptT.run_bind_lift, monadLift_self, bind_assoc]
  conv => rhs; rw [← bind_pure y.run]
  refine congrArg (y.run >>= ·) (funext fun r => ?_)
  rw [pure_bind]
  cases r <;> rfl

variable {σ : Type} (h : Host (StateM σ))

theorem raises_expandInput (c : Config) (r : Resolver) (input : String) :
    Raises Thrown.IsOwn (expandInput h c r input) := by
  have hfile : Ledgered.IsScoped Thrown.IsOwn
      (Ledgered.withFile input none (Expansion.expand h r c.marks input)) :=
    (Expansion.isScoped_expand h r c.marks input).withFile fun _ _ => Ledger.enter_isOwn
  obtain ⟨p, hp, hraises⟩ := hfile
  rw [expandInput_eq (hp ▸ p.restored _)]
  exact hraises.meaning _

theorem raises_process (o : Options) (input : String) :
    Raises (fun e => e.IsOwn ∨ Config.forInput h.cwd o input = .error e) (process h o input) := by
  unfold process
  cases hc : Config.forInput h.cwd o input with
  | error e => exact raises_throw (.inr rfl)
  | ok c =>
    refine Raises.mono (P := Thrown.IsOwn) (fun e => .inl) ?_
    refine (raises_onPath _ _ _).bind fun file => ?_
    refine ((raises_onPath _ _ _).bind fun root => raises_pure (Resolver.mk root)).bind fun r => ?_
    refine (raises_expandInput h c r file).bind fun lines => ?_
    exact (raises_lift _).bind fun _ => raises_pure (Text.renderLines lines)

/-- Scoped restoration: a computation that opens files only around others ends with what it comes to
itself and with the ledger it started on, whether it returns or raises; expansion is such a
computation, on every host and for every outcome; and a run never ends with the error of a ledger
that has no file to close. -/
theorem scopes_restore_ledger {σ : Type} :
    (∀ {α : Type} (p : Scoped (StateM σ) α) (l : Ledger) (s : σ),
      (p.run.run l).run s =
        ((((p.meaning l).run.run s).1, l), ((p.meaning l).run.run s).2)) ∧
    (∀ (h : Host (StateM σ)) (r : Resolver) (debug : Bool) (path : String),
      (∃ p : Scoped (StateM σ) (List String), p.run = Expansion.expand h r debug path) ∧
      ∀ l s, (((Expansion.expand h r debug path).run l).run s).1.2 = l) ∧
    ∀ (h : Host (StateM σ)) (o : Options) (input : String) (s : σ),
      ((process h o input).run.run s).1 ≠ .error Ledger.unbalanced := by
  have hscoped {α : Type} (p : Scoped (StateM σ) α) (l : Ledger) (s : σ) :
      (p.run.run l).run s =
        ((((p.meaning l).run.run s).1, l), ((p.meaning l).run.run s).2) := by
    rw [p.restored l]
    rfl
  refine ⟨hscoped, fun h r debug path => ?_, fun h o input s hout => ?_⟩
  · obtain ⟨p, hp, -⟩ := Expansion.isScoped_expand h r debug path
    refine ⟨⟨p, hp⟩, fun l s => ?_⟩
    rw [← hp, hscoped p l s]
  · rcases raises_process h o input s _ hout with hown | hsettings
    · exact hown trivial
    · exact Config.forInput_ne_unbalanced _ _ _ hsettings

end Preprocessor
end Inliner
