import Inliner.Host
import Mathlib

/-! Computations that write down what they do. One that records goes through the states of the plain
one and ends as it does, and what is written stands in order. -/
namespace Inliner

variable {ε σ α β : Type}

/-- A computation with what is told of its result written down. -/
def written {m : Type → Type} [Monad m] (told : α → List ε) (x : m α) : StateT (List ε) m α :=
  fun before => do
    let a ← x
    pure (a, before ++ told a)

/-- From the state `s`, the computation writes down `entries` and ends with `a` in the state `s'`. -/
def Writes (x : StateT (List ε) (StateM σ) α) (s : σ) (entries : List ε) (a : α) (s' : σ) : Prop :=
  ∀ before, (x.run before).run s = ((a, before ++ entries), s')

section writes

variable {x : StateT (List ε) (StateM σ) α} {f : α → StateT (List ε) (StateM σ) β}
  {s s₁ s₂ : σ} {entries more : List ε} {a : α} {b : β}

theorem writes_pure (a : α) (s : σ) :
    Writes (pure a : StateT (List ε) (StateM σ) α) s [] a s := by
  intro before
  rw [List.append_nil]
  rfl

theorem writes_lift {y : StateM σ α} (h : y.run s = (a, s₁)) :
    Writes (StateT.lift y : StateT (List ε) (StateM σ) α) s [] a s₁ := by
  intro before
  rw [StateT.run_lift, StateT.run_bind, h, List.append_nil]
  rfl

theorem writes_written {y : StateM σ α} (h : y.run s = (a, s₁)) (told : α → List ε) :
    Writes (written told y) s (told a) a s₁ := by
  intro before
  show (y >>= fun a => pure (a, before ++ told a)).run s = _
  rw [StateT.run_bind, h]
  rfl

theorem Writes.bind (hx : Writes x s entries a s₁) (hf : Writes (f a) s₁ more b s₂) :
    Writes (x >>= f) s (entries ++ more) b s₂ := by
  intro before
  rw [StateT.run_bind, StateT.run_bind, hx before, ← List.append_assoc]
  exact hf (before ++ entries)

end writes

/-- From the state `s`, both computations end with `a` in the state `s'`, the first with `entries`
written down. -/
structure Records (x : StateT (List ε) (StateM σ) α) (y : StateM σ α) (s : σ) (entries : List ε)
    (a : α) (s' : σ) : Prop where
  plain : y.run s = (a, s')
  writes : Writes x s entries a s'

section records

variable {x : StateT (List ε) (StateM σ) α} {y : StateM σ α}
  {f : α → StateT (List ε) (StateM σ) β} {g : α → StateM σ β} {s s₁ s₂ : σ}
  {entries more : List ε} {a : α} {b : β}

theorem records_pure (a : α) (s : σ) :
    Records (pure a : StateT (List ε) (StateM σ) α) (pure a) s [] a s :=
  ⟨rfl, writes_pure a s⟩

theorem records_lift (y : StateM σ α) (s : σ) :
    Records (StateT.lift y : StateT (List ε) (StateM σ) α) y s [] (y.run s).1 (y.run s).2 :=
  ⟨rfl, writes_lift rfl⟩

theorem records_written (h : y.run s = (a, s₁)) (told : α → List ε) :
    Records (written told y) y s (told a) a s₁ :=
  ⟨h, writes_written h told⟩

theorem Records.bind (hx : Records x y s entries a s₁) (hf : Records (f a) (g a) s₁ more b s₂) :
    Records (x >>= f) (y >>= g) s (entries ++ more) b s₂ := by
  refine ⟨?_, hx.writes.bind hf.writes⟩
  rw [StateT.run_bind, hx.plain]
  exact hf.plain

end records

section raising

variable {x : ExceptT Thrown (StateT (List ε) (StateM σ)) α} {y : ExceptT Thrown (StateM σ) α}
  {f : α → ExceptT Thrown (StateT (List ε) (StateM σ)) β} {g : α → ExceptT Thrown (StateM σ) β}
  {s s₁ s₂ : σ} {entries more : List ε} {a : α} {e : Thrown} {out : Except Thrown β}

theorem records_throw (e : Thrown) (s : σ) :
    Records (throw e : ExceptT Thrown (StateT (List ε) (StateM σ)) α).run
      (throw e : ExceptT Thrown (StateM σ) α).run s [] (.error e) s :=
  records_pure (Except.error e) s

theorem Records.then (hx : Records x.run y.run s entries (.ok a) s₁)
    (hf : Records (f a).run (g a).run s₁ more out s₂) :
    Records (x >>= f).run (y >>= g).run s (entries ++ more) out s₂ :=
  Records.bind (f := ExceptT.bindCont f) (g := ExceptT.bindCont g) hx hf

theorem Records.stop (hx : Records x.run y.run s entries (.error e) s₁) :
    Records (x >>= f).run (y >>= g).run s entries (.error e) s₁ := by
  have hall := Records.bind (f := ExceptT.bindCont f) (g := ExceptT.bindCont g) hx
    (records_pure _ s₁)
  rwa [List.append_nil] at hall

theorem Records.lift {x : StateT (List ε) (StateM σ) α} {y : StateM σ α}
    (hx : Records x y s entries a s₁) :
    Records (ExceptT.lift x : ExceptT Thrown _ α).run (ExceptT.lift y).run s entries (.ok a)
      s₁ := by
  have hall := hx.bind (f := fun a => pure (Except.ok a)) (g := fun a => pure (Except.ok a))
    (records_pure (Except.ok a : Except Thrown α) s₁)
  rw [List.append_nil] at hall
  exact hall

theorem Records.rethrow {r : Except Thrown α} (hx : Records x.run y.run s entries r s₁)
    (f : Thrown → Thrown) :
    Records (tryCatch x fun e => throw (f e)).run (tryCatch y fun e => throw (f e)).run s entries
      (r.mapError f) s₁ := by
  constructor
  · rw [ExceptT.run_tryCatch, StateT.run_bind, hx.plain]
    cases r <;> rfl
  · intro before
    rw [ExceptT.run_tryCatch, StateT.run_bind, StateT.run_bind, hx.writes before]
    cases r <;> rfl

theorem Records.onPath {r : Except Thrown α} (path : String) (location : Option Location)
    (hx : Records x.run y.run s entries r s₁) :
    Records (Inliner.onPath path location x).run (Inliner.onPath path location y).run s entries
      (r.mapError fun t => .failure (t.onPath path location)) s₁ :=
  hx.rethrow _

end raising

end Inliner
