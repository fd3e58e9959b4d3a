import Inliner.Failure

/-! The files that are open on the way from the input to the one being read, as a stack and as a set.
A file is open at most once, and no more files are open than the limit allows. -/
namespace Inliner

structure Ledger where
  limit : Value
  opened : List String := []
  /-- The open files as a set, in which a file is looked up. -/
  held : List String := []
  deriving Repr, Inhabited

namespace Ledger

def depth (l : Ledger) : Nat := l.opened.length

def stack (l : Ledger) : List String := l.opened.reverse

def has (l : Ledger) (path : String) : Bool := l.held.contains path

def capacity (l : Ledger) : Nat := l.limit.toNumber.floorNat

def enter (l : Ledger) (path : String) (location : Option Location) : Except Thrown Ledger :=
  if l.has path then
    .error (.ofProblem (.circular (l.stack ++ [path]) location))
  else if l.limit.toNumber.exceededBy (l.depth + 1) then
    .error (.ofProblem (.tooDeep path l.limit location))
  else .ok { l with opened := path :: l.opened, held := l.held.insert path }

def unbalanced : Thrown :=
  .error { message := "ProcessingContext.leave() called with no file on the include chain" }

def leave (l : Ledger) : Except Thrown Ledger :=
  match l.opened with
  | [] => .error unbalanced
  | path :: outer => .ok { l with opened := outer, held := l.held.erase path }

@[simp] theorem length_stack (l : Ledger) : l.stack.length = l.depth := by simp [stack, depth]

@[simp] theorem mem_stack {l : Ledger} {path : String} : path ∈ l.stack ↔ path ∈ l.opened := by
  simp [stack]

theorem has_iff {l : Ledger} {path : String} : l.has path = true ↔ path ∈ l.held := by
  simp [has]

end Ledger

/-- Computations that open and close files; the ledger outlives a throw. -/
abbrev Ledgered (m : Type → Type) := ExceptT Thrown (StateT Ledger m)

namespace Ledgered

variable {m : Type → Type} [Monad m] {α : Type}

/-- Replace the ledger by what `f` makes of it, or raise and leave it alone. -/
def update (f : Ledger → Except Thrown Ledger) : Ledgered m Unit :=
  ExceptT.mk fun l => pure <| match f l with
    | .ok l' => (.ok (), l')
    | .error e => (.error e, l)

def enter (path : String) (location : Option Location) : Ledgered m Unit :=
  update fun l => l.enter path location

def leave : Ledgered m Unit := update Ledger.leave

def ledger : Ledgered m Ledger := ExceptT.mk fun l => pure (.ok l, l)

/-- A computation that knows nothing of the ledger. -/
def outside (x : ExceptT Thrown m α) : Ledgered m α :=
  ExceptT.mk fun l => do
    let r ← x.run
    pure (r, l)

def outcome (body : Ledgered m α) : Ledgered m (Except Thrown α) :=
  ExceptT.mk fun l => do
    let (r, l') ← body.run l
    pure (.ok r, l')

/-- Run `body` with `path` open and close the innermost file however it ends. If that fails, its
error is the one that counts. -/
def withFile (path : String) (location : Option Location) (body : Ledgered m α) :
    Ledgered m α := do
  enter path location
  let r ← outcome body
  leave
  match r with
  | .ok a => pure a
  | .error e => throw e

end Ledgered
end Inliner
