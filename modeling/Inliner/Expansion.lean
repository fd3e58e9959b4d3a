import Inliner.Directive.Scan
import Inliner.Ledger
import Inliner.Resolver

/-! Expansion of a file: its lines in order, each directive replaced by the expansion of the file it
names. The first failure ends the run and carries the files that were open where it arose. -/
namespace Inliner.Expansion

variable {m : Type → Type} [Monad m]

def block (debug : Bool) (rawPath : String) (lines : List String) : List String :=
  if debug then
    Directive.beginMarker rawPath :: lines ++ [Directive.endMarker rawPath]
  else lines

/-- Expand `lines` of `path` from line `number` on; `expandFile` expands a file that is open. -/
def expandLines (h : Host m) (r : Resolver) (debug : Bool) (path : String)
    (expandFile : String → Ledgered m (List String)) :
    (number : Nat) → (lines : List String) → Ledgered m (List String)
  | _, [] => pure []
  | number, line :: rest => do
    let here ← match Directive.parseLine line (.count number) path with
      | .error e => throw e
      | .ok none => pure [line]
      | .ok (some d) => do
        let target ← Ledgered.outside (r.resolve h d)
        let lines ← Ledgered.withFile target (some d.location) (expandFile target)
        pure (block debug d.rawPath lines)
    let more ← expandLines h r debug path expandFile (number + 1) rest
    pure (here ++ more)

/-- Expand the open file `path` with at most `room` files open one inside the other. -/
def expandWithin (h : Host m) (r : Resolver) (debug : Bool) :
    (room : Nat) → (path : String) → Ledgered m (List String)
  | 0, path => do
    throw (.ofProblem (.tooDeep path (← Ledgered.ledger).limit none))
  | room + 1, path => do
    let l ← Ledgered.ledger
    Ledgered.outside (h.log (.debug
      ("Expanding " ++ path ++ " (depth " ++ toString l.depth ++ ")")))
    let r ← Ledgered.outcome do
      let text ← Ledgered.outside (h.readSource path none)
      expandLines h r debug path (expandWithin h r debug room) 1 (Text.splitLines text)
    match r with
    | .ok lines => pure lines
    | .error e => throw (e.attach (← Ledgered.ledger).stack)

/-- Expand a file that its caller has opened. The room is more than the ledger's limit lets a run
use. -/
def expand (h : Host m) (r : Resolver) (debug : Bool) (path : String) :
    Ledgered m (List String) := do
  let l ← Ledgered.ledger
  expandWithin h r debug (l.capacity + 1) path

end Inliner.Expansion
