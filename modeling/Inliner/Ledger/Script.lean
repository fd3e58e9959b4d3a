import Inliner.Ledger

/-! Scripts of ledger operations. A script opens, closes and asks about files, and may run a
further script inside an open file, so the ledgers that scripts reach are all that any caller can
reach. -/
namespace Inliner.Ledger

inductive Step where
  | enter (path : String) (location : Option Location)
  | leave
  | has (path : String)
  /-- Run `body` with `path` open. Errors of the steps of `body` do not end it; it ends as
  `ending` says. -/
  | withFile (path : String) (location : Option Location) (body : List Step)
      (ending : Except Thrown Value)
  deriving Inhabited

/-- What a step comes to, with the open files after it. -/
inductive Entry where
  | done (stack : List String)
  | answered (held : Bool) (stack : List String)
  | returned (inner : List Entry) (result : Value) (stack : List String)
  | refused (error : Thrown) (stack : List String)
  | notOpened (error : Thrown) (stack : List String)
  | failed (inner : List Entry) (error : Thrown) (stack : List String)
  deriving Inhabited

mutual

def runStep (l : Ledger) : Step → Entry × Ledger
  | .enter path location =>
    match l.enter path location with
    | .ok l' => (.done l'.stack, l')
    | .error e => (.refused e l.stack, l)
  | .leave =>
    match l.leave with
    | .ok l' => (.done l'.stack, l')
    | .error e => (.refused e l.stack, l)
  | .has path => (.answered (l.has path) l.stack, l)
  | .withFile path location body ending =>
    match l.enter path location with
    | .error e => (.notOpened e l.stack, l)
    | .ok l' =>
      let (inner, l'') := runSteps l' body
      match l''.leave, ending with
      | .error e, _ => (.failed inner e l''.stack, l'')
      | .ok outer, .error e => (.failed inner e outer.stack, outer)
      | .ok outer, .ok v => (.returned inner v outer.stack, outer)

def runSteps (l : Ledger) : List Step → List Entry × Ledger
  | [] => ([], l)
  | step :: rest =>
    let (entry, l') := runStep l step
    let (entries, l'') := runSteps l' rest
    (entry :: entries, l'')

end

end Inliner.Ledger
