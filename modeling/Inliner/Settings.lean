import Inliner.Host

/-! Settings of a run: what callers may leave open, and the validated result. The limit on open
files is a positive integer and the base directory an absolute path. -/
namespace Inliner

/-- Settings as given: each may be any value, or missing. -/
structure Options where
  debug : Value := .absent
  maxIncludeDepth : Value := .absent
  baseDirectory : Value := .absent
  deriving Repr, Inhabited

structure Config where
  debug : Value
  maxIncludeDepth : Number
  baseDirectory : Names
  deriving Repr, Inhabited

namespace Config

def defaultDebug : Bool := false

def defaultDepth : Nat := 100

def projectFile : String := ".shpp.yml"

def positiveInteger? : Value → Option Number
  | .number n => if n.isPositiveInteger then some n else none
  | _ => none

def complain {α : Type} (c : Complaint) : Except Thrown α :=
  .error (.ofProblem (.settings c))

/-- Whether included blocks stand between marker lines. -/
def marks (c : Config) : Bool := c.debug.isTruthy

def depthOf (given : Value) : Except Thrown Number :=
  let depth := given.orElse (.number (.count defaultDepth))
  match positiveInteger? depth with
  | some n => .ok n
  | none => complain (.depth depth)

def pathOf (cwd : Names) (given : Value) : Except Thrown Names :=
  match given with
  | .text path => .ok (Path.resolve cwd path)
  | v => .error (.error
      { name := "TypeError"
        message := "The \"paths[0]\" argument must be of type string. Received " ++ v.kindText
        code := .text "ERR_INVALID_ARG_TYPE" })

/-- Validate settings, with the limit before the base directory. -/
def ofOptions (cwd : Names) (o : Options) : Except Thrown Config := do
  let depth ← depthOf o.maxIncludeDepth
  if !o.baseDirectory.isTruthy then complain .emptyBase
  let base ← pathOf cwd o.baseDirectory
  pure ⟨o.debug.orElse (.bool defaultDebug), depth, base⟩

def toOptions (c : Config) : Options :=
  ⟨c.debug, .number c.maxIncludeDepth, .text (Path.render c.baseDirectory)⟩

def directoryOf (cwd : Names) (path : String) : Names := (Path.resolve cwd path).dropLast

/-- The settings for an input; its directory is the base unless one is given. -/
def forInput (cwd : Names) (o : Options) (input : String) : Except Thrown Config :=
  ofOptions cwd
    { o with
      baseDirectory := o.baseDirectory.orElse (.text (Path.render (directoryOf cwd input))) }

end Config
end Inliner
