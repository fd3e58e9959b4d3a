import Inliner.Directive
import Inliner.Value

/-! What a run can end with. A failure is a problem of the domain with the chain of what caused it;
anything else that surroundings raise is a plain error or a bare value. -/
namespace Inliner

inductive Complaint where
  | depth (given : Value)
  | emptyBase
  | unparsable (file reason : String)
  | notMapping (file : String)
  | debugKind (file : String) (given : Value)
  | depthKind (file : String) (given : Value)
  | baseKind (file : String) (given : Value)
  | missing (given resolved : String)
  | stated (message : String) (details : Option Fields)
  deriving Repr, Inhabited

/-- The ways in which expansion fails. -/
inductive Problem where
  | invalidDirective (text : String) (location : Location)
  | notFound (path : String) (location : Option Location)
  | denied (path : String) (location : Option Location)
  /-- `chain` is the open files, outermost first, and then the one that is open already. -/
  | circular (chain : List String) (location : Option Location)
  | tooDeep (path : String) (limit : Value) (location : Option Location)
  | io (path : String) (location : Option Location)
  | settings (complaint : Complaint)
  | other (message : String) (code : Value) (details : Option Fields)
  deriving Repr, Inhabited

/-- One link of a chain of causes. -/
inductive Cause where
  | error (name message : String)
  | value (v : Value)
  deriving Repr, Inhabited

/-- A problem with its circumstances. -/
structure Failure where
  problem : Problem
  causes : List Cause := []
  /-- The files open when it arose, outermost first. -/
  includeStack : Option (List String) := none
  /-- A code that takes the place of the problem's own. -/
  codeMark : Option Value := none
  trace : Option String := none
  deriving Repr, Inhabited

structure PlainError where
  name : String := "Error"
  message : String
  code : Value := .absent
  causes : List Cause := []
  trace : Option String := none
  deriving Repr, Inhabited

/-- Anything a computation can be ended by. -/
inductive Thrown where
  | failure (f : Failure)
  | error (e : PlainError)
  | value (v : Value)
  deriving Repr, Inhabited

inductive Code where
  | invalidDirective | notFound | denied | circular | tooDeep | io | settings
  deriving DecidableEq, Repr

namespace Code

def all : List Code := [.invalidDirective, .notFound, .denied, .circular, .tooDeep, .io, .settings]

def text : Code → String
  | .invalidDirective => "INVALID_INCLUDE_DIRECTIVE"
  | .notFound => "FILE_NOT_FOUND"
  | .denied => "PERMISSION_DENIED"
  | .circular => "CIRCULAR_DEPENDENCY"
  | .tooDeep => "MAX_DEPTH_EXCEEDED"
  | .io => "IO_ERROR"
  | .settings => "CONFIG_ERROR"

end Code

namespace Location

def fields (l : Location) : Fields :=
  [("sourceFile", .text l.sourceFile), ("lineNumber", .number l.lineNumber)]

def text (l : Location) : String := l.sourceFile ++ ":" ++ l.lineNumber.text

def remark : Option Location → String
  | none => ""
  | some l => " (included from " ++ l.text ++ ")"

def optionalFields : Option Location → Fields
  | none => []
  | some l => l.fields

end Location

def chainSeparator : String := " -> "

def chainText (chain : List String) : String := chainSeparator.intercalate chain

namespace Complaint

def message : Complaint → String
  | .depth given => "Max include depth must be a positive integer, got " ++ given.toText
  | .emptyBase => "Base directory must not be empty"
  | .unparsable file reason => "Failed to parse " ++ file ++ ": " ++ reason
  | .notMapping file => file ++ " must contain a mapping"
  | .debugKind file _ => file ++ ": 'debug' must be a boolean"
  | .depthKind file _ => file ++ ": 'maxDepth' must be a positive integer"
  | .baseKind file _ => file ++ ": 'baseDirectory' must be a non-empty string"
  | .missing given _ => "Config file not found: " ++ given
  | .stated message _ => message

def details : Complaint → Option Fields
  | .depth given => some [("maxIncludeDepth", given)]
  | .emptyBase => none
  | .unparsable file _ => some [("filePath", .text file)]
  | .notMapping file => some [("filePath", .text file)]
  | .debugKind file given => some [("filePath", .text file), ("debug", given)]
  | .depthKind file given => some [("filePath", .text file), ("maxDepth", given)]
  | .baseKind file given => some [("filePath", .text file), ("baseDirectory", given)]
  | .missing _ resolved => some [("configPath", .text resolved)]
  | .stated _ details => details

end Complaint

namespace Cause

def message : Cause → String
  | .error _ message => message
  | .value v => v.toText

end Cause

namespace Problem

def name : Problem → String
  | .invalidDirective .. => "InvalidIncludeDirectiveError"
  | .notFound .. => "FileNotFoundError"
  | .denied .. => "PermissionDeniedError"
  | .circular .. => "CircularDependencyError"
  | .tooDeep .. => "MaxDepthExceededError"
  | .io .. => "IncludeIoError"
  | .settings .. => "ConfigError"
  | .other .. => "PreprocessorError"

def code : Problem → Value
  | .invalidDirective .. => .text Code.invalidDirective.text
  | .notFound .. => .text Code.notFound.text
  | .denied .. => .text Code.denied.text
  | .circular .. => .text Code.circular.text
  | .tooDeep .. => .text Code.tooDeep.text
  | .io .. => .text Code.io.text
  | .settings .. => .text Code.settings.text
  | .other _ code _ => code

def location? : Problem → Option Location
  | .invalidDirective _ l => some l
  | .notFound _ l | .denied _ l | .circular _ l | .tooDeep _ _ l | .io _ l => l
  | .settings _ | .other .. => none

/-- An input or output problem is told in the words of its cause. -/
def message (causes : List Cause) : Problem → String
  | .invalidDirective text l => "Invalid include directive at " ++ l.text ++ ": " ++ text
  | .notFound path l => "File not found: " ++ path ++ Location.remark l
  | .denied path l => "Permission denied: " ++ path ++ Location.remark l
  | .circular chain l => "Circular dependency detected: " ++ chainText chain ++ Location.remark l
  | .tooDeep path limit l =>
    "Maximum include depth (" ++ limit.toText ++ ") exceeded at: " ++ path ++ Location.remark l
  | .io path l =>
    "IO error on " ++ path ++ Location.remark l ++ ": " ++
      ((causes.head?.map Cause.message).getD "undefined")
  | .settings complaint => complaint.message
  | .other message _ _ => message

def details : Problem → Option Fields
  | .invalidDirective text l => some (("directive", .text text) :: l.fields)
  | .notFound path l | .denied path l | .io path l =>
    some (("path", .text path) :: Location.optionalFields l)
  | .circular chain l => some (("chain", Value.texts chain) :: Location.optionalFields l)
  | .tooDeep path limit l =>
    some (("path", .text path) :: ("maxDepth", limit) :: Location.optionalFields l)
  | .settings complaint => complaint.details
  | .other _ _ details => details

end Problem

namespace Failure

def name (f : Failure) : String := f.problem.name

def message (f : Failure) : String := f.problem.message f.causes

def code (f : Failure) : Value := f.codeMark.getD f.problem.code

def details (f : Failure) : Option Fields := f.problem.details

def attach (f : Failure) (stack : List String) : Failure :=
  match f.includeStack with
  | none => { f with includeStack := some stack }
  | some _ => f

@[simp] theorem attach_problem (f : Failure) (stack : List String) :
    (f.attach stack).problem = f.problem := by
  unfold attach; split <;> rfl

@[simp] theorem attach_attach (f : Failure) (a b : List String) :
    (f.attach a).attach b = f.attach a := by
  unfold attach; cases h : f.includeStack <;> simp [h]

end Failure

namespace Thrown

def ofProblem (p : Problem) : Thrown := .failure { problem := p }

def chain : Thrown → List Cause
  | .failure f => .error f.name f.message :: f.causes
  | .error e => .error e.name e.message :: e.causes
  | .value v => [.value v]

def attach (stack : List String) : Thrown → Thrown
  | .failure f => .failure (f.attach stack)
  | t => t

end Thrown

/-- The problem that a system call's failure on `path` makes, by the code of the failure. -/
def Problem.ofCode (code : Value) (path : String) (location : Option Location) : Problem :=
  match code with
  | .text "ENOENT" | .text "ENOTDIR" => .notFound path location
  | .text "EACCES" | .text "EPERM" => .denied path location
  | _ => .io path location

/-- What a failed system call on `path` means for expansion. A failure passes as it is. -/
def Thrown.onPath (t : Thrown) (path : String) (location : Option Location) : Failure :=
  match t with
  | .failure f => f
  | .error e => { problem := .ofCode e.code path location, causes := t.chain }
  | .value .absent => { problem := .io path location }
  | .value _ => { problem := .io path location, causes := t.chain }

def Thrown.report : Thrown → String
  | .value v => "Error: " ++ v.toText
  | .error e => "\n".intercalate (("Error: " ++ e.message) :: causeLines e.causes)
  | .failure f =>
    let stack := match f.includeStack with
      | some (p :: ps) => ["  Include stack: " ++ chainText (p :: ps)]
      | _ => []
    "\n".intercalate (("Error: " ++ f.message) :: stack ++ causeLines f.causes)
where
  causeLines (causes : List Cause) : List String :=
    causes.map fun c => "  Caused by: " ++ c.message

end Inliner
