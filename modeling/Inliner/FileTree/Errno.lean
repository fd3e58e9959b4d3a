import Inliner.Failure
import Inliner.Text.Shown

/-! Failures of system calls and their wording. -/
namespace Inliner

inductive Errno where
  | missing | notDirectory | isDirectory | linkLoop | nameTooLong | exists
  deriving DecidableEq, Repr

namespace Errno

def code : Errno → String
  | .missing => "ENOENT"
  | .notDirectory => "ENOTDIR"
  | .isDirectory => "EISDIR"
  | .linkLoop => "ELOOP"
  | .nameTooLong => "ENAMETOOLONG"
  | .exists => "EEXIST"

def wording : Errno → String
  | .missing => "no such file or directory"
  | .notDirectory => "not a directory"
  | .isDirectory => "illegal operation on a directory"
  | .linkLoop => "too many symbolic links encountered"
  | .nameTooLong => "name too long"
  | .exists => "file already exists"

def inCall (e : Errno) (call : String) (path : Option String) : Thrown :=
  let place := match path with
    | some p => " '" ++ p ++ "'"
    | none => ""
  .error
    { message := e.code ++ ": " ++ e.wording ++ ", " ++ call ++ place, code := .text e.code }

end Errno

/-- A path that holds a NUL reaches no system call. -/
def nulError (path : String) : Thrown :=
  .error
    { name := "TypeError"
      message := "The argument 'path' must be a string, Uint8Array, or URL without null bytes. " ++
        "Received " ++ Text.shown path
      code := .text "ERR_INVALID_ARG_VALUE" }

end Inliner
