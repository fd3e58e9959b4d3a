import Inliner.Failure

/-! Directives of a text with their line numbers, counted from one. -/
namespace Inliner.Directive

def parseLine (line : String) (lineNumber : Number) (sourceFile : String) :
    Except Thrown (Option Directive) :=
  match readLine line with
  | .plain => .ok none
  | .includes path style => .ok (some ⟨lineNumber, path, style, sourceFile⟩)
  | .malformed text => .error (.ofProblem (.invalidDirective text ⟨sourceFile, lineNumber⟩))

def scanLines (sourceFile : String) : (number : Nat) → (lines : List String) →
    Except Thrown (List Directive)
  | _, [] => .ok []
  | number, line :: rest => do
    let here ← parseLine line (.count number) sourceFile
    let more ← scanLines sourceFile (number + 1) rest
    pure (here.toList ++ more)

/-- Every directive of a text, or the error of its first malformed line. -/
def scan (content sourceFile : String) : Except Thrown (List Directive) :=
  scanLines sourceFile 1 (Text.splitLines content)

end Inliner.Directive
