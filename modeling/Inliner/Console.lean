/-! Messages to the user. On a terminal they are framed and go to standard output; otherwise they
are plain and go to the error stream, so that standard output stays clean. -/
namespace Inliner

inductive Tone where
  | info | success | warn | error
  deriving DecidableEq, Repr, Inhabited

structure Message where
  tone : Tone
  text : String
  deriving DecidableEq, Repr, Inhabited

namespace Console

/-- A session is interactive if it is said to be, or else if the error stream is a terminal outside
continuous integration. -/
def isInteractive (stated : Option Bool) (terminal : Bool) (ci : Option String) : Bool :=
  stated.getD (terminal && ci != some "true")

def symbol : Tone → String
  | .info => "●"
  | .success => "◆"
  | .warn => "▲"
  | .error => "■"

def framed (m : Message) : String :=
  let body :=
    if m.text = "" then []
    else match (m.text.toList.splitOn '\n').map String.ofList with
      | [] => []
      | first :: rest =>
        (symbol m.tone ++ "  " ++ first ++ "\n") :: rest.map fun l => "│  " ++ l ++ "\n"
  "│\n" ++ String.join body

def plain (m : Message) : String :=
  let mark := match m.tone with
    | .success => "✓ "
    | .warn => "⚠️  "
    | _ => ""
  mark ++ m.text ++ "\n"

end Console
end Inliner
