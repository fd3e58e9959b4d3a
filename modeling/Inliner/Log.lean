import Inliner.Failure

/-! Diagnostic log lines. A record is written when its level reaches the threshold that the
environment picks; what is attached to it follows the message. -/
namespace Inliner.Log

inductive Level where
  | debug | info | warn | error
  deriving DecidableEq, Repr, Inhabited

namespace Level

def all : List Level := [.debug, .info, .warn, .error]

def name : Level → String
  | .debug => "debug"
  | .info => "info"
  | .warn => "warn"
  | .error => "error"

def ofName? (name : String) : Option Level := all.find? (·.name == name)

def severity : Level → Nat
  | .debug => 0
  | .info => 1
  | .warn => 2
  | .error => 3

/-- Without a threshold nothing is written. -/
def enabledAt (threshold : Option Level) (level : Level) : Bool :=
  threshold.any fun t => t.severity ≤ level.severity

end Level

def verboseVariable : String := "SHPP_VERBOSE"

def modeVariable : String := "NODE_ENV"

/-- Tracing is asked for by name, a development environment adds information, and otherwise only
errors are written. -/
def thresholdOf (environment : String → Option String) : Level :=
  if environment verboseVariable = some "1" then .debug
  else if environment modeVariable = some "development" then .info
  else .error

structure Record where
  level : Level
  message : String
  attachment : Thrown := .value .absent
  deriving Repr, Inhabited

/-- An error stands on lines of its own, with its trace if it has one; a list or record is
written as JSON, any other value as plain text. -/
def attachmentText : Thrown → String
  | .failure f => "\n" ++ f.trace.getD (f.name ++ ": " ++ f.message)
  | .error e => "\n" ++ e.trace.getD (e.name ++ ": " ++ e.message)
  | .value v =>
    match v with
    | .absent => ""
    | .list _ | .record _ | .instant _ | .bytes _ => " " ++ v.toJson
    | _ => " " ++ v.toText

def Record.line (r : Record) : String :=
  "shpp " ++ r.level.name ++ ": " ++ r.message ++ attachmentText r.attachment

/-- Whether what is attached contains itself, so that the record cannot be written. -/
def Record.isEndless (r : Record) : Bool :=
  match r.attachment with
  | .value v => v.isEndless
  | _ => false

def endlessError : Thrown :=
  .error { name := "TypeError", message := "Converting circular structure to JSON" }

def Record.withFields (level : Level) (message : String) (fields : Fields) : Record :=
  ⟨level, message, .value (.record fields)⟩

def Record.debug (message : String) : Record := ⟨.debug, message, .value .absent⟩

def Record.info (message : String) : Record := ⟨.info, message, .value .absent⟩

def recordOf : Thrown → Record
  | .failure f =>
    .withFields .debug f.message
      [("code", f.code),
        ("details", (f.details.map Value.record).getD .absent),
        ("includeStack", (f.includeStack.map Value.texts).getD .absent)]
  | .error e =>
    .withFields .debug "Unexpected error occurred"
      [("message", .text e.message), ("stack", Value.ofOptionText e.trace)]
  | .value v => .withFields .debug "Unknown error occurred" [("error", v)]

def summary : Thrown → String
  | .value _ => "An unknown error occurred"
  | t => t.report

end Inliner.Log
