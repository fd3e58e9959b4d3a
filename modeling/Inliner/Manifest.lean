import Inliner.Json

/-! The version of the program, from the nearest manifest that is its own. -/
namespace Inliner.Manifest

def packageName : String := "shpp"

def ownVersion : String := "0.1.0"

def unknownVersion : String := "0.0.0"

def version? : Value → Option String
  | .record fields =>
    match Fields.get? fields "name", Fields.get? fields "version" with
    | some (.text name), some (.text version) =>
      if name = packageName then some version else none
    | _, _ => none
  | _ => none

/-- Look through the manifests from the nearest directory up; `none` stands for a directory without
one. A manifest that is no JSON ends the search without an answer. -/
def findVersion : List (Option String) → Option String
  | [] => some unknownVersion
  | none :: above => findVersion above
  | some text :: above => do
    let v ← Json.parse? text
    match version? v with
    | some version => some version
    | none => findVersion above

end Inliner.Manifest
