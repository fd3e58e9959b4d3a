/-! Paths as written and absolute paths as lists of names. Joining and resolving work on names:
empty ones and `.` are dropped and `..` removes the name before it, never the root. -/
namespace Inliner

/-- The names of an absolute path from the root down. -/
abbrev Names := List String

namespace Path

def segments (path : String) : List String := (path.toList.splitOn '/').map String.ofList

/-- Walk down `segments` from the directory whose names, innermost first, are `above`. -/
def walk (above : List String) : (segments : List String) → List String
  | [] => above
  | s :: rest =>
    if s = "" ∨ s = "." then walk above rest
    else if s = ".." then walk above.tail rest
    else walk (s :: above) rest

def isAbsolute (path : String) : Bool := path.toList.head? == some '/'

def endsInSlash (path : String) : Bool := path.toList.getLast? == some '/'

def resolve (base : Names) (path : String) : Names :=
  (walk (if isAbsolute path then [] else base.reverse) (segments path)).reverse

def render (names : Names) : String := "/" ++ "/".intercalate names

/-- As `walk`, for a path that starts nowhere in particular: a `..` with nothing before it stays. -/
def walkLoose (above : List String) : (segments : List String) → List String
  | [] => above
  | s :: rest =>
    if s = "" ∨ s = "." then walkLoose above rest
    else if s = ".." ∧ above.head?.any (· != "..") then walkLoose above.tail rest
    else walkLoose (s :: above) rest

def normalize (path : String) : String :=
  let slash := if endsInSlash path then "/" else ""
  if isAbsolute path then
    match walk [] (segments path) with
    | [] => "/"
    | names => render names.reverse ++ slash
  else
    match walkLoose [] (segments path) with
    | [] => "." ++ slash
    | names => "/".intercalate names.reverse ++ slash

/-- `path` read below `base`, also when it begins with a slash. -/
def join (base path : String) : String :=
  if base = "" then normalize path else normalize (base ++ "/" ++ path)

/-- The part of a path before its last name, as written. -/
def parent (path : String) : String :=
  match path.toList with
  | [] => "."
  | first :: rest =>
    let upToName := (rest.reverse.dropWhile (· == '/')).dropWhile (· != '/')
    match upToName with
    | [] => if first = '/' then "/" else "."
    | _ :: before =>
      if first = '/' ∧ before = [] then "//" else String.ofList (first :: before.reverse)

/-- The steps that lead from one directory to another path: up to the last common one, then
down. -/
def relative : (start target : Names) → Names
  | [], target => target
  | start, [] => start.map fun _ => ".."
  | s :: ss, t :: ts =>
    if s = t then relative ss ts else (s :: ss).map (fun _ => "..") ++ t :: ts

def isWithinRoot (cwd : Names) (root candidate : String) : Bool :=
  (relative (resolve cwd root) (resolve cwd candidate)).head? != some ".."

@[simp] theorem walk_nil (above : List String) : walk above [] = above := rfl

@[simp] theorem relative_nil (target : Names) : relative [] target = target := by
  cases target <;> rfl

end Path
end Inliner
