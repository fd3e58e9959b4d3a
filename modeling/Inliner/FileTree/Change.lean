import Inliner.FileTree.Lookup

/-! Making directories and writing files. A failed write changes nothing; a failed `makeDirectories`
may leave the directories made before the obstacle. -/
namespace Inliner.FileTree

/-- Where a new directory of the given path would stand: in a directory that is there already, under
a name that nothing has. -/
def newPlace (t : FileTree) (cwd : Names) (path : String) : Except Errno Names :=
  if path = "" then .error .missing
  else if pathTooLong path then .error .nameTooLong
  else
    match (Path.segments path).reverse.dropWhile (· == "") with
    | [] => .error .exists
    | name :: above =>
      match locateWithin t false linkLimit (origin cwd path) (above.reverse ++ ["."]) with
      | .error e => .error e
      | .ok (.vacant _) => .error .missing
      | .ok (.found p) =>
        if name = "." ∨ name = ".." then .error .exists
        else if tooLong name then .error .nameTooLong
        else if (t.get? (p ++ [name])).isSome then .error .exists
        else .ok (p ++ [name])

structure Obstacle where
  errno : Errno
  path : String
  deriving DecidableEq, Repr

/-- What a failure to make `path` comes to. A directory that is there already is as good as a new
one. `inner` tells that directories below it are still to be made, for which anything else that is
there is no directory. -/
def settle (t : FileTree) (cwd : Names) (inner : Bool) (path : String) (e : Errno) :
    Except Obstacle Unit :=
  if e = .notDirectory then .error ⟨e, path⟩
  else
    match t.stat cwd path with
    | .ok (_, .directory) => .ok ()
    | .ok _ => .error ⟨if inner ∧ e = .exists then .notDirectory else .exists, path⟩
    | .error s => .error ⟨if inner ∧ e = .exists then .notDirectory else s, path⟩

/-- Make the directory whose path has the given segments, innermost first, and before it the one
above if that is missing. -/
def makeDirectories (t : FileTree) (cwd : Names) (inner : Bool) : (segments : List String) →
    Except Obstacle Unit × FileTree
  | [] => (.ok (), t)
  | s :: above =>
    let path := "/".intercalate (s :: above).reverse
    match t.newPlace cwd path with
    | .ok p => (.ok (), t.set p .directory)
    | .error e =>
      if e = .missing ∧ above ≠ [] then
        match makeDirectories t cwd true above with
        | (.error o, t') => (.error o, t')
        | (.ok (), t') =>
          match t'.newPlace cwd path with
          | .ok p => (.ok (), t'.set p .directory)
          | .error e => (t'.settle cwd inner path e, t')
      else (t.settle cwd inner path e, t)

def makeDirectory (t : FileTree) (cwd : Names) (path : String) : Except Thrown Unit × FileTree :=
  match makeDirectories t cwd false (Path.segments path).reverse with
  | (.ok (), t') => (.ok (), t')
  | (.error o, t') => (.error (o.errno.inCall "mkdir" (some o.path)), t')

def write (t : FileTree) (cwd : Names) (path : String) (content : Text.Bytes) :
    Except Thrown FileTree :=
  let refuse (e : Errno) : Except Thrown FileTree := .error (e.inCall "open" (some path))
  match t.locate true cwd path with
  | .error e => refuse e
  | .ok (.vacant p) => .ok (t.set p (.file content))
  | .ok (.found p) =>
    match t.get? p with
    | some (.file _) => .ok (t.set p (.file content))
    | _ => refuse .isDirectory

/-- Put an entry at `path` and make the directories above it. What cannot be put is left out. -/
def plant (t : FileTree) (path : Names) (e : Entry) : FileTree :=
  let t' := (t.makeDirectory [] (Path.render path.dropLast)).2
  match e with
  | .directory => (t'.makeDirectory [] (Path.render path)).2
  | .file content =>
    match t'.write [] (Path.render path) content with
    | .ok t'' => t''
    | .error _ => t'
  | .link target =>
    match t'.stat [] (Path.render path.dropLast), path.getLast? with
    | .ok (parent, .directory), some name =>
      let here := parent ++ [name]
      (t'.erase here).set here (.link target)
    | _, _ => t'

def remove (t : FileTree) (cwd : Names) (path : String) : FileTree :=
  let names := Path.resolve cwd path
  match t.stat [] (Path.render names.dropLast), names.getLast? with
  | .ok (parent, _), some name => t.erase (parent ++ [name])
  | _, _ => t

/-- Make `path` a directory to work in: its names once links are followed, and the tree with it. -/
def workIn (t : FileTree) (path : String) : Names × FileTree :=
  let t' := (t.makeDirectory [] path).2
  match t'.stat [] path with
  | .ok (names, _) => (names, t')
  | .error _ => (Path.resolve [] path, t')

end Inliner.FileTree
