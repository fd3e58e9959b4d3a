import Inliner.FileTree
import Inliner.FileTree.Errno

/-! Finding what a path leads to. `locate` follows links the way the system does, at the moment it
meets them; `realpath` replaces a link by its target as text and starts over. -/
namespace Inliner.FileTree

/-- Where a path leads: to something, or to a free name in a directory. -/
inductive Spot where
  | found (path : Names)
  | vacant (path : Names)
  deriving DecidableEq, Repr

def nameLimit : Nat := 255

def tooLong (name : String) : Bool := nameLimit < name.utf8ByteSize

def pathLimit : Nat := 4096

def pathTooLong (path : String) : Bool := pathLimit ≤ path.utf8ByteSize

def onlySlashes (rest : List String) : Bool := !rest.isEmpty && rest.all (· == "")

/-- Walk down `segments` from `above`, the names of a place innermost first. `follow` goes on when
a link is met. Every segment, an empty one too, needs a directory to stand in. A walk that may make
a file (`creating`) refuses a last name with a slash after it before it looks what stands there. -/
def walk (t : FileTree) (creating : Bool) (follow : List String → List String → Except Errno Spot)
    (above : List String) : (segments : List String) → Except Errno Spot
  | [] => .ok (.found above.reverse)
  | s :: rest =>
    match t.get? above.reverse with
    | none => .error .missing
    | some .directory =>
      if s = "" ∨ s = "." then walk t creating follow above rest
      else if s = ".." then walk t creating follow above.tail rest
      else if creating && onlySlashes rest then .error .isDirectory
      else if tooLong s then .error .nameTooLong
      else
        match t.get? (s :: above).reverse with
        | none => if rest = [] then .ok (.vacant (s :: above).reverse) else .error .missing
        | some (.link target) =>
          follow (if Path.isAbsolute target then [] else above) (Path.segments target ++ rest)
        | some _ => walk t creating follow (s :: above) rest
    | some _ => .error .notDirectory

/-- Walk with at most `links` links followed. -/
def locateWithin (t : FileTree) (creating : Bool) : (links : Nat) →
    (above segments : List String) → Except Errno Spot
  | 0, above, segments => walk t creating (fun _ _ => .error .linkLoop) above segments
  | links + 1, above, segments => walk t creating (locateWithin t creating links) above segments

def linkLimit : Nat := 40

def origin (cwd : Names) (path : String) : List String :=
  if Path.isAbsolute path then [] else cwd.reverse

def locate (t : FileTree) (creating : Bool) (cwd : Names) (path : String) : Except Errno Spot :=
  if path = "" then .error .missing
  else if pathTooLong path then .error .nameTooLong
  else locateWithin t creating linkLimit (origin cwd path) (Path.segments path)

def stat (t : FileTree) (cwd : Names) (path : String) : Except Errno (Names × Entry) :=
  match t.locate false cwd path with
  | .error e => .error e
  | .ok (.vacant _) => .error .missing
  | .ok (.found p) =>
    match t.get? p with
    | some e => .ok (p, e)
    | none => .error .missing

inductive Stop where
  | failed (errno : Errno) (call : String) (path : Names)
  /-- Links lead on for ever, so that no answer comes. -/
  | endless
  deriving DecidableEq, Repr

/-- Go down `names` from `above`, which holds no links. `restart` takes over with a new path when a
link is met that leads somewhere. -/
def descend (t : FileTree) (restart : Names → Except Stop Names) (above : List String) :
    (names : Names) → Except Stop Names
  | [] => .ok above.reverse
  | n :: rest =>
    let here := (n :: above).reverse
    if pathTooLong (Path.render here) then .error (.failed .nameTooLong "lstat" here)
    else if !t.isDirectory above.reverse then .error (.failed .notDirectory "lstat" here)
    else if tooLong n then .error (.failed .nameTooLong "lstat" here)
    else
      match t.get? here with
      | none => .error (.failed .missing "lstat" here)
      | some (.link target) =>
        match t.stat [] (Path.render here) with
        | .error e => .error (.failed e "stat" here)
        | .ok _ => restart (Path.resolve above.reverse target ++ rest)
      | some _ => descend t restart (n :: above) rest

/-- Replace links by their targets, at most `restarts` times in all. -/
def realpathWithin (t : FileTree) : (restarts : Nat) → Names → Except Stop Names
  | 0, _ => .error .endless
  | restarts + 1, names => descend t (realpathWithin t restarts) [] names

def links (t : FileTree) : List (Names × String) :=
  t.entries.filterMap fun
    | (p, .link target) => some (p, target)
    | _ => none

/-- A bound for the names of a path that takes the place of a link. -/
def linkSpan (t : FileTree) : Nat :=
  t.links.foldr (fun l span => l.1.length + (Path.segments l.2).length + span) 0

/-- The restarts that one name can need, if `links` links can be replaced on account of it. -/
def restartsFor (t : FileTree) : (links : Nat) → Nat
  | 0 => 0
  | links + 1 => 1 + t.linkSpan * restartsFor t links

/-- The path without links and dot segments of what `path` leads to. A search that ends at all ends
within the restarts that are given to it here. -/
def realpath (t : FileTree) (cwd : Names) (path : String) : Except Stop Names :=
  let names := Path.resolve cwd path
  realpathWithin t (names.length * t.restartsFor t.links.length + 1) names

def isEndless (t : FileTree) (cwd : Names) (path : String) : Bool :=
  match t.realpath cwd path with
  | .error .endless => true
  | _ => false

def read (t : FileTree) (cwd : Names) (path : String) : Except Thrown Text.Bytes :=
  match t.stat cwd path with
  | .error e => .error (e.inCall "open" (some path))
  | .ok (_, .file content) => .ok content
  | .ok _ => .error (Errno.isDirectory.inCall "read" none)

end Inliner.FileTree
