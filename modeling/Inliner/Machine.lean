import Inliner.Console
import Inliner.FileTree.Change
import Inliner.Host

/-! A workspace held in memory: a file tree, the faults that are set to happen, and all that was
written so far. -/
namespace Inliner

/-- The calls that can be made to fail. Those of a command are apart from those of expansion. -/
inductive Call where
  | realpath | isFile | assertReadable | read
  | probe | probeFile | makeDirectory | load | store
  deriving DecidableEq, Repr, Inhabited

/-- A call on a path that raises `error` instead of being made, as often as `times` says. -/
structure Fault where
  call : Call
  path : String
  error : Thrown
  times : Option Nat
  deriving Repr, Inhabited

namespace Fault

def matchesCall (f : Fault) (call : Call) (path : String) : Bool :=
  decide (f.call = call ∧ f.path = path) && f.times != some 0

def used (f : Fault) : Fault := { f with times := f.times.map (· - 1) }

def take? (call : Call) (path : String) : List Fault → Option (Thrown × List Fault)
  | [] => none
  | f :: rest =>
    if f.matchesCall call path then some (f.error, f.used :: rest)
    else (take? call path rest).map fun (e, fs) => (e, f :: fs)

end Fault

structure Machine where
  tree : FileTree := {}
  faults : List Fault := []
  threshold : Option Log.Level := some .error
  out : String := ""
  err : String := ""
  messages : List Message := []
  deriving Repr, Inhabited

namespace Machine

abbrev Run := StateM Machine

def log (r : Log.Record) : Run Unit := modify fun s =>
  if r.level.enabledAt s.threshold then { s with err := s.err ++ r.line ++ "\n" } else s

def logs (level : Log.Level) : Run Bool := do pure (level.enabledAt (← get).threshold)

def record (message : Message) : Run Unit :=
  modify fun s => { s with messages := s.messages ++ [message] }

def say (interactive : Bool) (message : Message) : Run Unit := modify fun s =>
  if interactive then { s with out := s.out ++ Console.framed message }
  else { s with err := s.err ++ Console.plain message }

/-- Make a call on a path unless a fault is due; no call gets a path with a NUL. -/
def guarded {α : Type} (cwd : Names) (call : Call) (path : String)
    (action : FileTree → Except Thrown α × FileTree) : ExceptT Thrown Run α :=
  ExceptT.mk fun s =>
    match Fault.take? call (Path.render (Path.resolve cwd path)) s.faults with
    | some (e, faults) => (.error e, { s with faults })
    | none =>
      if path.toList.contains (Char.ofNat 0) then (.error (nulError path), s)
      else
        let (r, tree) := action s.tree
        (r, { s with tree })

def reading {α : Type} (cwd : Names) (call : Call) (path : String)
    (action : FileTree → Except Thrown α) : ExceptT Thrown Run α :=
  guarded cwd call path fun t => (action t, t)

def statIn (cwd : Names) (call path : String) (t : FileTree) : Except Thrown Entry :=
  match t.stat cwd path with
  | .ok (_, e) => .ok e
  | .error e => .error (e.inCall call (some path))

def isFileIn (cwd : Names) (path : String) (t : FileTree) : Except Thrown Bool :=
  (statIn cwd "stat" path t).map fun
    | .file _ => true
    | _ => false

def accessIn (cwd : Names) (path : String) (t : FileTree) : Except Thrown Unit :=
  (statIn cwd "access" path t).map fun _ => ()

/-- The error of a stop. An endless search raises none; what stands for it is never seen by a run
that waits for its calls (`Host.awaiting`). -/
def thrownBy : FileTree.Stop → Thrown
  | .failed errno call path => errno.inCall call (some (Path.render path))
  | .endless => .error { message := "no answer" }

def realpathIn (cwd : Names) (path : String) (t : FileTree) : Except Thrown String :=
  match t.realpath cwd path with
  | .ok names => .ok (Path.render names)
  | .error stop => .error (thrownBy stop)

def host (cwd : Names) : Host Run where
  cwd := cwd
  log := log
  logs := logs
  realpath path := reading cwd .realpath path (realpathIn cwd path)
  isFile path := reading cwd .isFile path (isFileIn cwd path)
  assertReadable path := reading cwd .assertReadable path (accessIn cwd path)
  read path := reading cwd .read path fun t => (t.read cwd path).map Text.decodeUtf8

/-- Whether `realpath` is made on `path` and gives no answer. -/
def endlessAt (cwd : Names) (path : String) : Run Bool := fun s =>
  ((Fault.take? .realpath (Path.render (Path.resolve cwd path)) s.faults).isNone &&
    !path.toList.contains (Char.ofNat 0) && s.tree.isEndless cwd path, s)

def workspace (cwd : Names) : Workspace Run where
  toHost := host cwd
  probe path := reading cwd .probe path (accessIn cwd path)
  probeFile path := reading cwd .probeFile path (isFileIn cwd path)
  makeDirectory path := guarded cwd .makeDirectory path fun t => t.makeDirectory cwd path
  load path := reading cwd .load path fun t => t.read cwd path
  store path content := guarded cwd .store path fun t =>
    match t.write cwd path content with
    | .ok t' => (.ok (), t')
    | .error e => (.error e, t)

def start (cwd : Names) (threshold : Log.Level) : Machine :=
  { tree := FileTree.plant {} cwd .directory, threshold := some threshold }

end Machine
end Inliner
