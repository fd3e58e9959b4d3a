import Inliner.Log
import Inliner.Path
import Inliner.Text.Shown

/-! The surroundings of a run as a record of operations over a monad. Expansion uses only `Host`;
a command also needs the operations of `Workspace`, which look at the input and write the output. -/
namespace Inliner

/-- The calls that resolving and expanding make. Each of them may raise anything. -/
structure Host (m : Type → Type) where
  cwd : Names
  log : Log.Record → m Unit
  logs : Log.Level → m Bool
  /-- The path with every link and dot segment resolved. -/
  realpath : String → ExceptT Thrown m String
  isFile : String → ExceptT Thrown m Bool
  assertReadable : String → ExceptT Thrown m Unit
  read : String → ExceptT Thrown m String

structure Workspace (m : Type → Type) extends Host m where
  /-- Fails if nothing is there. -/
  probe : String → ExceptT Thrown m Unit
  probeFile : String → ExceptT Thrown m Bool
  makeDirectory : String → ExceptT Thrown m Unit
  load : String → ExceptT Thrown m Text.Bytes
  store : String → Text.Bytes → ExceptT Thrown m Unit

section carried

variable {m n : Type → Type} (carry : {α : Type} → m α → n α)

def Host.carried (h : Host m) : Host n where
  cwd := h.cwd
  log r := carry (h.log r)
  logs level := carry (h.logs level)
  realpath path := ExceptT.mk (carry (h.realpath path).run)
  isFile path := ExceptT.mk (carry (h.isFile path).run)
  assertReadable path := ExceptT.mk (carry (h.assertReadable path).run)
  read path := ExceptT.mk (carry (h.read path).run)

def Workspace.carried (w : Workspace m) : Workspace n where
  toHost := w.toHost.carried carry
  probe path := ExceptT.mk (carry (w.probe path).run)
  probeFile path := ExceptT.mk (carry (w.probeFile path).run)
  makeDirectory path := ExceptT.mk (carry (w.makeDirectory path).run)
  load path := ExceptT.mk (carry (w.load path).run)
  store path content := ExceptT.mk (carry (w.store path content).run)

end carried

/-- A run waits for ever for the canonical path of `path`. -/
structure Hang where
  path : String
  deriving DecidableEq, Repr

variable {m : Type → Type} [Monad m] {α : Type}

/-- Nothing comes after a call of `realpath` that gives no answer, as `endless` tells of it. -/
def Host.awaiting (h : Host m) (endless : String → m Bool) : Host (ExceptT Hang m) :=
  { h.carried ExceptT.lift with
    realpath := fun path => ExceptT.mk do
      if ← ExceptT.lift (endless path) then throw (Hang.mk path)
      else ExceptT.lift (h.realpath path).run }

def Workspace.awaiting (w : Workspace m) (endless : String → m Bool) :
    Workspace (ExceptT Hang m) :=
  { w.carried ExceptT.lift with toHost := w.toHost.awaiting endless }

/-- Failures of `call` are told as failures on `path`. -/
def onPath (path : String) (location : Option Location) (call : ExceptT Thrown m α) :
    ExceptT Thrown m α :=
  tryCatch call fun t => throw (.failure (t.onPath path location))

namespace Host

def canonicalize (h : Host m) (path : String) (location : Option Location) :
    ExceptT Thrown m String :=
  onPath path location (h.realpath path)

def readSource (h : Host m) (path : String) (location : Option Location) :
    ExceptT Thrown m String :=
  onPath path location (h.read path)

end Host

namespace Workspace

def exists? (w : Workspace m) (path : String) : m Bool := do
  match ← (w.probe path).run with
  | .ok () => pure true
  | .error _ => pure false

def isRegularFile (w : Workspace m) (path : String) : m Bool := do
  match ← (w.probeFile path).run with
  | .ok b => pure b
  | .error _ => pure false

def ensureDirectory (w : Workspace m) (path : String) : ExceptT Thrown m Unit := do
  onPath path none (w.makeDirectory path)
  w.log (.debug ("Directory located or created: " ++ path))

def readText (w : Workspace m) (path : String) (encoding : Text.Encoding) :
    ExceptT Thrown m String := do
  let bytes ← onPath path none (w.load path)
  pure (encoding.decode bytes)

def writeText (w : Workspace m) (path content : String) (encoding : Text.Encoding) :
    ExceptT Thrown m Unit := do
  w.ensureDirectory (Path.parent path)
  onPath path none (w.store path (encoding.encode content))
  w.log (.debug ("Wrote file: " ++ path))

def unknownEncoding (name : String) : Thrown :=
  .error
    { name := "TypeError"
      message := "The argument 'encoding' is invalid encoding. Received " ++ Text.shown name
      code := .text "ERR_INVALID_ARG_VALUE" }

def readTextAs (w : Workspace m) (path name : String) : ExceptT Thrown m String :=
  match Text.Encoding.ofName? name with
  | some encoding => w.readText path encoding
  | none => onPath path none (throw (unknownEncoding name))

def writeTextAs (w : Workspace m) (path content name : String) : ExceptT Thrown m Unit :=
  match Text.Encoding.ofName? name with
  | some encoding => w.writeText path content encoding
  | none => do
    w.ensureDirectory (Path.parent path)
    onPath path none (throw (unknownEncoding name))

end Workspace
end Inliner
