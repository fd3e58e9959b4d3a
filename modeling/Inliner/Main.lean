import Inliner.Command
import Inliner.Yaml.Document

/-! The program on the real file system. Every decision is made by `Command.dispatch`; here calls
are made and texts are written. -/
namespace Inliner.Program

def thrownOf (e : IO.Error) : Thrown :=
  let code := match e with
    | .noFileOrDirectory .. => "ENOENT"
    | .permissionDenied .. => "EACCES"
    | .alreadyExists .. => "EEXIST"
    | .resourceExhausted .. => "EMFILE"
    | .inappropriateType .. => "EISDIR"
    | _ => "EIO"
  .error { message := code ++ ": " ++ e.toString, code := .text code }

def attempt {α : Type} (action : IO α) : ExceptT Thrown IO α :=
  ExceptT.mk do
    match ← action.toBaseIO with
    | .ok a => pure (.ok a)
    | .error e => pure (.error (thrownOf e))

def bytesOf (content : ByteArray) : Text.Bytes := content.toList

/-- A path that can be opened and read as a file is one. -/
def isFileAt (path : String) : IO Bool := do
  let canonical ← IO.FS.realPath path
  match ← (IO.FS.readBinFile canonical).toBaseIO with
  | .ok _ => pure true
  | .error _ => pure false

def openAt (path : String) : IO Unit := do
  let _ ← IO.FS.Handle.mk path .read

def workspace (cwd : Names) (threshold : Log.Level) : Workspace IO where
  cwd := cwd
  logs level := pure (level.enabledAt (some threshold))
  log r := if r.level.enabledAt (some threshold) then IO.eprintln r.line else pure ()
  realpath path := attempt do pure (← IO.FS.realPath path).toString
  isFile path := attempt (isFileAt path)
  assertReadable path := attempt (openAt path)
  read path := attempt do pure (Text.decodeUtf8 (bytesOf (← IO.FS.readBinFile path)))
  probe path := attempt do
    let _ ← IO.FS.realPath path
  probeFile path := attempt (isFileAt path)
  makeDirectory path := attempt (IO.FS.createDirAll path)
  load path := attempt do pure (bytesOf (← IO.FS.readBinFile path))
  store path content := attempt (IO.FS.writeBinFile path (ByteArray.mk content.toArray))

def tell (interactive : Bool) (message : Message) : IO Unit :=
  if interactive then IO.print (Console.framed message) else IO.eprint (Console.plain message)

def run (args : List String) : IO UInt32 := do
  let cwd := Path.resolve [] (← IO.currentDir).toString
  let verbose ← IO.getEnv Log.verboseVariable
  let mode ← IO.getEnv Log.modeVariable
  let threshold := Log.thresholdOf fun name =>
    if name = Log.verboseVariable then verbose
    else if name = Log.modeVariable then mode
    else none
  let terminal ← (← IO.getStderr).isTty
  let interactive := Console.isInteractive none terminal (← IO.getEnv "CI")
  let ending ← Command.dispatch Yaml.load CommandLine.command (workspace cwd threshold)
    (tell interactive) args
  IO.print ending.out
  IO.eprint ending.err
  pure ending.exit.toUInt32

end Inliner.Program

def main (args : List String) : IO UInt32 := Inliner.Program.run args
