import Inliner.Host

/-! From the path of a directive to the canonical path of a readable file below the root. A path
that leaves the root, by its segments or through a link, is told as not found under the name it
was written with. -/
namespace Inliner

/-- A canonical directory that confines includes. -/
structure Resolver where
  root : String
  deriving DecidableEq, Repr, Inhabited

namespace Resolver

variable {m : Type → Type} [Monad m]

def ofBase (h : Host m) (base : String) : ExceptT Thrown m Resolver := do
  let root ← h.canonicalize (Path.render (Path.resolve h.cwd base)) none
  pure ⟨root⟩

/-- Where a directive points before any link is followed: absolute paths start at the root,
relative ones in the directory of their file. -/
def candidate (cwd : Names) (root : String) (d : Directive) : String :=
  if Path.isAbsolute d.rawPath then Path.join root d.rawPath
  else Path.render (Path.resolve (Path.resolve cwd (Path.parent d.sourceFile)) d.rawPath)

def escape (h : Host m) (r : Resolver) (d : Directive) (message : String) :
    ExceptT Thrown m String := do
  h.log (.withFields .debug (message ++ d.rawPath)
    (("root", .text r.root) :: d.location.fields))
  throw (.ofProblem (.notFound d.rawPath (some d.location)))

def resolve (h : Host m) (r : Resolver) (d : Directive) : ExceptT Thrown m String := do
  let candidate := candidate h.cwd r.root d
  if !Path.isWithinRoot h.cwd r.root candidate then
    escape h r d "Include escapes sandbox root: "
  else
    let canonical ← h.canonicalize candidate (some d.location)
    if !Path.isWithinRoot h.cwd r.root canonical then
      escape h r d "Include resolves outside sandbox root through a symlink: "
    else
      onPath candidate (some d.location) do
        if !(← h.isFile canonical) then
          throw (.ofProblem (.notFound candidate (some d.location)))
        h.assertReadable canonical
      h.log (.debug ("Resolved include " ++ d.rawPath ++ " -> " ++ canonical))
      pure canonical

end Resolver
end Inliner
