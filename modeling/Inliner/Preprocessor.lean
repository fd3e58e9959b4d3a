import Inliner.Expansion
import Inliner.Settings

/-! A run on one input: its settings, a fresh ledger with the input open in it, and the expansion as
text. -/
namespace Inliner.Preprocessor

variable {m : Type → Type} [Monad m]

def expandInput (h : Host m) (c : Config) (r : Resolver) (input : String) :
    ExceptT Thrown m (List String) := do
  let body := Ledgered.withFile input none (Expansion.expand h r c.marks input)
  let (lines, _) ← (body.run { limit := .number c.maxIncludeDepth } : m _)
  match lines with
  | .ok lines => pure lines
  | .error e => throw e

/-- The text of `input` with every include reachable from it in place. -/
def process (h : Host m) (o : Options) (input : String) : ExceptT Thrown m String := do
  match Config.forInput h.cwd o input with
  | .error e => throw e
  | .ok c =>
    let input ← h.canonicalize (Path.render (Path.resolve h.cwd input)) none
    let r ← Resolver.ofBase h (Path.render c.baseDirectory)
    let lines ← expandInput h c r input
    h.log (.debug ("Expanded " ++ input ++ " into " ++ toString lines.length ++ " lines"))
    pure (Text.renderLines lines)

/-- Write the text of `input` to `output`; nothing is written if expansion fails. -/
def processFile (w : Workspace m) (o : Options) (input output : String) :
    ExceptT Thrown m Unit := do
  let text ← process w.toHost o input
  w.writeText output text .utf8
  w.log (.info ("Preprocessed " ++ input ++ " -> " ++ output))

end Inliner.Preprocessor

namespace Inliner

structure Builder where
  options : Options := {}
  deriving Repr, Inhabited

namespace Builder

def debugMode (b : Builder) (enabled : Value) : Builder :=
  ⟨{ b.options with debug := enabled }⟩

def maxIncludeDepth (b : Builder) (depth : Value) : Builder :=
  ⟨{ b.options with maxIncludeDepth := depth }⟩

def baseDirectory (b : Builder) (path : Value) : Builder :=
  ⟨{ b.options with baseDirectory := path }⟩

def build (b : Builder) : Options := b.options

end Builder
end Inliner
