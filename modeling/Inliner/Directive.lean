import Inliner.Number
import Inliner.Text.Blank
import Inliner.Text.Lines

/-! Include lines. A line whose trimmed text is the keyword, alone or followed by a blank, asks for
a file; every other line is ordinary text. The path stands in angle brackets, in double or single
quotes, or bare to the end of the line. -/
namespace Inliner

structure Location where
  sourceFile : String
  lineNumber : Number
  deriving DecidableEq, Repr, Inhabited

inductive QuoteStyle where
  | angle | double | single | bare
  deriving DecidableEq, Repr, Inhabited

structure Directive where
  lineNumber : Number
  rawPath : String
  quoteStyle : QuoteStyle
  sourceFile : String
  deriving DecidableEq, Repr, Inhabited

namespace Directive

def location (d : Directive) : Location := ⟨d.sourceFile, d.lineNumber⟩

def keyword : String := "#include"

structure Delimiters where
  opening : Char
  closing : Char
  style : QuoteStyle
  deriving DecidableEq, Repr

def delimiters : List Delimiters :=
  [⟨'<', '>', .angle⟩, ⟨'"', '"', .double⟩, ⟨'\'', '\'', .single⟩]

def delimitersAt? (c : Char) : Option Delimiters := delimiters.find? (·.opening == c)

/-- The path between delimiters: `rest` is all that follows the opening one, and the closing one
must come once, at the end. -/
def delimited? (d : Delimiters) (rest : List Char) : Option (List Char) :=
  let path := rest.takeWhile (· != d.closing)
  if rest = path ++ [d.closing] ∧ path ≠ [] then some path else none

def path? : List Char → Option (List Char × QuoteStyle)
  | [] => none
  | c :: rest =>
    match delimitersAt? c with
    | some d => (delimited? d rest).map fun path => (path, d.style)
    | none => some (c :: rest, .bare)

/-- What one line says. -/
inductive Line where
  | plain
  | includes (path : String) (style : QuoteStyle)
  | malformed (text : String)
  deriving DecidableEq, Repr

def readTrimmed (cs : List Char) : Line :=
  if keyword.toList.isPrefixOf cs then
    let rest := cs.drop keyword.toList.length
    if (rest.head?.map Text.isBlank).getD true then
      match path? (Text.trimChars rest) with
      | some (path, style) => .includes (String.ofList path) style
      | none => .malformed (String.ofList cs)
    else .plain
  else .plain

def readLine (line : String) : Line := readTrimmed (Text.trimChars line.toList)

/-- The comment lines around an included block in debug mode. -/
def beginMarker (rawPath : String) : String := "# --- Included from " ++ rawPath ++ " ---"

def endMarker (rawPath : String) : String := "# --- End of " ++ rawPath ++ " ---"

end Directive
end Inliner
