import Inliner.Text.Encoding

/-! Texts as they are shown in errors: in quotes, with control characters escaped, and no longer
than a reader cares for. -/
namespace Inliner.Text

def showChar (quote c : Char) : List Char :=
  let n := c.toNat
  let hex := ['\\', 'x', (Nat.digitChar (n / 16)).toUpper, (Nat.digitChar (n % 16)).toUpper]
  if c = quote ∨ c = '\\' then ['\\', c]
  else if c = '\n' then ['\\', 'n']
  else if c = '\r' then ['\\', 'r']
  else if c = '\t' then ['\\', 't']
  else if n = 8 then ['\\', 'b']
  else if n = 12 then ['\\', 'f']
  else if n < 0x20 ∨ (0x7F ≤ n ∧ n < 0xA0) then hex
  else [c]

/-- A line in quotes: single ones unless the line has them and another kind needs no escape. -/
def showLine (cs : List Char) : List Char :=
  let backquote := Char.ofNat 0x60
  let quote :=
    if !cs.contains '\'' then '\''
    else if !cs.contains '"' then '"'
    else if !cs.contains backquote && !(String.ofList cs).contains "$\x7b" then backquote
    else '\''
  quote :: cs.flatMap (showChar quote) ++ [quote]

def endedLines (cs : List Char) : List (List Char) :=
  match cs.splitOn '\n' with
  | [] => []
  | ls => ls.dropLast.map (· ++ ['\n']) ++ (ls.getLast?.filter (· != [])).toList

def wideText : Nat := 77

def shownLimit : Nat := 128

/-- A text as it is shown in an error: a long one has its lines joined by plus signs, and what is
shown is cut after so many units. -/
def shown (s : String) : String :=
  let lines := if wideText ≤ (units s).length then endedLines s.toList else [s.toList]
  let whole := " +\n  ".intercalate (lines.map fun l => String.ofList (showLine l))
  if shownLimit < (units whole).length then
    ofUnits ((units whole).take shownLimit) ++ "..."
  else whole

end Inliner.Text
