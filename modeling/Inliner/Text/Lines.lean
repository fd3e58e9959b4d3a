/-! Lines of a text. A final line feed ends the last line and opens no further one, so a text that
ends in a line feed and its list of lines determine each other. -/
namespace Inliner.Text

/-- Cut at the line feeds; a carriage return stays on its line. -/
def lineChars : List Char → List (List Char)
  | [] => []
  | c :: rest =>
    if c = '\n' then [] :: lineChars rest
    else match lineChars rest with
      | [] => [[c]]
      | line :: lines => (c :: line) :: lines

def splitLines (text : String) : List String := (lineChars text.toList).map String.ofList

def renderLines (lines : List String) : String := String.join (lines.map (· ++ "\n"))

end Inliner.Text
