/-! Blank characters and trimming. A line's meaning never depends on the blanks around it, so
every reader of a line starts from its trimmed text. -/
namespace Inliner.Text

/-- The characters that count as blank: the ASCII controls from tab to carriage return, the
Unicode space separators, the two line separators and the byte order mark. -/
def isBlank (c : Char) : Bool :=
  let n := c.toNat
  (0x9 ≤ n && n ≤ 0xD) || n == 0x20 || n == 0xA0 || n == 0x1680 || (0x2000 ≤ n && n ≤ 0x200A) ||
    n == 0x2028 || n == 0x2029 || n == 0x202F || n == 0x205F || n == 0x3000 || n == 0xFEFF

def trimLeft (cs : List Char) : List Char := cs.dropWhile isBlank

def trimRight (cs : List Char) : List Char := (cs.reverse.dropWhile isBlank).reverse

def trimChars (cs : List Char) : List Char := trimRight (trimLeft cs)

@[simp] theorem trimRight_nil : trimRight [] = [] := rfl

def trim (s : String) : String := String.ofList (trimChars s.toList)

end Inliner.Text
