import Inliner.Value

/-! Reading JSON texts. Blanks are the four ASCII ones only, and of a repeated key the last value
counts. -/
namespace Inliner.Json

def isBlank (c : Char) : Bool := c == ' ' || c == '\n' || c == '\r' || c == '\t'

def skipBlanks (cs : List Char) : List Char := cs.dropWhile isBlank

def unit? : List Char → Option (Nat × List Char)
  | a :: b :: c :: d :: rest => do
    let ds ← [a, b, c, d].mapM Text.hexValue?
    some (ds.foldl (fun v x => v * 16 + x) 0, rest)
  | _ => none

def simpleEscape? : Char → Option Nat
  | '"' => some 34
  | '\\' => some 92
  | '/' => some 47
  | 'b' => some 8
  | 'f' => some 12
  | 'n' => some 10
  | 'r' => some 13
  | 't' => some 9
  | _ => none

/-- The 16-bit units of a text, reversed, up to its closing quote. -/
def textUnits? : (fuel : Nat) → (units : List Nat) → List Char → Option (List Nat × List Char)
  | 0, _, _ => none
  | fuel + 1, units, cs =>
    match cs with
    | '"' :: rest => some (units.reverse, rest)
    | '\\' :: 'u' :: rest => do
      let (n, rest) ← unit? rest
      textUnits? fuel (n :: units) rest
    | '\\' :: c :: rest => do
      let n ← simpleEscape? c
      textUnits? fuel (n :: units) rest
    | c :: rest =>
      if c.toNat < 0x20 ∨ c = '\\' then none
      else textUnits? fuel ((Text.charUnits c).reverse ++ units) rest
    | [] => none

def text? (cs : List Char) : Option (String × List Char) := do
  let (units, rest) ← textUnits? (cs.length + 1) [] cs
  some (Text.ofUnits units, rest)

def digits? (cs : List Char) : Option (List Char × List Char) :=
  let ds := cs.takeWhile Char.isDigit
  if ds.isEmpty then none else some (ds, cs.dropWhile Char.isDigit)

def natOf (ds : List Char) : Nat := Nat.ofDigitChars 10 ds 0

def fraction? : List Char → Option (List Char × List Char)
  | '.' :: rest => digits? rest
  | cs => some ([], cs)

def exponentSign : List Char → Bool × List Char
  | '-' :: rest => (true, rest)
  | '+' :: rest => (false, rest)
  | cs => (false, cs)

def exponent? : List Char → Option (Int × List Char)
  | c :: rest =>
    if c = 'e' ∨ c = 'E' then do
      let (negative, rest) := exponentSign rest
      let (ds, rest) ← digits? rest
      some (if negative then -(natOf ds : Int) else natOf ds, rest)
    else some (0, c :: rest)
  | [] => some (0, [])

def number? (cs : List Char) : Option (Number × List Char) := do
  let (negative, cs) := match cs with
    | '-' :: rest => (true, rest)
    | cs => (false, cs)
  let (whole, cs) ← digits? cs
  if whole.head? = some '0' ∧ whole.length ≠ 1 then none
  else
    let (fraction, cs) ← fraction? cs
    let (e, cs) ← exponent? cs
    some (.ofDecimal negative (natOf (whole ++ fraction)) (e - fraction.length), cs)

def word? (w : String) (cs : List Char) : Option (List Char) :=
  if w.toList.isPrefixOf cs then some (cs.drop w.toList.length) else none

mutual

def value? : (fuel : Nat) → List Char → Option (Value × List Char)
  | 0, _ => none
  | fuel + 1, cs =>
    match skipBlanks cs with
    | [] => none
    | c :: rest =>
      if c = '"' then (text? rest).map fun (s, r) => (.text s, r)
      else if c = '[' then
        match skipBlanks rest with
        | ']' :: r => some (.list [], r)
        | r => (items? fuel r).map fun (vs, r) => (.list vs, r)
      else if c = Char.ofNat 0x7B then
        match skipBlanks rest with
        | [] => none
        | d :: r =>
          if d = Char.ofNat 0x7D then some (.record [], r)
          else (fields? fuel [] (d :: r)).map fun (fs, r) => (.record fs, r)
      else if c = 't' then (word? "true" (c :: rest)).map fun r => (.bool true, r)
      else if c = 'f' then (word? "false" (c :: rest)).map fun r => (.bool false, r)
      else if c = 'n' then (word? "null" (c :: rest)).map fun r => (.null, r)
      else (number? (c :: rest)).map fun (n, r) => (.number n, r)

def items? : (fuel : Nat) → List Char → Option (List Value × List Char)
  | 0, _ => none
  | fuel + 1, cs => do
    let (v, cs) ← value? fuel cs
    match skipBlanks cs with
    | ',' :: rest => do
      let (vs, rest) ← items? fuel rest
      some (v :: vs, rest)
    | ']' :: rest => some ([v], rest)
    | _ => none

def fields? : (fuel : Nat) → Fields → List Char → Option (Fields × List Char)
  | 0, _, _ => none
  | fuel + 1, fields, cs =>
    match skipBlanks cs with
    | '"' :: rest => do
      let (key, rest) ← text? rest
      match skipBlanks rest with
      | ':' :: rest => do
        let (v, rest) ← value? fuel rest
        match skipBlanks rest with
        | c :: rest =>
          if c = ',' then fields? fuel (fields.put key v) rest
          else if c = Char.ofNat 0x7D then some (fields.put key v, rest)
          else none
        | [] => none
      | _ => none
    | _ => none

end

/-- The value of a text that is one JSON value and nothing else. -/
def parse? (s : String) : Option Value := do
  let cs := s.toList
  let (v, rest) ← value? (2 * cs.length + 2) cs
  if (skipBlanks rest).isEmpty then some v else none

end Inliner.Json
