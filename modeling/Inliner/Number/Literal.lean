import Inliner.Number
import Inliner.Text.Blank
import Inliner.Text.Encoding

/-! Numbers as they are written: digits in a base, and decimals with a point and an exponent. -/
namespace Inliner.Number

def sign : List Char → Bool × List Char
  | '-' :: rest => (true, rest)
  | '+' :: rest => (false, rest)
  | cs => (false, cs)

def natInBase? (base : Nat) (cs : List Char) : Option Nat :=
  if cs.isEmpty then none
  else cs.foldl (fun acc c => do
    let v ← acc
    let d ← Text.hexValue? c
    if d < base then some (v * base + d) else none) (some 0)

/-- The integer that a text begins with, after blanks and a sign; digits are read as far as they go,
and a text that begins with none is no number. -/
def leadingInteger (cs : List Char) : Number :=
  let (negative, cs) := sign (Text.trimLeft cs)
  match natInBase? 10 (cs.takeWhile Char.isDigit) with
  | none => .nan
  | some n => if negative then (ofNat n).negate else ofNat n

def exponent? : List Char → Option Int
  | [] => some 0
  | e :: rest =>
    if e = 'e' ∨ e = 'E' then
      let (negative, digits) := sign rest
      if digits.all Char.isDigit then
        (natInBase? 10 digits).map fun n => if negative then -(n : Int) else n
      else none
    else none

/-- Digits, with a point anywhere but at the end of nothing, and an exponent. -/
def decimal? (negative : Bool) (cs : List Char) : Option Number := do
  let whole := cs.takeWhile Char.isDigit
  let rest := cs.dropWhile Char.isDigit
  let (fraction, rest) := match rest with
    | '.' :: r => (r.takeWhile Char.isDigit, r.dropWhile Char.isDigit)
    | r => ([], r)
  let e ← exponent? rest
  let n ← natInBase? 10 (whole ++ fraction)
  some (Number.ofDecimal negative n (e - fraction.length))

/-- The number that a whole text spells between blanks. An empty one spells zero, digits in another
base have a mark and no sign, and all that spells nothing is no number. -/
def ofText (s : String) : Number :=
  match Text.trimChars s.toList with
  | [] => count 0
  | '0' :: mark :: rest =>
    if mark = 'x' ∨ mark = 'X' then inBase 16 rest
    else if mark = 'o' ∨ mark = 'O' then inBase 8 rest
    else if mark = 'b' ∨ mark = 'B' then inBase 2 rest
    else signed ('0' :: mark :: rest)
  | cs => signed cs
where
  inBase (base : Nat) (cs : List Char) : Number := ((natInBase? base cs).map ofNat).getD .nan
  signed (cs : List Char) : Number :=
    let (negative, cs) := sign cs
    if cs = "Infinity".toList then .infinite negative else (decimal? negative cs).getD .nan

end Inliner.Number
