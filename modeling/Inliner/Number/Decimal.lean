import Inliner.Number

/-! The text of a number: the fewest decimal digits that read back as the same number, and of
those the nearest. Grids of one, two, … seventeen digits are tried in turn in exact arithmetic. -/
namespace Inliner.Number

/-- The reals that round to a number, over the common denominator `den`; the ends belong to it
iff `closed`. -/
structure Interval where
  low : Nat
  value : Nat
  high : Nat
  den : Nat
  closed : Bool

def normalize (m : Nat) (e : Int) : Nat × Int :=
  if 52 < m.log2 then (m / Nat.pow 2 (m.log2 - 52), e + (m.log2 - 52 : Nat))
  else
    let k := min (52 - m.log2) (e + 1074).toNat
    (m * Nat.pow 2 k, e - k)

/-- A quarter of the last place is the unit, because the gap below a power of two is half as wide
as the gap above it. -/
def Interval.ofFinite (m : Nat) (e : Int) : Interval :=
  let (m, e) := normalize m e
  let gap := if m = Nat.pow 2 52 ∧ -1074 < e then 1 else 2
  let up := Nat.pow 2 (e - 2).toNat
  { low := (4 * m - gap) * up
    value := 4 * m * up
    high := (4 * m + 2) * up
    den := Nat.pow 2 (2 - e).toNat
    closed := m % 2 == 0 }

def digitCount (n : Nat) : Nat := (Nat.toDigits 10 n).length

/-- The `p` with `10 ^ (p - 1) ≤ num / den < 10 ^ p`. -/
def decimalPoint (num den : Nat) : Int :=
  if den ≤ num then digitCount (num / den)
  else
    let j := digitCount (den / num)
    if den = num * Nat.pow 10 (j - 1) then 2 - j else 1 - j

def Interval.holds (i : Interval) (c : Nat) (k : Int) : Bool :=
  let x := c * Nat.pow 10 k.toNat * i.den
  let scale := Nat.pow 10 (-k).toNat
  if i.closed then i.low * scale ≤ x && x ≤ i.high * scale
  else i.low * scale < x && x < i.high * scale

def Interval.onGrid? (i : Interval) (k : Int) : Option Nat :=
  let num := i.value * Nat.pow 10 (-k).toNat
  let den := i.den * Nat.pow 10 k.toNat
  let below := num / den
  match i.holds below k, i.holds (below + 1) k with
  | true, true => some (roundDiv num den)
  | true, false => some below
  | false, true => some (below + 1)
  | false, false => none

/-- Try `count` digits, then one more, at most `tries` times. -/
def Interval.shortest (i : Interval) (point : Int) : (tries count : Nat) → Nat × Int
  | 0, _ => (i.value / i.den, 0)
  | tries + 1, count =>
    let k := point - count
    match i.onGrid? k with
    | some c => (c, k)
    | none => i.shortest point tries (count + 1)

def dropZeros (digits : List Char) : List Char := (digits.reverse.dropWhile (· == '0')).reverse

def zeros (n : Nat) : List Char := List.replicate n '0'

/-- Digits `d₁ d₂ …` of the value `0.d₁d₂… · 10 ^ point`: positional from `10 ^ -6` up to below
`10 ^ 21`, otherwise with an exponent that always has a sign. -/
def layout (digits : List Char) (point : Int) : List Char :=
  let count : Int := digits.length
  if count ≤ point ∧ point ≤ 21 then digits ++ zeros (point - count).toNat
  else if 0 < point ∧ point ≤ 21 then
    digits.take point.toNat ++ '.' :: digits.drop point.toNat
  else if -6 < point ∧ point ≤ 0 then '0' :: '.' :: (zeros (-point).toNat ++ digits)
  else
    let e := point - 1
    let mantissa := match digits with
      | d :: rest@(_ :: _) => d :: '.' :: rest
      | ds => ds
    mantissa ++ 'e' :: (if e < 0 then '-' else '+') :: Nat.toDigits 10 e.natAbs

def magnitudeText (m : Nat) (e : Int) : List Char :=
  if m = 0 then ['0']
  else
    let i := Interval.ofFinite m e
    let (c, k) := i.shortest (decimalPoint i.value i.den) 17 1
    let digits := Nat.toDigits 10 c
    layout (dropZeros digits) (digits.length + k)

def text : Number → String
  | .nan => "NaN"
  | .infinite negative => if negative then "-Infinity" else "Infinity"
  | .finite negative m e =>
    String.ofList (if negative ∧ m ≠ 0 then '-' :: magnitudeText m e else magnitudeText m e)

end Inliner.Number
