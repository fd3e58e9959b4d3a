/-! Double-precision numbers, kept as integers: a finite number is a signed mantissa times a power
of two. Reading rounds to the nearest representable number, a tie to the even mantissa. -/
namespace Inliner

/-- `finite negative m e` is `m · 2 ^ e`, negated if `negative`. Zero keeps its sign. -/
inductive Number where
  | nan
  | infinite (negative : Bool)
  | finite (negative : Bool) (mantissa : Nat) (exponent : Int)
  deriving DecidableEq, Repr, Inhabited

namespace Number

/-- The integer nearest to `num / den`, the even one of two. -/
def roundDiv (num den : Nat) : Nat :=
  let q := num / den
  let r := num % den
  if 2 * r < den then q else if den < 2 * r then q + 1 else q + q % 2

def binaryScale (num den : Nat) : Int :=
  let s : Int := (num.log2 : Int) - den.log2
  let reached := if s < 0 then den ≤ num * Nat.pow 2 (-s).toNat else den * Nat.pow 2 s.toNat ≤ num
  if reached then s else s - 1

def lastPlace (num den : Nat) : Int := max (binaryScale num den - 52) (-1074)

def ofRatio (negative : Bool) (num den : Nat) : Number :=
  if num = 0 then .finite negative 0 0
  else
    let e := lastPlace num den
    let m := if e < 0 then roundDiv (num * Nat.pow 2 (-e).toNat) den
      else roundDiv num (den * Nat.pow 2 e.toNat)
    if 1024 ≤ (m.log2 : Int) + e then .infinite negative else .finite negative m e

/-- A count of things at hand, kept as it is; such counts stay far below `2 ^ 53`. -/
def count (n : Nat) : Number := .finite false n 0

/-- Integers up to `2 ^ 53` are kept as they are. -/
def ofNat (n : Nat) : Number :=
  if n ≤ Nat.pow 2 53 then count n else ofRatio false n 1

def negate : Number → Number
  | .nan => .nan
  | .infinite s => .infinite !s
  | .finite s m e => .finite (!s) m e

/-- `digits · 10 ^ exponent`, rounded. The two bounds lie beyond the greatest and below half the
least positive number, so that no power of ten grows out of hand. -/
def ofDecimal (negative : Bool) (digits : Nat) (exponent : Int) : Number :=
  if digits = 0 then .finite negative 0 0
  else if 400 < exponent then .infinite negative
  else if exponent < -(400 + digits.log2 : Int) then .finite negative 0 0
  else if exponent < 0 then ofRatio negative digits (Nat.pow 10 (-exponent).toNat)
  else ofRatio negative (digits * Nat.pow 10 exponent.toNat) 1

def isFinite : Number → Bool
  | .finite .. => true
  | _ => false

def isInteger : Number → Bool
  | .finite _ m e => 0 ≤ e || m % Nat.pow 2 (-e).toNat == 0
  | _ => false

def floorNat : Number → Nat
  | .finite _ m e => if e < 0 then m / Nat.pow 2 (-e).toNat else m * Nat.pow 2 e.toNat
  | _ => 0

def isZero : Number → Bool
  | .finite _ m _ => m == 0
  | _ => false

def isNegative : Number → Bool
  | .finite s _ _ => s
  | .infinite s => s
  | .nan => false

def isPositiveInteger (n : Number) : Bool := n.isInteger && !n.isNegative && !n.isZero

/-- Whether the natural number `n` is greater than `limit`; nothing is greater than a limit that
is no number. -/
def exceededBy (limit : Number) (n : Nat) : Bool :=
  match limit with
  | .nan => false
  | .infinite negative => negative
  | .finite true m _ => 0 < n || 0 < m
  | .finite false m e => if e < 0 then m < n * Nat.pow 2 (-e).toNat else m * Nat.pow 2 e.toNat < n

@[simp] theorem ofNat_of_le {n : Nat} (h : n ≤ Nat.pow 2 53) : ofNat n = count n := by
  simp only [ofNat, if_pos h]

@[simp] theorem exceededBy_count (m n : Nat) : exceededBy (count m) n = decide (m < n) := by
  simp [exceededBy, count]

end Number
end Inliner
