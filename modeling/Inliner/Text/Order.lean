/-! The order of names in a listing: by 16-bit code units, so that a character beyond the basic
plane sorts by the first half of its surrogate pair. -/
namespace Inliner.Text

def charUnits (c : Char) : List Nat :=
  let n := c.toNat
  if n < 0x10000 then [n]
  else [0xD800 + (n - 0x10000) / 0x400, 0xDC00 + (n - 0x10000) % 0x400]

def units (s : String) : List Nat := s.toList.flatMap charUnits

/-- Whether `a` comes before or is equal to `b`, unit by unit. -/
def unitsLe : List Nat → List Nat → Bool
  | [], _ => true
  | _ :: _, [] => false
  | a :: as, b :: bs => a < b || (a == b && unitsLe as bs)

def nameLe (a b : String) : Bool := unitsLe (units a) (units b)

def namesLe : List String → List String → Bool
  | [], _ => true
  | _ :: _, [] => false
  | a :: as, b :: bs => if a == b then namesLe as bs else nameLe a b

end Inliner.Text
