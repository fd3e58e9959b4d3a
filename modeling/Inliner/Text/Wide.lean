import Inliner.Text.Encoding

/-! Texts of 16-bit units. Escapes can leave a surrogate without its partner; such a text is no
string of characters and is kept unit by unit. -/
namespace Inliner.Text

/-- A string, or the units of a text in which a surrogate stands alone. -/
inductive Wide where
  | whole (s : String)
  | torn (units : List Nat)
  deriving DecidableEq, Repr, Inhabited

namespace Wide

def ofUnits (us : List Nat) : Wide :=
  if Text.units (Text.ofUnits us) = us then .whole (Text.ofUnits us) else .torn us

def units : Wide → List Nat
  | .whole s => Text.units s
  | .torn us => us

def shown : Wide → String
  | .whole s => s
  | .torn us => Text.ofUnits us

end Wide
end Inliner.Text
