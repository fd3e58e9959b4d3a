import Inliner.Yaml.Cursor

/-! What a plain scalar stands for: null, a boolean, an integer, a fraction, an instant, or its own
text. The forms are tried in this order. -/
namespace Inliner.Yaml.Scalar

def isNull (s : String) : Bool := ["~", "null", "Null", "NULL"].contains s

def bool? (s : String) : Option Bool :=
  if ["true", "True", "TRUE"].contains s then some true
  else if ["false", "False", "FALSE"].contains s then some false
  else none

def magnitude? : List Char → Option Nat
  | '0' :: 'b' :: rest => Number.natInBase? 2 rest
  | '0' :: 'o' :: rest => Number.natInBase? 8 rest
  | '0' :: 'x' :: rest => Number.natInBase? 16 rest
  | cs => Number.natInBase? 10 cs

/-- A negative zero keeps its sign unless it is written as the single digit; an integer that is too
great for a number stays text. -/
def integer? (s : String) : Option Number := do
  let (negative, cs) := Number.sign s.toList
  let value ← ((magnitude? cs).map Number.ofNat).filter Number.isFinite
  some (if negative ∧ cs ≠ ['0'] then value.negate else value)

/-- A fraction that is too great for a number stays text, and so does one that begins with a sign
and a point. -/
def fraction? (s : String) : Option Number :=
  let (negative, cs) := Number.sign s.toList
  let text := String.ofList cs
  if [".inf", ".Inf", ".INF"].contains text then some (.infinite negative)
  else if [".nan", ".NaN", ".NAN"].contains s then some .nan
  else if cs.head? = some '.' ∧ cs ≠ s.toList then none
  else (Number.decimal? negative cs).filter Number.isFinite

def digits? (least most : Nat) (cs : List Char) : Option (Int × List Char) :=
  let ds := (cs.take most).takeWhile Char.isDigit
  if ds.length < least then none
  else (Number.natInBase? 10 ds).map fun n => ((n : Int), cs.drop ds.length)

def expect? (p : Char → Bool) : List Char → Option (List Char)
  | c :: rest => if p c then some rest else none
  | [] => none

def millis (ds : List Char) : Int :=
  let three := ds.take 3
  ((Number.natInBase? 10 (three ++ List.replicate (3 - three.length) '0')).getD 0 : Nat)

def fullYear (y : Int) : Int := if y ≤ 99 then y + 1900 else y

def date? (cs : List Char) : Option Instant := do
  let (y, cs) ← digits? 4 4 cs
  let cs ← expect? (· == '-') cs
  let (m, cs) ← digits? 2 2 cs
  let cs ← expect? (· == '-') cs
  let (d, cs) ← digits? 2 2 cs
  if cs.isEmpty then some (.ofFields (fullYear y) m d 0 0 0 0) else none

def zone? : List Char → Option Int
  | [] => some 0
  | ['Z'] => some 0
  | c :: rest =>
    if c = '+' ∨ c = '-' then do
      let (h, cs) ← digits? 1 2 rest
      let minutes ← match cs with
        | [] => some 0
        | ':' :: cs => do
          let (m, cs) ← digits? 2 2 cs
          if cs.isEmpty then some m else none
        | _ => none
      some (if c = '-' then -(h * 60 + minutes) else h * 60 + minutes)
    else none

/-- A date and a time of day, with an optional fraction of a second and an optional zone. -/
def timestamp? (cs : List Char) : Option Instant := do
  let (y, cs) ← digits? 4 4 cs
  let cs ← expect? (· == '-') cs
  let (mo, cs) ← digits? 1 2 cs
  let cs ← expect? (· == '-') cs
  let (d, cs) ← digits? 1 2 cs
  let cs ← match cs with
    | 'T' :: r => some r
    | 't' :: r => some r
    | c :: r => if isWhite c then some (r.dropWhile isWhite) else none
    | [] => none
  let (h, cs) ← digits? 1 2 cs
  let cs ← expect? (· == ':') cs
  let (mi, cs) ← digits? 2 2 cs
  let cs ← expect? (· == ':') cs
  let (s, cs) ← digits? 2 2 cs
  let (ms, cs) := match cs with
    | '.' :: r => (millis (r.takeWhile Char.isDigit), r.dropWhile Char.isDigit)
    | cs => (0, cs)
  let zone := cs.dropWhile isWhite
  let minutes ← if zone.isEmpty ∧ !cs.isEmpty then none else zone? zone
  let t := Instant.ofFields (fullYear y) mo d h mi s ms
  some ⟨t.millis - minutes * 60000⟩

def instant? (s : String) : Option Instant :=
  (date? s.toList) <|> timestamp? s.toList

def mergeKey : String := "<<"

end Inliner.Yaml.Scalar
