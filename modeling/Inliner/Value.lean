import Inliner.Number.Decimal
import Inliner.Number.Literal
import Inliner.Instant
import Inliner.Text.Wide

/-! Values met in settings files, log records and thrown objects, with their plain text and their
JSON text. A record keeps its fields in the order of insertion; a listing puts the keys that are
array positions first. -/
namespace Inliner

inductive Value where
  /-- No value at all: as a field it counts as missing. -/
  | absent
  | null
  | bool (b : Bool)
  | number (n : Number)
  | text (s : String)
  /-- A text in which surrogates stand alone, in 16-bit units. -/
  | torn (units : List Nat)
  | list (items : List Value)
  | record (fields : List (String × Value))
  | instant (t : Instant)
  | bytes (b : Text.Bytes)
  /-- The place where a list or record is met again inside itself. -/
  | circle
  deriving Repr, Inhabited

abbrev Fields := List (String × Value)

def arrayPosition? (key : String) : Option Nat :=
  let cs := key.toList
  if cs.all Char.isDigit && !cs.isEmpty && (cs.head? != some '0' || cs.length == 1) then
    let n := Nat.ofDigitChars 10 cs 0
    if n < 4294967295 then some n else none
  else none

/-- Array positions in ascending order, then the other keys as they were inserted. -/
def listingOrder {α : Type} (fields : List (String × α)) : List (String × α) :=
  let positions := fields.filterMap fun f => (arrayPosition? f.1).map fun n => (n, f)
  let others := fields.filter fun f => (arrayPosition? f.1).isNone
  (positions.mergeSort fun a b => a.1 ≤ b.1).map (·.2) ++ others

namespace Fields

def get? (fields : Fields) (key : String) : Option Value := fields.lookup key

def valueOf (fields : Fields) (key : String) : Value := (fields.get? key).getD .absent

/-- Give a key its value, in its place if it has one. -/
def put (fields : Fields) (key : String) (v : Value) : Fields :=
  match fields with
  | [] => [(key, v)]
  | (k, old) :: rest => if k = key then (k, v) :: rest else (k, old) :: put rest key v

@[simp] theorem get?_nil (key : String) : get? [] key = none := rfl

theorem get?_cons (k : String) (v : Value) (fields : Fields) (key : String) :
    get? ((k, v) :: fields) key = if key = k then some v else get? fields key := by
  by_cases h : key = k <;> simp [get?, List.lookup_cons, h, beq_eq_false_iff_ne.2]

end Fields

namespace Value

mutual

def toText : Value → String
  | .absent => "undefined"
  | .null => "null"
  | .bool b => if b then "true" else "false"
  | .number n => n.text
  | .text s => s
  | .torn us => Text.ofUnits us
  | .list items => ",".intercalate (itemTexts items)
  | .record _ => "[object Object]"
  | .instant t => t.text
  | .bytes b => ",".intercalate (b.map fun x => toString x.toNat)
  | .circle => ""

def itemTexts : List Value → List String
  | [] => []
  | v :: rest =>
    (match v with
      | .absent => ""
      | .null => ""
      | v => v.toText) :: itemTexts rest

end

def jsonEscape (c : Char) : List Char :=
  if c = '"' then ['\\', '"']
  else if c = '\\' then ['\\', '\\']
  else if c = '\n' then ['\\', 'n']
  else if c = '\r' then ['\\', 'r']
  else if c = '\t' then ['\\', 't']
  else if c.toNat = 8 then ['\\', 'b']
  else if c.toNat = 12 then ['\\', 'f']
  else if c.toNat < 0x20 then
    ['\\', 'u', '0', '0', Nat.digitChar (c.toNat / 16), Nat.digitChar (c.toNat % 16)]
  else [c]

/-- A text in double quotes; only quotes, backslashes and ASCII controls are escaped. -/
def quoted (s : String) : String :=
  String.ofList ('"' :: s.toList.flatMap jsonEscape ++ ['"'])

def surrogateEscape (n : Nat) : List Char :=
  '\\' :: 'u' :: [n / 4096 % 16, n / 256 % 16, n / 16 % 16, n % 16].map Nat.digitChar

def quotedUnits (us : List Nat) : String :=
  String.ofList ('"' :: Text.readUnits jsonEscape surrogateEscape none us ++ ['"'])

def braced (fields : List (String × String)) : String :=
  "\x7b" ++ ",".intercalate ((listingOrder fields).map fun f => quoted f.1 ++ ":" ++ f.2) ++ "\x7d"

def jsonNumber (n : Number) : String :=
  if n.isFinite then n.text else "null"

mutual

/-- JSON text without blanks. A number that is not finite, and a missing value in a list, is
written `null`. A value that contains itself has none, which `isEndless` tells. -/
def toJson : Value → String
  | .absent => "null"
  | .null => "null"
  | .bool b => if b then "true" else "false"
  | .number n => jsonNumber n
  | .text s => quoted s
  | .torn us => quotedUnits us
  | .list items => "[" ++ ",".intercalate (itemJsons items) ++ "]"
  | .record fields => braced (fieldJsons fields)
  | .instant t => quoted t.iso
  | .bytes b => braced (b.zipIdx.map fun x => (toString x.2, toString x.1.toNat))
  | .circle => "null"

def itemJsons : List Value → List String
  | [] => []
  | v :: rest => v.toJson :: itemJsons rest

def fieldJsons : List (String × Value) → List (String × String)
  | [] => []
  | (key, v) :: rest =>
    match v with
    | .absent => fieldJsons rest
    | v => (key, v.toJson) :: fieldJsons rest

end

mutual

def isEndless : Value → Bool
  | .circle => true
  | .list items => anyItemEndless items
  | .record fields => anyFieldEndless fields
  | _ => false

def anyItemEndless : List Value → Bool
  | [] => false
  | v :: rest => v.isEndless || anyItemEndless rest

def anyFieldEndless : List (String × Value) → Bool
  | [] => false
  | (_, v) :: rest => v.isEndless || anyFieldEndless rest

end

/-- Whether the value is missing or `null`, so that a default takes its place. -/
def isMissing : Value → Bool
  | .absent | .null => true
  | _ => false

def orElse (v default : Value) : Value := if v.isMissing then default else v

/-- Whether the value counts as a yes: all do but missing ones, `false`, zero, what is no number,
and the empty text. -/
def isTruthy : Value → Bool
  | .absent | .null => false
  | .bool b => b
  | .number n => !n.isZero && n != .nan
  | .text s => s != ""
  | _ => true

def toNumber : Value → Number
  | .absent => .nan
  | .null => .count 0
  | .bool b => .count (if b then 1 else 0)
  | .number n => n
  | v => .ofText v.toText

def kindText : Value → String
  | .absent => "undefined"
  | .null => "null"
  | .bool b => "type boolean (" ++ (if b then "true" else "false") ++ ")"
  | .number n => "type number (" ++ (if n.isZero && n.isNegative then "-0" else n.text) ++ ")"
  | .text s => "type string ('" ++ s ++ "')"
  | .torn us => "type string ('" ++ Text.ofUnits us ++ "')"
  | .list _ | .circle => "an instance of Array"
  | .record _ => "an instance of Object"
  | .instant _ => "an instance of Date"
  | .bytes _ => "an instance of Uint8Array"

def ofWide : Text.Wide → Value
  | .whole s => .text s
  | .torn us => .torn us

def ofOptionText : Option String → Value
  | none => .absent
  | some s => .text s

def texts (items : List String) : Value := .list (items.map .text)

mutual

def same : Value → Value → Bool
  | .absent, .absent | .null, .null | .circle, .circle => true
  | .bool a, .bool b => a == b
  | .number a, .number b => a == b
  | .text a, .text b => a == b
  | .torn a, .torn b => a == b
  | .instant a, .instant b => a == b
  | .bytes a, .bytes b => a == b
  | .list a, .list b => sameItems a b
  | .record a, .record b => sameFields a b
  | _, _ => false

def sameItems : List Value → List Value → Bool
  | [], [] => true
  | v :: vs, w :: ws => v.same w && sameItems vs ws
  | _, _ => false

def sameFields : List (String × Value) → List (String × Value) → Bool
  | [], [] => true
  | (k, v) :: vs, (l, w) :: ws => k == l && v.same w && sameFields vs ws
  | _, _ => false

end

mutual

theorem same_iff : (v w : Value) → (v.same w = true ↔ v = w)
  | .list a, w => by cases w <;> simp [same, sameItems_iff a]
  | .record a, w => by cases w <;> simp [same, sameFields_iff a]
  | .absent, w => by cases w <;> simp [same]
  | .null, w => by cases w <;> simp [same]
  | .circle, w => by cases w <;> simp [same]
  | .bool _, w => by cases w <;> simp [same]
  | .number _, w => by cases w <;> simp [same]
  | .text _, w => by cases w <;> simp [same]
  | .torn _, w => by cases w <;> simp [same]
  | .instant _, w => by cases w <;> simp [same]
  | .bytes _, w => by cases w <;> simp [same]

theorem sameItems_iff : (vs ws : List Value) → (sameItems vs ws = true ↔ vs = ws)
  | [], ws => by cases ws <;> simp [sameItems]
  | v :: vs, ws => by cases ws <;> simp [sameItems, same_iff v, sameItems_iff vs]

theorem sameFields_iff : (vs ws : List (String × Value)) → (sameFields vs ws = true ↔ vs = ws)
  | [], ws => by cases ws <;> simp [sameFields]
  | (k, v) :: vs, ws => by
    cases ws <;> simp [sameFields, same_iff v, sameFields_iff vs, Prod.ext_iff, and_assoc]

end

instance : DecidableEq Value := fun v w => decidable_of_iff _ (same_iff v w)

end Value
end Inliner
