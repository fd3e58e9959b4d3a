import Inliner.Text.Order

/-! Bytes and texts. Reading UTF-8 never fails: each longest ill-formed stretch of bytes that could
have begun a character reads as one replacement character, and a byte order mark is kept. -/
namespace Inliner.Text

abbrev Bytes := List UInt8

def replacement : Char := Char.ofNat 0xFFFD

/-- A character that has begun: how many bytes it still needs, the bounds of the next one, and the
bits read so far. -/
structure Partial where
  needed : Nat
  low : Nat
  high : Nat
  bits : Nat
  deriving DecidableEq, Repr

/-- What a first byte gives: a whole character, the beginning of one, or nothing. -/
def beginChar (b : UInt8) : List Char × Option Partial :=
  let n := b.toNat
  if n < 0x80 then ([Char.ofNat n], none)
  else if n < 0xC2 then ([replacement], none)
  else if n < 0xE0 then ([], some ⟨1, 0x80, 0xBF, n % 0x20⟩)
  else if n < 0xF0 then
    ([], some ⟨2, if n = 0xE0 then 0xA0 else 0x80, if n = 0xED then 0x9F else 0xBF, n % 0x10⟩)
  else if n < 0xF5 then
    ([], some ⟨3, if n = 0xF0 then 0x90 else 0x80, if n = 0xF4 then 0x8F else 0xBF, n % 8⟩)
  else ([replacement], none)

def continueChar (p : Partial) (b : UInt8) : List Char × Option Partial :=
  let bits := p.bits * 0x40 + b.toNat % 0x40
  if p.needed ≤ 1 then ([Char.ofNat bits], none)
  else ([], some ⟨p.needed - 1, 0x80, 0xBF, bits⟩)

/-- A byte out of bounds ends the character begun before it and is read again as a first byte. -/
def readByte (p : Option Partial) (b : UInt8) : List Char × Option Partial :=
  match p with
  | none => beginChar b
  | some p =>
    if p.low ≤ b.toNat ∧ b.toNat ≤ p.high then continueChar p b
    else (replacement :: (beginChar b).1, (beginChar b).2)

def decodeUtf8Chars : Option Partial → Bytes → List Char
  | none, [] => []
  | some _, [] => [replacement]
  | p, b :: rest => (readByte p b).1 ++ decodeUtf8Chars (readByte p b).2 rest

def decodeUtf8 (bytes : Bytes) : String := String.ofList (decodeUtf8Chars none bytes)

def encodeUtf8 (text : String) : Bytes := text.toList.flatMap String.utf8EncodeChar

inductive Encoding where
  | utf8 | latin1 | ascii | hex | base64 | base64url | utf16le
  deriving DecidableEq, Repr

def Encoding.ofName? (name : String) : Option Encoding :=
  match name.toLower with
  | "utf8" | "utf-8" => some .utf8
  | "latin1" | "binary" => some .latin1
  | "ascii" => some .ascii
  | "hex" => some .hex
  | "base64" => some .base64
  | "base64url" => some .base64url
  | "utf16le" | "utf-16le" | "ucs2" | "ucs-2" => some .utf16le
  | _ => none

def hexDigit (n : Nat) : Char := (Nat.digitChar n)

def hexValue? (c : Char) : Option Nat :=
  if c.isDigit then some (c.toNat - '0'.toNat)
  else if 'a' ≤ c ∧ c ≤ 'f' then some (c.toNat - 'a'.toNat + 10)
  else if 'A' ≤ c ∧ c ≤ 'F' then some (c.toNat - 'A'.toNat + 10)
  else none

def hexOfByte (b : UInt8) : List Char := [hexDigit (b.toNat / 16), hexDigit (b.toNat % 16)]

def bytesOfHex : List Char → Bytes
  | a :: b :: r =>
    match hexValue? a, hexValue? b with
    | some x, some y => UInt8.ofNat (x * 16 + y) :: bytesOfHex r
    | _, _ => []
  | _ => []

def base64Digit (n : Nat) : Char :=
  if n < 26 then Char.ofNat ('A'.toNat + n)
  else if n < 52 then Char.ofNat ('a'.toNat + (n - 26))
  else if n < 62 then Char.ofNat ('0'.toNat + (n - 52))
  else if n == 62 then '+' else '/'

def base64Value? (c : Char) : Option Nat :=
  if 'A' ≤ c ∧ c ≤ 'Z' then some (c.toNat - 'A'.toNat)
  else if 'a' ≤ c ∧ c ≤ 'z' then some (c.toNat - 'a'.toNat + 26)
  else if c.isDigit then some (c.toNat - '0'.toNat + 52)
  else if c = '+' ∨ c = '-' then some 62
  else if c = '/' ∨ c = '_' then some 63
  else none

def base64OfBytes : Bytes → List Char
  | [] => []
  | [a] => [base64Digit (a.toNat / 4), base64Digit (a.toNat % 4 * 16), '=', '=']
  | [a, b] =>
    [base64Digit (a.toNat / 4), base64Digit (a.toNat % 4 * 16 + b.toNat / 16),
      base64Digit (b.toNat % 16 * 4), '=']
  | a :: b :: c :: r =>
    base64Digit (a.toNat / 4) :: base64Digit (a.toNat % 4 * 16 + b.toNat / 16) ::
      base64Digit (b.toNat % 16 * 4 + c.toNat / 64) :: base64Digit (c.toNat % 64) ::
        base64OfBytes r

def fileNameDigit? (c : Char) : Option Char :=
  if c = '=' then none
  else if c = '+' then some '-'
  else if c = '/' then some '_'
  else some c

def bytesOfSextets : List Nat → Bytes
  | a :: b :: c :: d :: r =>
    UInt8.ofNat (a * 4 + b / 16) :: UInt8.ofNat (b % 16 * 16 + c / 4) ::
      UInt8.ofNat (c % 4 * 64 + d) :: bytesOfSextets r
  | [a, b, c] => [UInt8.ofNat (a * 4 + b / 16), UInt8.ofNat (b % 16 * 16 + c / 4)]
  | [a, b] => [UInt8.ofNat (a * 4 + b / 16)]
  | _ => []

def bytesOfBase64 (cs : List Char) : Bytes :=
  bytesOfSextets ((cs.takeWhile (· != '=')).filterMap base64Value?)

def bytesOfUnit (n : Nat) : Bytes := [UInt8.ofNat (n % 256), UInt8.ofNat (n / 256)]

def unitsOfBytes : Bytes → List Nat
  | a :: b :: rest => (a.toNat + b.toNat * 256) :: unitsOfBytes rest
  | _ => []

/-- Read code units: `whole` writes a character, and `alone` a surrogate that has no partner. `high`
is a first surrogate that waits for its second. -/
def readUnits (whole : Char → List Char) (alone : Nat → List Char) : Option Nat → List Nat →
    List Char
  | none, [] => []
  | some h, [] => alone h
  | high, n :: rest =>
    match high, decide (0xDC00 ≤ n ∧ n < 0xE000) with
    | some h, true => whole (Char.ofNat (0x10000 + (h - 0xD800) * 0x400 + (n - 0xDC00))) ++
        readUnits whole alone none rest
    | none, true => alone n ++ readUnits whole alone none rest
    | high, false =>
      (high.elim [] alone) ++
        if 0xD800 ≤ n ∧ n < 0xDC00 then readUnits whole alone (some n) rest
        else whole (Char.ofNat n) ++ readUnits whole alone none rest

def ofUnits (us : List Nat) : String :=
  String.ofList (readUnits (fun c => [c]) (fun _ => [replacement]) none us)

def Encoding.decode (e : Encoding) (bytes : Bytes) : String :=
  match e with
  | .utf8 => decodeUtf8 bytes
  | .latin1 => String.ofList (bytes.map fun b => Char.ofNat b.toNat)
  | .ascii => String.ofList (bytes.map fun b => Char.ofNat (b.toNat % 128))
  | .hex => String.ofList (bytes.flatMap hexOfByte)
  | .base64 => String.ofList (base64OfBytes bytes)
  | .base64url => String.ofList ((base64OfBytes bytes).filterMap fileNameDigit?)
  | .utf16le => ofUnits (unitsOfBytes bytes)

def lowChars (text : String) : List Char := (units text).map fun n => Char.ofNat (n % 256)

/-- The encodings with an alphabet within one byte see only the low byte of each 16-bit unit. -/
def Encoding.encode (e : Encoding) (text : String) : Bytes :=
  match e with
  | .utf8 => encodeUtf8 text
  | .latin1 | .ascii => (lowChars text).map fun c => UInt8.ofNat c.toNat
  | .hex => bytesOfHex (lowChars text)
  | .base64 | .base64url => bytesOfBase64 (lowChars text)
  | .utf16le => (units text).flatMap bytesOfUnit

end Inliner.Text
