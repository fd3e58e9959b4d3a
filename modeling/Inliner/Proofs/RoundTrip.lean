import Inliner.Text.Encoding
import Inliner.Text.Lines
import Mathlib

/-! Texts that are written and read back, in UTF-8 and line by line. -/
namespace Inliner.Text

theorem toNat_byte {n : Nat} (h : n < 256) : (UInt8.ofNat n).toNat = n := by
  rw [UInt8.toNat_ofNat', Nat.mod_eq_of_lt h]

theorem decodeUtf8Chars_first (b : UInt8) (rest : Bytes) :
    decodeUtf8Chars none (b :: rest) = (beginChar b).1 ++ decodeUtf8Chars (beginChar b).2 rest := by
  rw [decodeUtf8Chars, readByte]

theorem decodeUtf8Chars_last {low high bits n : Nat} (hn : n < 256) (hlow : low ≤ n)
    (hhigh : n ≤ high) (rest : Bytes) :
    decodeUtf8Chars (some ⟨1, low, high, bits⟩) (UInt8.ofNat n :: rest) =
      Char.ofNat (bits * 0x40 + n % 0x40) :: decodeUtf8Chars none rest := by
  have hbyte := toNat_byte hn
  rw [decodeUtf8Chars, readByte, if_pos (by simp only [hbyte]; omega), continueChar]
  simp [hbyte]

theorem decodeUtf8Chars_next {needed low high bits n : Nat} (hn : n < 256) (hlow : low ≤ n)
    (hhigh : n ≤ high) (rest : Bytes) :
    decodeUtf8Chars (some ⟨needed + 2, low, high, bits⟩) (UInt8.ofNat n :: rest) =
      decodeUtf8Chars (some ⟨needed + 1, 0x80, 0xBF, bits * 0x40 + n % 0x40⟩) rest := by
  have hbyte := toNat_byte hn
  rw [decodeUtf8Chars, readByte, if_pos (by simp only [hbyte]; omega), continueChar]
  simp [hbyte]

theorem decodeUtf8Chars_two {v : Nat} (hlow : 0x80 ≤ v) (hhigh : v < 0x800) (rest : Bytes) :
    decodeUtf8Chars none (UInt8.ofNat (v / 64 % 32 + 192) :: UInt8.ofNat (v % 64 + 128) :: rest) =
      Char.ofNat v :: decodeUtf8Chars none rest := by
  have hfirst : beginChar (UInt8.ofNat (v / 64 % 32 + 192)) =
      ([], some ⟨1, 0x80, 0xBF, v / 64⟩) := by
    rw [beginChar, toNat_byte (by omega)]
    rw [if_neg (by omega), if_neg (by omega), if_pos (by omega),
      show (v / 64 % 32 + 192) % 0x20 = v / 64 by omega]
  rw [decodeUtf8Chars_first, hfirst, List.nil_append,
    decodeUtf8Chars_last (by omega) (by omega) (by omega),
    show v / 64 * 0x40 + (v % 64 + 128) % 0x40 = v by omega]

theorem decodeUtf8Chars_three {v : Nat} (hlow : 0x800 ≤ v) (hhigh : v < 0x10000)
    (hvalid : v < 0xD800 ∨ 0xDFFF < v) (rest : Bytes) :
    decodeUtf8Chars none (UInt8.ofNat (v / 4096 % 16 + 224) ::
      UInt8.ofNat (v / 64 % 64 + 128) :: UInt8.ofNat (v % 64 + 128) :: rest) =
      Char.ofNat v :: decodeUtf8Chars none rest := by
  have hfirst : beginChar (UInt8.ofNat (v / 4096 % 16 + 224)) =
      ([], some ⟨2, if v / 4096 % 16 + 224 = 0xE0 then 0xA0 else 0x80,
        if v / 4096 % 16 + 224 = 0xED then 0x9F else 0xBF, v / 4096⟩) := by
    rw [beginChar, toNat_byte (by omega)]
    rw [if_neg (by omega), if_neg (by omega), if_neg (by omega), if_pos (by omega),
      show (v / 4096 % 16 + 224) % 0x10 = v / 4096 by omega]
  rw [decodeUtf8Chars_first, hfirst, List.nil_append,
    decodeUtf8Chars_next (by omega) (by split <;> omega) (by split <;> omega),
    decodeUtf8Chars_last (by omega) (by omega) (by omega),
    show (v / 4096 * 0x40 + (v / 64 % 64 + 128) % 0x40) * 0x40 + (v % 64 + 128) % 0x40 = v by omega]

theorem decodeUtf8Chars_four {v : Nat} (hlow : 0x10000 ≤ v) (hhigh : v < 0x110000)
    (rest : Bytes) :
    decodeUtf8Chars none (UInt8.ofNat (v / 262144 % 8 + 240) ::
      UInt8.ofNat (v / 4096 % 64 + 128) :: UInt8.ofNat (v / 64 % 64 + 128) ::
      UInt8.ofNat (v % 64 + 128) :: rest) =
      Char.ofNat v :: decodeUtf8Chars none rest := by
  have hfirst : beginChar (UInt8.ofNat (v / 262144 % 8 + 240)) =
      ([], some ⟨3, if v / 262144 % 8 + 240 = 0xF0 then 0x90 else 0x80,
        if v / 262144 % 8 + 240 = 0xF4 then 0x8F else 0xBF, v / 262144⟩) := by
    rw [beginChar, toNat_byte (by omega)]
    rw [if_neg (by omega), if_neg (by omega), if_neg (by omega), if_neg (by omega),
      if_pos (by omega), show (v / 262144 % 8 + 240) % 8 = v / 262144 by omega]
  have hbits : ((v / 262144 * 0x40 + (v / 4096 % 64 + 128) % 0x40) * 0x40 +
      (v / 64 % 64 + 128) % 0x40) * 0x40 + (v % 64 + 128) % 0x40 = v := by omega
  rw [decodeUtf8Chars_first, hfirst, List.nil_append,
    decodeUtf8Chars_next (by omega) (by split <;> omega) (by split <;> omega),
    decodeUtf8Chars_next (by omega) (by omega) (by omega),
    decodeUtf8Chars_last (by omega) (by omega) (by omega), hbits]

theorem decodeUtf8Chars_encodeChar (c : Char) (rest : Bytes) :
    decodeUtf8Chars none (String.utf8EncodeChar c ++ rest) = c :: decodeUtf8Chars none rest := by
  have hvalid : c.val.toNat < 0xD800 ∨ 0xDFFF < c.val.toNat ∧ c.val.toNat < 0x110000 := c.valid
  have hchar : Char.ofNat c.val.toNat = c := Char.ofNat_toNat c
  unfold String.utf8EncodeChar
  dsimp only
  split
  · have hfirst : beginChar (UInt8.ofNat c.val.toNat) = ([c], none) := by
      rw [beginChar, toNat_byte (by omega), if_pos (by omega), hchar]
    rw [List.singleton_append, decodeUtf8Chars_first, hfirst, List.singleton_append]
  · split
    · rw [List.cons_append, List.singleton_append, decodeUtf8Chars_two (by omega) (by omega), hchar]
    · split
      · rw [List.cons_append, List.cons_append, List.singleton_append,
          decodeUtf8Chars_three (by omega) (by omega) (by omega), hchar]
      · rw [List.cons_append, List.cons_append, List.cons_append, List.singleton_append,
          decodeUtf8Chars_four (by omega) (by omega), hchar]

theorem decodeUtf8_encodeUtf8 (text : String) : decodeUtf8 (encodeUtf8 text) = text := by
  have hchars (cs : List Char) : decodeUtf8Chars none (cs.flatMap String.utf8EncodeChar) = cs := by
    induction cs with
    | nil => rfl
    | cons c cs ih => rw [List.flatMap_cons, decodeUtf8Chars_encodeChar, ih]
  rw [decodeUtf8, encodeUtf8, hchars, String.ofList_toList]

theorem lineChars_append {cs : List Char} (h : '\n' ∉ cs) (rest : List Char) :
    lineChars (cs ++ '\n' :: rest) = cs :: lineChars rest := by
  induction cs with
  | nil => rw [List.nil_append, lineChars, if_pos rfl]
  | cons c cs ih =>
    have hc : c ≠ '\n' := fun he => h (by simp [he])
    rw [List.cons_append, lineChars, if_neg hc, ih fun hmem => h (List.mem_cons_of_mem c hmem)]

theorem toList_renderLines (lines : List String) :
    (renderLines lines).toList = lines.flatMap fun line => line.toList ++ ['\n'] := by
  induction lines with
  | nil => rfl
  | cons line rest ih =>
    rw [List.flatMap_cons, ← ih]
    simp [renderLines]

/-- Lines that are written come before those of what is written behind them. -/
theorem splitLines_renderLines_append {lines : List String}
    (h : ∀ line ∈ lines, '\n' ∉ line.toList) (text : String) :
    splitLines (renderLines lines ++ text) = lines ++ splitLines text := by
  rw [splitLines, String.toList_append, toList_renderLines]
  induction lines with
  | nil => rfl
  | cons line rest ih =>
    rw [List.flatMap_cons, List.append_assoc, List.append_assoc, List.singleton_append,
      lineChars_append (h line (by simp)), List.map_cons, String.ofList_toList,
      ih fun l hl => h l (List.mem_cons_of_mem line hl), List.cons_append]

theorem splitLines_renderLines {lines : List String} (h : ∀ line ∈ lines, '\n' ∉ line.toList) :
    splitLines (renderLines lines) = lines := by
  have hbehind := splitLines_renderLines_append h ""
  have hempty : splitLines "" = [] := rfl
  rwa [String.append_empty, hempty, List.append_nil] at hbehind

theorem not_mem_of_mem_lineChars {cs line : List Char} (h : line ∈ lineChars cs) :
    '\n' ∉ line := by
  induction cs generalizing line with
  | nil => simp [lineChars] at h
  | cons c rest ih =>
    rw [lineChars] at h
    split at h
    · rcases List.mem_cons.mp h with rfl | h
      · simp
      · exact ih h
    · rename_i hc
      have hne : '\n' ≠ c := fun he => hc he.symm
      cases hlines : lineChars rest with
      | nil =>
        rw [hlines] at h
        rw [List.mem_singleton.mp h]
        simpa using hne
      | cons first more =>
        rw [hlines] at h ih
        rcases List.mem_cons.mp h with rfl | h
        · exact List.not_mem_cons_of_ne_of_not_mem hne (ih (by simp))
        · exact ih (List.mem_cons_of_mem first h)

theorem newline_not_mem_of_mem_splitLines {text line : String} (h : line ∈ splitLines text) :
    '\n' ∉ line.toList := by
  obtain ⟨cs, hcs, rfl⟩ := List.mem_map.mp h
  rw [String.toList_ofList]
  exact not_mem_of_mem_lineChars hcs

end Inliner.Text
