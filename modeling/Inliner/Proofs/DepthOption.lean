import Inliner.CommandLine
import Inliner.Proofs.Grammar
import Inliner.Proofs.Loading
import Inliner.Proofs.Magnitude

/-! The depth on the command line is the number of its digits, rounded. It is a valid limit below `2
^ 1024 - 2 ^ 970`, and from there on infinite, which only the settings refuse. -/
namespace Inliner

open Text (isBlank trimChars)

theorem Text.not_isDigit_of_isBlank {c : Char} (h : isBlank c = true) : c.isDigit = false := by
  rw [Bool.eq_false_iff, ne_eq, Char.isDigit_iff_toNat]
  have hzero : '0'.toNat = 48 := rfl
  have hnine : '9'.toNat = 57 := rfl
  simp only [isBlank, Bool.or_eq_true, Bool.and_eq_true, decide_eq_true_eq, beq_iff_eq] at h
  omega

theorem Number.ofDigitChars_pos_iff {ds : List Char} (hdigits : ∀ c ∈ ds, c.isDigit) (init : ℕ) :
    0 < Nat.ofDigitChars 10 ds init ↔ 0 < init ∨ ∃ c ∈ ds, c ≠ '0' := by
  induction ds generalizing init with
  | nil => simp
  | cons c ds ih =>
    obtain ⟨hc, hds⟩ := List.forall_mem_cons.mp hdigits
    have hzero : c = '0' ↔ c.toNat - '0'.toNat = 0 := by
      have hbounds := Char.isDigit_iff_toNat.mp hc
      rw [← Char.toNat_inj]
      omega
    have hsum : 0 < 10 * init + (c.toNat - '0'.toNat) ↔ 0 < init ∨ ¬c.toNat - '0'.toNat = 0 := by
      omega
    rw [Nat.ofDigitChars_cons, ih hds, List.exists_mem_cons_iff, ne_eq, hzero, hsum, or_assoc]

namespace Number

theorem foldl_digits {ds : List Char} (hdigits : ∀ c ∈ ds, c.isDigit) (init : ℕ) :
    ds.foldl (fun acc c => do
      let v ← acc
      let d ← Text.hexValue? c
      if d < 10 then some (v * 10 + d) else none) (some init) =
      some (Nat.ofDigitChars 10 ds init) := by
  induction ds generalizing init with
  | nil => rfl
  | cons c ds ih =>
    obtain ⟨hc, hds⟩ := List.forall_mem_cons.mp hdigits
    have hvalue : Text.hexValue? c = some (c.toNat - '0'.toNat) := by
      rw [Text.hexValue?, if_pos hc]
    have hbound : c.toNat - '0'.toNat < 10 := by
      have hbounds := (Char.isDigit_iff_toNat.mp hc).2
      have hzero : '0'.toNat = 48 := rfl
      have hnine : '9'.toNat = 57 := rfl
      omega
    rw [List.foldl_cons, Nat.ofDigitChars_cons, ← ih hds]
    simp only [hvalue, Option.bind_eq_bind, Option.bind_some, if_pos hbound, Nat.mul_comm]

theorem natInBase?_digits {ds : List Char} (hne : ds ≠ []) (hdigits : ∀ c ∈ ds, c.isDigit) :
    natInBase? 10 ds = some (Nat.ofDigitChars 10 ds 0) := by
  rw [natInBase?, if_neg (by simpa using hne)]
  exact foldl_digits hdigits 0

theorem leadingInteger_digits {cs : List Char} (hne : trimChars cs ≠ [])
    (hdigits : ∀ c ∈ trimChars cs, c.isDigit) :
    leadingInteger cs = ofNat (Nat.ofDigitChars 10 (trimChars cs) 0) := by
  obtain ⟨before, after, hbefore, hafter, hcs⟩ := Text.exists_trimChars cs
  generalize trimChars cs = ds at *
  obtain ⟨d, rest, rfl⟩ := List.exists_cons_of_ne_nil hne
  have hd : d.isDigit = true := hdigits d List.mem_cons_self
  have hink : isBlank d = false := by
    rw [Bool.eq_false_iff]
    intro hblank
    rw [Text.not_isDigit_of_isBlank hblank] at hd
    cases hd
  have hleft : Text.trimLeft cs = d :: rest ++ after := by
    rw [hcs, List.append_assoc, Text.trimLeft]
    exact Text.dropWhile_isBlank_append hbefore (by simpa using hink)
  have hsign : sign (d :: rest ++ after) = (false, d :: rest ++ after) := by
    have hminus : d ≠ '-' := by rintro rfl; simp at hd
    have hplus : d ≠ '+' := by rintro rfl; simp at hd
    rw [sign] <;> simp [hminus, hplus]
  have hstop : after.takeWhile Char.isDigit = [] := by
    cases after with
    | nil => rfl
    | cons c after =>
      have hc := Text.not_isDigit_of_isBlank (hafter c List.mem_cons_self)
      rw [List.takeWhile_cons, hc]
      rfl
  have htaken : (d :: rest ++ after).takeWhile Char.isDigit = d :: rest := by
    rw [List.takeWhile_append_of_pos hdigits, hstop, List.append_nil]
  rw [leadingInteger, hleft, hsign]
  dsimp only
  rw [htaken, natInBase?_digits hne hdigits]
  rfl

theorem exceededBy_one_ofNat (n : ℕ) : (ofNat n).exceededBy 1 = decide (n = 0) := by
  rcases Nat.lt_or_ge (2 ^ 53) n with hlarge | hsmall
  · obtain ⟨m, -, hlow, -, hof⟩ := ofNat_of_lt hlarge
    have hn : n ≠ 0 := by omega
    have hm : 0 < m * 2 ^ (n.log2 - 52) := Nat.mul_pos (by omega) (Nat.two_pow_pos _)
    rw [hof]
    split
    · simp [exceededBy, hn]
    · simp [exceededBy, hn]
      omega
  · rw [ofNat_of_le hsmall, exceededBy_count]
    simp

end Number

namespace CommandLine

variable {s : String}

/-- The form of a depth, between blanks. -/
structure IsDepth (s : String) : Prop where
  nonempty : Text.trim s ≠ ""
  digits : ∀ c ∈ (Text.trim s).toList, c.isDigit = true
  positive : ∃ c ∈ (Text.trim s).toList, c ≠ '0'

def depthValue (s : String) : ℕ := Nat.ofDigitChars 10 (Text.trim s).toList 0

theorem toList_trim : (Text.trim s).toList = trimChars s.toList := by simp [Text.trim]

theorem IsDepth.value_pos (h : IsDepth s) : 0 < depthValue s :=
  (Number.ofDigitChars_pos_iff h.digits 0).mpr (.inr h.positive)

theorem parseDepth?_of_isDepth (h : IsDepth s) :
    parseDepth? s = some (Number.ofNat (depthValue s)) := by
  have hdigits : ∀ c ∈ trimChars s.toList, c.isDigit = true := toList_trim ▸ h.digits
  have hne : trimChars s.toList ≠ [] := by
    intro hempty
    exact h.nonempty (by rw [Text.trim, hempty])
  have hread : Number.leadingInteger s.toList = Number.ofNat (depthValue s) := by
    rw [Number.leadingInteger_digits hne hdigits, depthValue, toList_trim]
  have hpositive : depthValue s ≠ 0 := h.value_pos.ne'
  rw [parseDepth?]
  dsimp only
  rw [hread, Number.exceededBy_one_ofNat, if_neg, if_neg (by simpa using hpositive)]
  simpa [hne] using hdigits

theorem parseDepth?_of_not_isDepth (h : ¬IsDepth s) : parseDepth? s = none := by
  rw [parseDepth?]
  dsimp only
  split
  · rfl
  · next hform =>
    obtain ⟨hne, hdigits⟩ : trimChars s.toList ≠ [] ∧
        ∀ c ∈ trimChars s.toList, c.isDigit = true := by
      simpa using hform
    have hzero : Nat.ofDigitChars 10 (trimChars s.toList) 0 = 0 := by
      by_contra hvalue
      refine h ⟨?_, toList_trim ▸ hdigits, ?_⟩
      · intro hempty
        exact hne (by rw [← toList_trim, hempty]; rfl)
      · have hpos := (Number.ofDigitChars_pos_iff hdigits 0).mp (Nat.pos_of_ne_zero hvalue)
        exact toList_trim ▸ hpos.resolve_left (lt_irrefl 0)
    rw [Number.leadingInteger_digits hne hdigits, hzero]
    rfl

end CommandLine

theorem Config.ofOptions_number (cwd : Names) (debug : Value) (n : Number) {base : String}
    (hbase : base ≠ "") :
    ofOptions cwd ⟨debug, .number n, .text base⟩ =
      if n.isPositiveInteger then
        .ok ⟨debug.orElse (.bool defaultDebug), n, Path.resolve cwd base⟩
      else complain (.depth (.number n)) := by
  have hgiven : (Value.text base).isTruthy = true := by simpa [Value.isTruthy] using hbase
  have hdepth : depthOf (.number n) =
      if n.isPositiveInteger then .ok n else complain (.depth (.number n)) := by
    cases hn : n.isPositiveInteger <;>
      simp [depthOf, Value.orElse, Value.isMissing, positiveInteger?, hn]
  rw [ofOptions, hdepth]
  dsimp only
  rw [hgiven]
  cases n.isPositiveInteger <;> rfl

namespace CommandLine

/-- A depth is read exactly if it is digits between blanks, not all of them zero, and anything else
ends the run. Its number is that of the digits up to `2 ^ 53`. It is a valid limit, with any base
directory, exactly if the number of the digits does not overflow; else it is infinite. -/
theorem depth_validators_agree_iff (s : String) :
    ((∃ n, parseDepth? s = some n) ↔ IsDepth s) ∧
    (¬IsDepth s → ∀ p : Parsed, p.setFlag .maxDepth s = .error (.invalidDepth s)) ∧
    ∀ n, parseDepth? s = some n →
      (depthValue s ≤ 2 ^ 53 → n.value? = some (depthValue s : ℚ)) ∧
      (∀ (cwd : Names) (debug : Value) (base : String), base ≠ "" →
        ((∃ c, Config.ofOptions cwd ⟨debug, .number n, .text base⟩ = .ok c) ↔
          depthValue s < Number.overflow)) ∧
      (Number.overflow ≤ depthValue s → n = .infinite false) := by
  refine ⟨⟨?_, fun h => ⟨_, parseDepth?_of_isDepth h⟩⟩, fun h p => ?_, fun n hn => ?_⟩
  · rintro ⟨n, hn⟩
    by_contra h
    rw [parseDepth?_of_not_isDepth h] at hn
    cases hn
  · rw [Parsed.setFlag, parseDepth?_of_not_isDepth h]
  · have h : IsDepth s := by
      by_contra h
      rw [parseDepth?_of_not_isDepth h] at hn
      cases hn
    rw [parseDepth?_of_isDepth h] at hn
    obtain rfl := Option.some.inj hn
    refine ⟨fun hsmall => ?_, fun cwd debug base hbase => ?_, fun hlarge => ?_⟩
    · rw [Number.ofNat_of_le hsmall, Number.value?_count]
    · rw [Config.ofOptions_number cwd debug _ hbase,
        ← Number.isPositiveInteger_ofNat_iff h.value_pos]
      split
      · next hvalid => exact iff_of_true ⟨_, rfl⟩ hvalid
      · next hvalid => exact iff_of_false (by simp [Config.complain]) hvalid
    · exact (Number.ofNat_eq_infinite_iff (Number.lt_of_overflow_le hlarge)).mpr hlarge

theorem depth_validators_agree_seven :
    parseDepth? " 007\n" = some (.count 7) ∧ IsDepth " 007\n" ∧
    ∃ c, Config.ofOptions ["w"] ⟨.absent, .number (.count 7), .text "lib"⟩ = .ok c := by
  have hread : parseDepth? " 007\n" = some (.count 7) := by decide +kernel
  have hvalue : depthValue " 007\n" = 7 := by decide +kernel
  obtain ⟨hform, -, hvalid⟩ := depth_validators_agree_iff " 007\n"
  refine ⟨hread, hform.mp ⟨_, hread⟩, ((hvalid _ hread).2.1 _ _ _ (by decide)).mpr ?_⟩
  rw [hvalue]
  by_contra h
  have hlarge := Number.lt_of_overflow_le (not_lt.mp h)
  omega

def tooManyDigits : String := String.ofList ('1' :: List.replicate 309 '0')

/-- A depth that is read, and that no run accepts. -/
theorem tooManyDigits_refused :
    IsDepth tooManyDigits ∧ parseDepth? tooManyDigits = some (.infinite false) ∧
    Config.ofOptions ["w"] ⟨.absent, .number (.infinite false), .text "lib"⟩ =
      Config.complain (.depth (.number (.infinite false))) := by
  have hchars : tooManyDigits.toList = '1' :: List.replicate 309 '0' := String.toList_ofList
  have hread : parseDepth? tooManyDigits = some (.infinite false) := by
    rw [parseDepth?, hchars]
    decide +kernel
  refine ⟨?_, hread, rfl⟩
  by_contra h
  rw [parseDepth?_of_not_isDepth h] at hread
  cases hread

end CommandLine
end Inliner
