import Inliner.Number
import Mathlib

/-! The checks on numbers as facts about rational ones. A natural number beyond `2 ^ 53` is rounded
to 53 bits, and overflows from the middle of the last gap on. -/
namespace Inliner.Number

def value? : Number → Option ℚ
  | .finite negative m e => some ((if negative then -1 else 1) * m * 2 ^ e)
  | _ => none

theorem value?_count (n : ℕ) : (count n).value? = some (n : ℚ) := by
  simp [count, value?]

theorem isInteger_iff {n : Number} : n.isInteger = true ↔ ∃ z : ℤ, n.value? = some (z : ℚ) := by
  cases n with
  | nan => simp [isInteger, value?]
  | infinite negative => simp [isInteger, value?]
  | finite negative m e =>
    rcases le_or_gt 0 e with he | he
    · obtain ⟨k, rfl⟩ := Int.eq_ofNat_of_zero_le he
      refine iff_of_true (by simp [isInteger]) ⟨(if negative then -1 else 1) * m * 2 ^ k, ?_⟩
      cases negative <;> simp [value?]
    · obtain ⟨k, rfl⟩ : ∃ k : ℕ, e = -(k : ℤ) := ⟨(-e).toNat, by omega⟩
      have hk : k ≠ 0 := by omega
      have hpow : (2 : ℚ) ^ k ≠ 0 := by positivity
      have hchecked : (Number.finite negative m (-(k : ℤ))).isInteger = true ↔ 2 ^ k ∣ m := by
        simp [isInteger, Nat.dvd_iff_mod_eq_zero, hk]
      rw [hchecked]
      constructor
      · rintro ⟨d, rfl⟩
        refine ⟨(if negative then -1 else 1) * d, ?_⟩
        cases negative <;> simp [value?] <;> field_simp
      · rintro ⟨z, hz⟩
        have hvalue := Option.some.inj hz
        rw [zpow_neg, zpow_natCast, ← div_eq_mul_inv, div_eq_iff hpow] at hvalue
        refine Int.natCast_dvd_natCast.mp ?_
        cases negative with
        | true =>
          rw [if_pos rfl] at hvalue
          refine ⟨-z, ?_⟩
          have hm : (m : ℚ) = 2 ^ k * -z := by linear_combination -hvalue
          exact_mod_cast hm
        | false =>
          rw [if_neg Bool.false_ne_true] at hvalue
          refine ⟨z, ?_⟩
          have hm : (m : ℚ) = 2 ^ k * z := by linear_combination hvalue
          exact_mod_cast hm

theorem isPositiveInteger_iff {n : Number} :
    n.isPositiveInteger = true ↔ ∃ d : ℕ, 0 < d ∧ n.value? = some (d : ℚ) := by
  have hparts : n.isPositiveInteger = true ↔
      n.isInteger = true ∧ n.isNegative = false ∧ n.isZero = false := by
    simp [isPositiveInteger, and_assoc]
  rw [hparts, isInteger_iff]
  cases n with
  | nan => simp [value?]
  | infinite negative => simp [value?]
  | finite negative m e =>
    have hpow : (0 : ℚ) < 2 ^ e := by positivity
    constructor
    · rintro ⟨⟨z, hz⟩, hsign, hzero⟩
      obtain rfl : negative = false := hsign
      have hm : 0 < m := by simpa [isZero, Nat.pos_iff_ne_zero] using hzero
      have hvalue : (0 : ℚ) < z := by
        rw [← Option.some.inj hz]
        simp [hm, hpow]
      refine ⟨z.toNat, by exact_mod_cast Int.lt_toNat.mpr (by exact_mod_cast hvalue), ?_⟩
      rw [hz]
      congr 1
      exact_mod_cast (Int.toNat_of_nonneg (by exact_mod_cast hvalue.le)).symm
    · rintro ⟨d, hd, hvalue⟩
      refine ⟨⟨d, by exact_mod_cast hvalue⟩, ?_⟩
      have hd : (0 : ℚ) < (if negative then -1 else 1) * m * 2 ^ e := by
        rw [Option.some.inj hvalue]
        exact_mod_cast hd
      have hm : 0 < ((if negative then -1 else 1) * m : ℚ) := pos_of_mul_pos_left hd hpow.le
      have hm0 : (0 : ℚ) ≤ m := Nat.cast_nonneg m
      cases negative with
      | true => simp at hm; linarith
      | false => exact ⟨rfl, by simpa [isZero, Nat.pos_iff_ne_zero] using hm⟩

/-! ### Rounding to 53 bits -/

theorem roundDiv_le (num den : ℕ) : roundDiv num den ≤ num / den + 1 := by
  have hparity : num / den % 2 ≤ 1 := by omega
  simp only [roundDiv]
  split
  · omega
  · split <;> omega

theorem div_le_roundDiv (num den : ℕ) : num / den ≤ roundDiv num den := by
  simp only [roundDiv]
  split
  · omega
  · split <;> omega

theorem lt_roundDiv_iff {num den : ℕ} (hodd : num / den % 2 = 1) :
    num / den < roundDiv num den ↔ den ≤ 2 * (num % den) := by
  simp only [roundDiv, hodd]
  split
  · omega
  · split <;> omega

theorem lastPlace_nat {n : ℕ} (hn : 2 ^ 53 ≤ n) : lastPlace n 1 = (n.log2 : ℤ) - 52 := by
  have hlog : 53 ≤ n.log2 := (Nat.le_log2 (by omega)).mpr hn
  have hscale : binaryScale n 1 = n.log2 := by
    have hself : 2 ^ n.log2 ≤ n := Nat.log2_self_le (by omega)
    have hone : Nat.log2 1 = 0 := by decide
    simp [binaryScale, hone, hself]
  rw [lastPlace, hscale]
  omega

theorem ofNat_of_lt {n : ℕ} (hn : 2 ^ 53 < n) :
    ∃ m : ℕ, m = roundDiv n (2 ^ (n.log2 - 52)) ∧ 2 ^ 52 ≤ m ∧ m ≤ 2 ^ 53 ∧
      ofNat n = if 1024 ≤ m.log2 + (n.log2 - 52) then .infinite false
        else .finite false m (n.log2 - 52 : ℕ) := by
  have hlog : 53 ≤ n.log2 := (Nat.le_log2 (by omega)).mpr hn.le
  have hpos : 0 < 2 ^ (n.log2 - 52) := by positivity
  refine ⟨_, rfl, ?_, ?_, ?_⟩
  · refine le_trans ?_ (div_le_roundDiv _ _)
    rw [Nat.le_div_iff_mul_le hpos, ← pow_add]
    have hexp : 52 + (n.log2 - 52) = n.log2 := by omega
    rw [hexp]
    exact Nat.log2_self_le (by omega)
  · refine le_trans (roundDiv_le _ _) ?_
    have hlt : n / 2 ^ (n.log2 - 52) < 2 ^ 53 := by
      rw [Nat.div_lt_iff_lt_mul hpos, ← pow_add]
      have hexp : 53 + (n.log2 - 52) = n.log2 + 1 := by omega
      rw [hexp]
      exact Nat.lt_log2_self
    omega
  · have hbound : ¬n ≤ Nat.pow 2 53 := not_le.mpr hn
    have hzero : n ≠ 0 := by omega
    have he : lastPlace n 1 = (n.log2 - 52 : ℕ) := by
      rw [lastPlace_nat hn.le]
      omega
    have hsign : ¬((n.log2 - 52 : ℕ) : ℤ) < 0 := by omega
    rw [ofNat, if_neg hbound, ofRatio, if_neg hzero, he]
    dsimp only
    rw [if_neg hsign, Int.toNat_natCast, one_mul, Nat.pow_eq]
    norm_cast

theorem log2_of_bounds {m : ℕ} (hlow : 2 ^ 52 ≤ m) (hhigh : m ≤ 2 ^ 53) :
    m.log2 = if m = 2 ^ 53 then 53 else 52 := by
  split
  · next h => rw [h, Nat.log2_two_pow]
  · next h => exact (Nat.log2_eq_iff (by omega)).mpr ⟨hlow, by omega⟩

/-- The least natural number that is too large for a finite number: `2 ^ 1024` less half of the last
place of the greatest finite number. -/
def overflow : ℕ := 2 ^ 1024 - 2 ^ 970

theorem lt_of_overflow_le {n : ℕ} (h : overflow ≤ n) : 2 ^ 53 < n := by
  have htop : (2 : ℕ) ^ 1024 = 2 ^ 54 * 2 ^ 970 := by rw [← pow_add]
  have hpos : 0 < 2 ^ 970 := by positivity
  rw [overflow, htop] at h
  generalize (2 : ℕ) ^ 970 = d at hpos h
  omega

/-- In the last range of finite numbers, the quotient by the last place is rounded up to `2 ^ 53`
exactly from the middle on. -/
theorem roundDiv_eq_iff {n d : ℕ} (hd : 0 < d) (hn : n < 2 ^ 53 * (2 * d)) :
    roundDiv n (2 * d) = 2 ^ 53 ↔ 2 ^ 54 * d - d ≤ n := by
  have hsplit := Nat.div_add_mod n (2 * d)
  have hquotient : n / (2 * d) < 2 ^ 53 := Nat.div_lt_of_lt_mul (by rw [mul_comm]; exact hn)
  rcases Nat.lt_or_ge (n / (2 * d)) (2 ^ 53 - 1) with hsmall | hlarge
  · have hle := roundDiv_le n (2 * d)
    have hmod := Nat.mod_lt n (Nat.mul_pos two_pos hd)
    have hprod : 2 * d * (n / (2 * d)) ≤ 2 * d * (2 ^ 53 - 2) := Nat.mul_le_mul_left _ (by omega)
    refine iff_of_false (by omega) (by omega)
  · have hlast : n / (2 * d) = 2 ^ 53 - 1 := by omega
    have hodd : n / (2 * d) % 2 = 1 := by omega
    have hround := lt_roundDiv_iff hodd
    have hle := roundDiv_le n (2 * d)
    have hge := div_le_roundDiv n (2 * d)
    rw [hlast] at hround hle hge hsplit
    constructor
    · intro h
      have hmiddle := hround.mp (by omega)
      omega
    · intro h
      have hmiddle := hround.mpr (by omega)
      omega

theorem ofNat_eq_infinite_iff {n : ℕ} (hn : 2 ^ 53 < n) :
    ofNat n = .infinite false ↔ overflow ≤ n := by
  obtain ⟨m, hm, hlow, hhigh, hof⟩ := ofNat_of_lt hn
  have hlog : 53 ≤ n.log2 := (Nat.le_log2 (by omega)).mpr hn.le
  have hself : 2 ^ n.log2 ≤ n := Nat.log2_self_le (by omega)
  have hnext : n < 2 ^ (n.log2 + 1) := Nat.lt_log2_self
  have hchecked : ofNat n = .infinite false ↔ 1024 ≤ m.log2 + (n.log2 - 52) := by
    rw [hof]
    split
    · next h => exact iff_of_true rfl h
    · next h => exact iff_of_false (by simp) h
  have htop : (2 : ℕ) ^ 1024 = 2 ^ 54 * 2 ^ 970 := by rw [← pow_add]
  rw [hchecked, log2_of_bounds hlow hhigh, overflow, htop]
  have hpos : 0 < 2 ^ 970 := by positivity
  rcases Nat.lt_trichotomy n.log2 1023 with hlt | heq | hgt
  · have hsmall : n < 2 ^ 53 * 2 ^ 970 := by
      rw [← pow_add]
      exact lt_of_lt_of_le hnext (pow_le_pow_right₀ one_le_two (by omega))
    refine iff_of_false (by split <;> omega) ?_
    generalize (2 : ℕ) ^ 970 = d at hpos hsmall ⊢
    omega
  · have hunit : (2 : ℕ) ^ (n.log2 - 52) = 2 * 2 ^ 970 := by rw [heq, ← pow_succ']
    have hwithin : n < 2 ^ 53 * (2 * 2 ^ 970) := by
      have hexp : n.log2 + 1 = 53 + (n.log2 - 52) := by omega
      rwa [hexp, pow_add, hunit] at hnext
    rw [hunit] at hm
    rw [← roundDiv_eq_iff hpos hwithin, ← hm]
    split
    · next h => exact iff_of_true (by omega) h
    · next h => exact iff_of_false (by omega) h
  · have hlarge : 2 ^ 1024 ≤ n := le_trans (pow_le_pow_right₀ one_le_two (by omega)) hself
    refine iff_of_true (by split <;> omega) ?_
    rw [← htop]
    exact le_trans (Nat.sub_le _ _) hlarge

theorem isPositiveInteger_ofNat_iff {n : ℕ} (hn : 0 < n) :
    (ofNat n).isPositiveInteger = true ↔ n < overflow := by
  rcases Nat.lt_or_ge (2 ^ 53) n with hlarge | hsmall
  · rw [← not_le, ← ofNat_eq_infinite_iff hlarge]
    obtain ⟨m, -, hlow, -, hof⟩ := ofNat_of_lt hlarge
    have hm : m ≠ 0 := by omega
    rw [hof]
    split
    · simp [isPositiveInteger, isInteger]
    · simp [isPositiveInteger, isInteger, isNegative, isZero, hm]
  · have hbound : n < overflow := lt_of_not_ge fun h => absurd (lt_of_overflow_le h) hsmall.not_gt
    rw [ofNat_of_le hsmall]
    refine iff_of_true (isPositiveInteger_iff.mpr ⟨n, hn, value?_count n⟩) hbound

end Inliner.Number
