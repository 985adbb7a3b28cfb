import Mathlib.Algebra.Ring.Nat
import Mathlib.Data.Nat.Log
import SyntaxPack.Double.Basic
/-!
# SyntaxPack.Proofs.Double

Integers of 32 bits and the doubles that stand for them.

A positive integer below `2 ^ 53` is its own significand, shifted up to 53 bits, so
it is a double without any rounding. Hence `ofInt` and `integerPayload` are inverse
to one another on the integers of 32 bits: a number that is written as an integer
is read back bit for bit, and every integer that is read is written as one again. The
first of these holds of all integers below `2 ^ 53` (`ofInt_of_exactInt?`).
-/

namespace SyntaxPack

namespace Double

/-! ### Patterns -/

theorem toNat_bits_ofParts {negative : Bool} {n : Nat} (h : n < signBit) :
    (ofParts negative n).bits.toNat = (if negative then signBit else 0) + n := by
  simp only [ofParts]
  rw [UInt64.toNat_ofNat', Nat.mod_eq_of_lt]
  cases negative <;> simp [signBit] at * <;> omega

theorem unsignedBits_ofParts {negative : Bool} {n : Nat} (h : n < signBit) :
    (ofParts negative n).unsignedBits = n := by
  rw [unsignedBits, toNat_bits_ofParts h]
  cases negative
  · simpa using Nat.mod_eq_of_lt h
  · simpa using Nat.mod_eq_of_lt h

theorem isNegative_ofParts {negative : Bool} {n : Nat} (h : n < signBit) :
    (ofParts negative n).isNegative = negative := by
  rw [isNegative, toNat_bits_ofParts h]
  cases negative
  · simpa using h
  · simp

/-- A double is its sign and its unsigned pattern. -/
theorem eq_ofParts (d : Double) : d = ofParts d.isNegative d.unsignedBits := by
  obtain ⟨bits⟩ := d
  have hlt : bits.toNat < 2 * signBit := bits.toNat_lt
  have hmod : bits.toNat % signBit < signBit := Nat.mod_lt _ (by decide)
  have hbits : (ofParts (Double.isNegative ⟨bits⟩) (Double.unsignedBits ⟨bits⟩)).bits.toNat =
      bits.toNat := by
    refine (toNat_bits_ofParts hmod).trans ?_
    simp only [isNegative, decide_eq_true_eq, signBit] at hlt ⊢
    split <;> omega
  exact congrArg Double.mk (UInt64.toNat_inj.mp hbits).symm

/-! ### Integers without rounding -/

theorem roundRatio_one (n : Nat) : roundRatio n 1 = n := by
  simp [roundRatio, Nat.mod_one]

/-- The significand of a positive integer, shifted up to 53 bits. -/
theorem significand_bounds {n : Nat} (hpos : 0 < n) (hlog : n.log2 ≤ 52) :
    hiddenBit ≤ n * 2 ^ (52 - n.log2) ∧ n * 2 ^ (52 - n.log2) < 2 * hiddenBit := by
  have hlow : 2 ^ n.log2 ≤ n := Nat.log2_self_le (by omega)
  have hhigh : n < 2 ^ (n.log2 + 1) := Nat.lt_log2_self
  have hsplit : 2 ^ n.log2 * 2 ^ (52 - n.log2) = hiddenBit := by
    rw [← Nat.pow_add, Nat.add_sub_cancel' hlog]
  constructor
  · rw [← hsplit]
    exact Nat.mul_le_mul_right _ hlow
  · rw [← hsplit, ← Nat.mul_assoc, ← Nat.pow_succ']
    exact Nat.mul_lt_mul_of_pos_right hhigh (Nat.two_pow_pos _)

/-- Conversely, the shift that brings an integer up to 53 bits tells its length. -/
theorem log2_of_significand {n k : Nat} (hpos : 0 < n) (hlow : hiddenBit ≤ n * 2 ^ k)
    (hhigh : n * 2 ^ k < 2 * hiddenBit) : k ≤ 52 ∧ n.log2 = 52 - k := by
  have hk : k ≤ 52 := by
    by_contra hbig
    have hpow : 2 ^ 53 ≤ 2 ^ k := Nat.pow_le_pow_right (by decide) (Nat.not_le.mp hbig)
    have hmul := Nat.le_mul_of_pos_left (2 ^ k) hpos
    exact Nat.not_lt.mpr (Nat.le_trans hpow hmul) hhigh
  have hhidden : 2 ^ (52 - k) * 2 ^ k = hiddenBit := by
    rw [← Nat.pow_add, Nat.sub_add_cancel hk]
  refine ⟨hk, (Nat.log2_eq_iff (Nat.ne_of_gt hpos)).mpr ⟨?_, ?_⟩⟩
  · refine Nat.le_of_mul_le_mul_right ?_ (Nat.two_pow_pos k)
    rwa [hhidden]
  · refine Nat.lt_of_mul_lt_mul_right (a := 2 ^ k) ?_
    rwa [Nat.pow_succ', Nat.mul_assoc, hhidden]

/-- A positive integer of up to 53 bits is not rounded. -/
theorem nearestBits_one {n : Nat} (hpos : 0 < n) (hlog : n.log2 ≤ 52) :
    nearestBits n 1 = (n.log2 + 1022) * hiddenBit + n * 2 ^ (52 - n.log2) := by
  have hexponent : binaryExponent n 1 = n.log2 := by
    have hlow : 2 ^ n.log2 ≤ n := Nat.log2_self_le (by omega)
    have hone : Nat.log2 1 = 0 := by decide
    simp [binaryExponent, hone, Nat.not_lt.mpr hlow]
  have hq : max ((n.log2 : Int) - 52) (-1074) = n.log2 - 52 := by omega
  have hup : (-((n.log2 : Int) - 52)).toNat = 52 - n.log2 := by omega
  have hdown : ((n.log2 : Int) - 52).toNat = 0 := by omega
  have hbias : ((n.log2 : Int) - 52 + 1074).toNat = n.log2 + 1022 := by omega
  obtain ⟨-, hhigh⟩ := significand_bounds hpos hlog
  have hround : roundRatio (n * Nat.pow 2 (52 - n.log2)) (1 * Nat.pow 2 0) =
      n * 2 ^ (52 - n.log2) := roundRatio_one _
  simp only [nearestBits, if_neg (Nat.ne_of_gt hpos), hexponent, hq, hup, hdown, hbias, hround]
  refine Nat.min_eq_left ?_
  simp only [infinityBits, hiddenBit] at hhigh ⊢
  omega

/-- The double of a positive integer of up to 53 bits has the integer's significand
and the exponent that belongs to it. -/
theorem fields_ofRatio {negative : Bool} {n : Nat} (hpos : 0 < n) (hlog : n.log2 ≤ 52) :
    (ofRatio negative n 1).isNegative = negative ∧
      (ofRatio negative n 1).exponentField = n.log2 + 1023 ∧
      (ofRatio negative n 1).magnitude = n * 2 ^ (52 - n.log2) := by
  obtain ⟨hlow, hhigh⟩ := significand_bounds hpos hlog
  have hbits := nearestBits_one hpos hlog
  have hlt : nearestBits n 1 < signBit := by
    rw [hbits]
    simp only [signBit, hiddenBit] at hhigh ⊢
    omega
  have hexponent : (ofRatio negative n 1).exponentField = n.log2 + 1023 := by
    rw [exponentField, ofRatio, unsignedBits_ofParts hlt, hbits]
    simp only [hiddenBit] at hlow hhigh ⊢
    omega
  refine ⟨isNegative_ofParts hlt, hexponent, ?_⟩
  rw [magnitude, hexponent, if_neg (by omega), fractionField, ofRatio, unsignedBits_ofParts hlt,
    hbits]
  simp only [hiddenBit] at hlow hhigh ⊢
  omega

/-- A number is an integer if its numerator is a multiple of its denominator. -/
theorem toInt?_eq_some_iff {d : Double} {i : Int} : d.toInt? = some i ↔
    d.isFinite = true ∧ ∃ n : Nat, d.ratio.1 = n * d.ratio.2 ∧
      i = if d.isNegative then -(n : Int) else n := by
  have hpos : 0 < d.ratio.2 := Nat.two_pow_pos _
  simp only [toInt?, Bool.and_eq_true, decide_eq_true_eq]
  constructor
  · intro h
    split at h
    · rename_i hcond
      refine ⟨hcond.1, d.ratio.1 / d.ratio.2, ?_, (Option.some.inj h).symm⟩
      exact (Nat.div_mul_cancel (Nat.dvd_of_mod_eq_zero hcond.2)).symm
    · simp at h
  · rintro ⟨hfinite, n, hratio, rfl⟩
    rw [if_pos ⟨hfinite, by rw [hratio, Nat.mul_mod_left]⟩, hratio, Nat.mul_div_cancel n hpos]

theorem integerPayload_eq_some_iff {d : Double} {i : Int} : d.integerPayload = some i ↔
    d.isNegativeZero = false ∧ d.toInt? = some i ∧ isPayload i = true := by
  simp only [integerPayload, exactInt?, Option.filter_eq_some_iff]
  cases d.isNegativeZero <;> simp

/-- The 32-bit integers have at most 32 bits. -/
theorem log2_natAbs_le {i : Int} (h : isPayload i = true) : i.natAbs.log2 ≤ 52 := by
  simp only [isPayload, Bool.and_eq_true, decide_eq_true_eq] at h
  have hlt : i.natAbs < 2 ^ 53 := by omega
  by_cases hzero : i.natAbs = 0
  · simp [hzero]
  · exact Nat.le_of_lt_succ ((Nat.log2_lt hzero).mpr hlt)

/-- The double of a 32-bit integer is written as that integer. -/
theorem integerPayload_ofInt {i : Int} (h : isPayload i = true) :
    (ofInt i).integerPayload = some i := by
  rw [integerPayload_eq_some_iff]
  by_cases hzero : i = 0
  · subst hzero
    refine ⟨by decide, toInt?_eq_some_iff.mpr ⟨by decide, 0, ?_, by decide⟩, h⟩
    have hmagnitude : (ofInt 0).magnitude = 0 := by decide
    rw [ratio, hmagnitude, Nat.zero_mul, Nat.zero_mul]
  · have hpos : 0 < i.natAbs := Int.natAbs_pos.mpr hzero
    obtain ⟨hnegative, hexponent, hmagnitude⟩ :=
      @fields_ofRatio (decide (i < 0)) i.natAbs hpos (log2_natAbs_le h)
    have hfinite : (ofInt i).isFinite = true := by
      have := log2_natAbs_le h
      simp only [isFinite, ofInt, hexponent, decide_eq_true_eq]
      omega
    have hnonzero : (ofInt i).isZero = false := by
      have hfield : (ofInt i).exponentField ≠ 0 := by rw [ofInt, hexponent]; omega
      rw [isZero, decide_eq_false_iff_not]
      intro hbits
      rw [exponentField, hbits, Nat.zero_div] at hfield
      exact hfield rfl
    refine ⟨by simp [isNegativeZero, hnonzero], toInt?_eq_some_iff.mpr
      ⟨hfinite, i.natAbs, ?_, ?_⟩, h⟩
    · have hlog := log2_natAbs_le h
      have hscale : (ofInt i).scale = (i.natAbs.log2 : Int) - 52 := by
        rw [scale, ofInt, hexponent, if_neg (by omega)]
        omega
      have hup : ((i.natAbs.log2 : Int) - 52).toNat = 0 := by omega
      have hdown : (-((i.natAbs.log2 : Int) - 52)).toNat = 52 - i.natAbs.log2 := by omega
      simp only [ratio, hscale, hup, hdown]
      rw [ofInt, hmagnitude]
      exact Nat.mul_one _
    · rw [ofInt, hnegative]
      simp only [decide_eq_true_eq]
      split <;> omega

/-- A double below one is no positive integer. -/
theorem exponentField_ne_zero_of_ratio {d : Double} {n : Nat} (hpos : 0 < n)
    (h : d.ratio.1 = n * d.ratio.2) : d.exponentField ≠ 0 := by
  intro hzero
  have hfraction : d.fractionField < hiddenBit := Nat.mod_lt _ (by decide)
  have hscale : d.scale = -1074 := if_pos hzero
  have hmagnitude : d.magnitude = d.fractionField := if_pos hzero
  have hup : d.scale.toNat = 0 := by rw [hscale]; rfl
  have hdown : 52 ≤ (-d.scale).toNat := by rw [hscale]; decide
  have hratio : d.fractionField * 2 ^ d.scale.toNat = n * 2 ^ (-d.scale).toNat := hmagnitude ▸ h
  rw [hup, Nat.pow_zero, Nat.mul_one] at hratio
  have hbig : 2 ^ 52 ≤ 2 ^ (-d.scale).toNat := Nat.pow_le_pow_right (by decide) hdown
  have hmul := Nat.le_mul_of_pos_left (2 ^ (-d.scale).toNat) hpos
  exact Nat.not_lt.mpr (Nat.le_trans hbig hmul) (hratio ▸ hfraction)

/-- The pattern of a double that is equal to a positive integer of up to 53 bits is the
one that the integer is rounded to. -/
theorem unsignedBits_eq_of_ratio {d : Double} {n : Nat} (hpos : 0 < n) (hlt : n < 2 * hiddenBit)
    (h : d.ratio.1 = n * d.ratio.2) : d.unsignedBits = nearestBits n 1 := by
  have hfraction : d.fractionField < hiddenBit := Nat.mod_lt _ (by decide)
  have hsplit : d.exponentField * hiddenBit + d.fractionField = d.unsignedBits :=
    Nat.div_add_mod' _ _
  have hnormal := exponentField_ne_zero_of_ratio hpos h
  have hmagnitude : d.magnitude = hiddenBit + d.fractionField := if_neg hnormal
  have hscale : d.scale = (d.exponentField : Int) - 1075 := if_neg hnormal
  have hup : d.scale.toNat = d.exponentField - 1075 := by omega
  have hdown : (-d.scale).toNat = 1075 - d.exponentField := by omega
  have hratio : d.magnitude * 2 ^ d.scale.toNat = n * 2 ^ (-d.scale).toNat := h
  rw [hup, hdown, hmagnitude] at hratio
  rcases (Nat.lt_or_ge 1075 d.exponentField).symm with hexponent | hexponent
  · rw [Nat.sub_eq_zero_of_le hexponent, Nat.pow_zero, Nat.mul_one] at hratio
    -- the exponent tells the number of bits of the integer
    obtain ⟨hlow, hlog⟩ := log2_of_significand hpos (k := 1075 - d.exponentField)
      (hratio ▸ Nat.le_add_right _ _) (hratio ▸ by omega)
    have hshift : 52 - n.log2 = 1075 - d.exponentField := by omega
    have hbias : n.log2 + 1022 + 1 = d.exponentField := by omega
    rw [nearestBits_one hpos (by omega), hshift, ← hratio, ← hsplit, ← hbias, Nat.succ_mul,
      Nat.add_assoc]
  · rw [Nat.sub_eq_zero_of_le (Nat.le_of_lt hexponent), Nat.pow_zero, Nat.mul_one] at hratio
    have htwo : 2 ^ 1 ≤ 2 ^ (d.exponentField - 1075) := Nat.pow_le_pow_right (by decide) (by omega)
    have hmul := Nat.mul_le_mul (Nat.le_add_right hiddenBit d.fractionField) htwo
    omega

/-- Only the two zeros have no magnitude. -/
theorem unsignedBits_of_magnitude {d : Double} (h : d.magnitude = 0) : d.unsignedBits = 0 := by
  have hsplit : d.exponentField * hiddenBit + d.fractionField = d.unsignedBits :=
    Nat.div_add_mod' _ _
  rw [magnitude] at h
  split at h
  · rename_i hexponent
    rw [← hsplit, hexponent, h, Nat.zero_mul]
  · have : 0 < hiddenBit := by decide
    omega

/-- A number that is equal to an integer of up to 53 bits is the double of that integer. -/
theorem ofInt_of_exactInt? {d : Double} {i : Int} (h : d.exactInt? = some i)
    (hlt : i.natAbs < 2 * hiddenBit) : ofInt i = d := by
  have hnonzero : d.isNegativeZero = false := by
    by_contra hzero
    simp [exactInt?, hzero] at h
  have hint : d.toInt? = some i := by simpa [exactInt?, hnonzero] using h
  obtain ⟨hfinite, n, hratio, hi⟩ := toInt?_eq_some_iff.mp hint
  rw [eq_ofParts d, ofInt, ofRatio]
  by_cases hzero : n = 0
  · -- of the two zeros only the positive one is written as an integer
    subst hzero
    rw [Nat.zero_mul] at hratio
    have hmagnitude : d.magnitude = 0 := by
      have hpos : 0 < Nat.pow 2 d.scale.toNat := Nat.two_pow_pos _
      exact (Nat.mul_eq_zero.mp hratio).resolve_right (Nat.ne_of_gt hpos)
    have hbits := unsignedBits_of_magnitude hmagnitude
    have hsign : d.isNegative = false := by
      simpa [isNegativeZero, isZero, hbits] using hnonzero
    have hi0 : i = 0 := by simpa [hsign] using hi
    subst hi0
    rw [hsign, hbits]
    rfl
  · have hpos : 0 < n := Nat.pos_of_ne_zero hzero
    have hnat : i.natAbs = n := by
      rw [hi]
      split <;> simp
    have hnegative : decide (i < 0) = d.isNegative := by
      rw [hi]
      cases d.isNegative <;> simp [hpos]
    rw [hnat, hnegative, unsignedBits_eq_of_ratio hpos (hnat ▸ hlt) hratio]

/-- A number that is written as an integer of 32 bits is the double of that integer. -/
theorem ofInt_of_integerPayload {d : Double} {i : Int} (h : d.integerPayload = some i) :
    ofInt i = d := by
  obtain ⟨hexact, hpayload⟩ := Option.filter_eq_some_iff.mp h
  refine ofInt_of_exactInt? hexact ?_
  simp only [isPayload, Bool.and_eq_true, decide_eq_true_eq] at hpayload
  simp only [hiddenBit]
  omega

end Double

end SyntaxPack
