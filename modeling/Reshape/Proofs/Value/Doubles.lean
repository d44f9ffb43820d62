import Mathlib
import Reshape.Value.Basic

/-!
# Integers as doubles

The double nearest to an integer is always a number (`isNaN_ofInt`). Integers of at most 53 bits are
doubles as they are, and rounding never takes a longer one below `2 ^ 53`. So a float below this
bound is the nearest double of at most one integer (`eq_of_ofInt64_beq`).
-/

namespace Reshape.Double

open Float.Model (UnpackedFloat Format)
open Float.Model.UnpackedFloat

/-- A mantissa of 53 bits, the first of which is set, and an exponent in the range of doubles. -/
structure Normal (q : Nat) (e : Int) : Prop where
  lower : 2 ^ 52 ≤ q
  upper : q < 2 ^ 53
  least : -1074 ≤ e
  greatest : e ≤ 971

namespace Normal

variable {q : Nat} {e : Int}

theorem pos (h : Normal q e) : 0 < q :=
  Nat.lt_of_lt_of_le (by decide) h.lower

theorem log2 (h : Normal q e) : q.log2 = 52 :=
  (Nat.log2_eq_iff h.pos.ne').2 ⟨h.lower, h.upper⟩

end Normal

theorem log2_mul_two_pow {n : Nat} (hn : n ≠ 0) (k : Nat) : (n * 2 ^ k).log2 = n.log2 + k := by
  have hpos := Nat.two_pow_pos k
  obtain ⟨hlower, hupper⟩ := (Nat.log2_eq_iff hn).1 rfl
  refine (Nat.log2_eq_iff (Nat.mul_ne_zero hn hpos.ne')).2 ⟨?_, ?_⟩
  · rw [Nat.pow_add]
    exact Nat.mul_le_mul_right _ hlower
  · rw [Nat.add_right_comm, Nat.pow_add]
    exact Nat.mul_lt_mul_of_pos_right hupper hpos

/-! ### Rounding -/

theorem shift_mantissa (em : ExtendedMantissa) (k : Nat) :
    (em >>> k).mantissa = em.mantissa / 2 ^ k := by
  induction k with
  | zero => exact (Nat.div_one _).symm
  | succ k ih =>
    change (em >>> k).mantissa / 2 = _
    rw [ih, Nat.div_div_eq_div_mul, Nat.pow_succ]

/-- No bits are lost from a multiple. -/
theorem shift_multiple (q k : Nat) :
    ExtendedMantissa.mk (q * 2 ^ k) false false >>> k = ⟨q, false, false⟩ := by
  induction k generalizing q with
  | zero => simp [HShiftRight.hShiftRight, Nat.repeat]
  | succ k ih =>
    change (ExtendedMantissa.mk (q * 2 ^ (k + 1)) false false >>> k).shiftRightOne = _
    rw [Nat.pow_succ, Nat.mul_comm (2 ^ k), ← Nat.mul_assoc, ih]
    simp [ExtendedMantissa.shiftRightOne]

theorem roundedMantissa_bounds (em : ExtendedMantissa) :
    em.mantissa ≤ em.roundedMantissa ∧ em.roundedMantissa ≤ em.mantissa + 1 := by
  obtain ⟨m, round, sticky⟩ := em
  cases round <;> cases sticky <;>
    simp only [ExtendedMantissa.roundedMantissa, ExtendedMantissa.accuracy,
      Accuracy.roundToNearestEven] <;> omega

theorem shiftToTargetExponent_eq {m k : Nat} {e : Int} (hm : m.log2 = 52 + k)
    (he : -1074 ≤ e + k) :
    shiftToTargetExponent .binary64 m e .exact =
      (ExtendedMantissa.mk m false false >>> k, e + k) := by
  have htarget : Format.targetExponent .binary64 (Float.Model.totalExponent m e) = e + k := by
    rw [Format.targetExponent, Float.Model.totalExponent, hm]
    change max (((52 + k : Nat) : Int) + 1 + e - (53 : Nat)) (-1074) = _
    omega
  have hamount : (e + k - e).toNat = k := by omega
  simp only [shiftToTargetExponent, shiftToExponent, htarget, hamount]
  rfl

theorem shiftToTargetExponent_multiple {q k : Nat} {e : Int} (h : Normal q (e + k)) :
    shiftToTargetExponent .binary64 (q * 2 ^ k) e .exact = (⟨q, false, false⟩, e + k) := by
  have hlog : (q * 2 ^ k).log2 = 52 + k := by rw [log2_mul_two_pow h.pos.ne', h.log2]
  rw [shiftToTargetExponent_eq hlog h.least, shift_multiple]

/-- A mantissa that fits after the first shift is not rounded again by the second. -/
theorem roundWithAccuracy_of_shift (s : Sign) {m : Nat} {e e₁ : Int} {em : ExtendedMantissa}
    (hshift : shiftToTargetExponent .binary64 m e .exact = (em, e₁)) {q k : Nat}
    (hround : em.roundedMantissa = q * 2 ^ k) (h : Normal q (e₁ + k)) :
    roundWithAccuracy .binary64 s m e .exact = .finite s q (e₁ + k) h.pos := by
  have hfinal : shiftToTargetExponent .binary64 em.roundedMantissa e₁ .exact =
      (⟨q, false, false⟩, e₁ + k) := by
    rw [hround]
    exact shiftToTargetExponent_multiple h
  simp only [roundWithAccuracy, hshift, hfinal]
  exact dif_neg h.pos.ne'

/-- Rounding does not change what can be written with 53 bits. -/
theorem roundWithAccuracy_multiple (s : Sign) {q k : Nat} {e e' : Int} (h : Normal q e')
    (he : e + k = e') :
    roundWithAccuracy .binary64 s (q * 2 ^ k) e .exact = .finite s q e' h.pos := by
  subst he
  have hround := roundWithAccuracy_of_shift s (shiftToTargetExponent_multiple h) (k := 0)
    (Nat.mul_one q).symm (by simpa using h)
  simpa using hround

theorem div_two_pow_bounds {m k : Nat} (hm : m.log2 = 52 + k) :
    2 ^ 52 ≤ m / 2 ^ k ∧ m / 2 ^ k < 2 ^ 53 := by
  have hne : m ≠ 0 := by
    rintro rfl
    rw [Nat.log2_zero] at hm
    omega
  obtain ⟨hlower, hupper⟩ := (Nat.log2_eq_iff hne).1 hm
  rw [Nat.pow_add] at hlower
  rw [Nat.add_right_comm, Nat.pow_add] at hupper
  exact ⟨(Nat.le_div_iff_mul_le (Nat.two_pow_pos k)).2 hlower,
    (Nat.div_lt_iff_lt_mul (Nat.two_pow_pos k)).2 hupper⟩

/-- Rounding to 53 bits raises the exponent by the number of bits that go, or by one more. -/
theorem exists_roundWithAccuracy (s : Sign) {m k : Nat} {e : Int} (hm : m.log2 = 52 + k)
    (he : -1074 ≤ e + k) (he' : e + k ≤ 970) :
    ∃ q e', ∃ h : Normal q e', e + k ≤ e' ∧
      roundWithAccuracy .binary64 s m e .exact = .finite s q e' h.pos := by
  have hshift := shiftToTargetExponent_eq hm he
  obtain ⟨hleast, hgreatest⟩ := div_two_pow_bounds hm
  obtain ⟨hlower, hupper⟩ := roundedMantissa_bounds (ExtendedMantissa.mk m false false >>> k)
  rw [shift_mantissa] at hlower hupper
  generalize hround : (ExtendedMantissa.mk m false false >>> k).roundedMantissa = r at hlower hupper
  change m / 2 ^ k ≤ r at hlower
  change r ≤ m / 2 ^ k + 1 at hupper
  by_cases hr : r < 2 ^ 53
  · have h : Normal r (e + k + (0 : Nat)) := ⟨by omega, hr, by omega, by omega⟩
    exact ⟨r, _, h, by omega,
      roundWithAccuracy_of_shift s hshift (hround.trans (Nat.mul_one r).symm) h⟩
  · -- The mantissa has grown to 54 bits, of which only the first is set.
    have hr : r = 2 ^ 52 * 2 ^ 1 := by omega
    have h : Normal (2 ^ 52) (e + k + (1 : Nat)) := ⟨by omega, by omega, by omega, by omega⟩
    exact ⟨2 ^ 52, _, h, by omega, roundWithAccuracy_of_shift s hshift (hround.trans hr) h⟩

/-! ### Packing -/

theorem ofNat_ne_ones {b : Nat} (h : b + 1 < 2 ^ 11) : BitVec.ofNat 11 b ≠ -1#11 := by
  intro hones
  have hbits := congrArg BitVec.toNat hones
  rw [BitVec.toNat_ofNat, BitVec.neg_one_eq_allOnes, BitVec.toNat_allOnes] at hbits
  omega

theorem toNat_implicit {q : Nat} {e : Int} (h : Normal q e) :
    (1#1 ++ BitVec.ofNat 52 q).toNat = q := by
  have hlower := h.lower
  have hupper := h.upper
  rw [BitVec.toNat_append, ← Nat.shiftLeft_add_eq_or_of_lt (BitVec.isLt _), BitVec.toNat_ofNat]
  change 1 <<< 52 + q % 2 ^ 52 = q
  omega

/-- The bits of a normal number hold its mantissa and its exponent. -/
theorem unpack_pack (s : Sign) {q : Nat} {e : Int} (h : Normal q e) :
    (Float.Model.pack (.finite s q e h.pos)).unpack = .finite s q e h.pos := by
  obtain ⟨-, -, hleast, hgreatest⟩ := id h
  obtain ⟨b, hb⟩ : ∃ b : Nat, e + 1075 = b := ⟨(e + 1075).toNat, by omega⟩
  have hexponent : b + 1 < 2 ^ 11 := by omega
  have hbits : (BitVec.ofNat 11 b).toNat = b := by
    rw [BitVec.toNat_ofNat, Nat.mod_eq_of_lt (by omega)]
  have hzero : BitVec.ofNat 11 b ≠ 0#11 := by
    intro hzero
    have hb := congrArg BitVec.toNat hzero
    rw [hbits, BitVec.toNat_zero] at hb
    omega
  have hpack : UnpackedFloat.pack .binary64 (.finite s q e h.pos) =
      packComponents .binary64 s (BitVec.ofNat 11 b) (BitVec.ofNat 52 q) := by
    have hbiased : (e + (Format.exponentBias .binary64 : Int) + (52 : Nat)).toNat = b := by
      have hbias : Format.exponentBias .binary64 = 1023 := rfl
      omega
    simp only [UnpackedFloat.pack, hbiased, h.log2]
    exact (if_neg (Nat.not_le.2 hexponent)).trans (if_pos rfl)
  change unpack .binary64 (UInt64.ofBitVec (UnpackedFloat.pack .binary64 _)).toBitVec = _
  rw [hpack]
  simp only [unpack, unpackMantissa_packComponents, unpackExponent_packComponents,
    unpackSign_packComponents, Sign.ofBitVec_toBitVec]
  rw [if_neg (ofNat_ne_ones hexponent), if_neg hzero]
  simp only [toNat_implicit h, hbits]
  congr 1
  change (b : Int) - (1023 + 52) = e
  omega

theorem packComponents_ne_packedNaN (s : Sign) {b : BitVec 11} {m : BitVec 52}
    (h : b ≠ -1#11 ∨ m = 0#52) : packComponents .binary64 s b m ≠ packedNaN .binary64 := by
  intro heq
  have hexponent : b = -1#11 := by
    simpa [packedNaN] using congrArg (@unpackExponent .binary64) heq
  have hmantissa : m = 1#52 <<< 51 := by
    simpa [packedNaN] using congrArg (@unpackMantissa .binary64) heq
  rcases h with hb | rfl
  · exact hb hexponent
  · exact absurd hmantissa (by decide)

theorem pack_eq_packedNaN_iff {x : UnpackedFloat} :
    UnpackedFloat.pack .binary64 x = packedNaN .binary64 ↔ x = .notANumber := by
  refine ⟨fun h => ?_, fun h => h ▸ rfl⟩
  cases x with
  | notANumber => rfl
  | infinity s => exact (packComponents_ne_packedNaN s (.inr rfl) h).elim
  | zero s => exact (packComponents_ne_packedNaN s (.inr rfl) h).elim
  | finite s q e hq =>
    rw [UnpackedFloat.pack] at h
    split at h
    · exact (packComponents_ne_packedNaN s (.inr rfl) h).elim
    · rename_i hexponent
      split at h
      · have hones := ofNat_ne_ones (Nat.not_le.1 hexponent)
        exact (packComponents_ne_packedNaN s (.inl hones) h).elim
      · exact (packComponents_ne_packedNaN s (.inl (by decide)) h).elim

theorem isNaN_pack (x : UnpackedFloat) : (Float.Model.pack x).isNaN = x.isNaN := by
  have hiff : (unpack .binary64 (UnpackedFloat.pack .binary64 x)).isNaN = true ↔
      x.isNaN = true := by
    rw [isNaN_unpack_iff_of_valid valid_pack, pack_eq_packedNaN_iff, isNaN_iff]
  exact Bool.eq_iff_iff.2 hiff

/-! ### The double nearest to a natural number -/

theorem mul_finite (s s' : Sign) {m m' : Nat} (e e' : Int) (hm : 0 < m) (hm' : 0 < m') :
    mul .binary64 (.finite s m e hm) (.finite s' m' e' hm') =
      roundWithAccuracy .binary64 (s * s') (m * m') (e + e') .exact :=
  rfl

/-- Numbers of at most 53 bits are converted and then multiplied by one. -/
theorem ofNat_small {n : Nat} (h : n < 2 ^ 53) :
    Float.ofNat n = .ofModel (.pack (mul .binary64 (Float.Model.pack (ofInt .binary64 n)).unpack
      (.finite .positive (2 ^ 52) (-52) (by decide)))) := by
  have hsmall : n < 2 ^ 53 ∧ 0 ≤ 22 := ⟨h, by decide⟩
  have hn : n.toUInt64.toNat = n := by
    rw [Nat.toUInt64, UInt64.toNat_ofNat']
    omega
  have hone : (Float.ofBits 0x3FF0000000000000).toModel.unpack =
      .finite .positive (2 ^ 52) (-52) (by decide) := rfl
  have hproduct : Float.ofNat n = n.toUInt64.toFloat * Float.ofBits 0x3FF0000000000000 :=
    dif_pos hsmall
  rw [hproduct, ← hone]
  conv_rhs => rw [← hn]
  rfl

theorem ofScientific_zero {n : Nat} (hn : n ≠ 0) :
    ofScientific .binary64 n 0 =
      roundWithAccuracy .binary64 .positive (n * 2 ^ 53) (-53) .exact := by
  have hpow : (0 : Int) ≤ 2 ^ Format.exponentBits .binary64 := by positivity
  have hmantissa : n <<< Format.mantissaBits .binary64 * 10 ^ Int.toNat 0 = n * 2 ^ 53 :=
    (Nat.mul_one _).trans (Nat.shiftLeft_eq ..)
  rw [ofScientific, dif_neg hn, if_neg (by omega), if_neg (by omega), if_pos (by decide),
    mul_finite, hmantissa]
  rfl

/-- Longer numbers are rounded with 53 bits more than they have. -/
theorem ofNat_large {n : Nat} (h : 2 ^ 53 ≤ n) :
    Float.ofNat n =
      .ofModel (.pack (roundWithAccuracy .binary64 .positive (n * 2 ^ 53) (-53) .exact)) := by
  have hlarge : ¬(n < 2 ^ 53 ∧ 0 ≤ 22) := fun hsmall => Nat.not_lt.2 h hsmall.1
  rw [← ofScientific_zero (by omega)]
  exact dif_neg hlarge

theorem normal_scaled {n k : Nat} (hn : n ≠ 0) (hk : n.log2 + k = 52) :
    Normal (n * 2 ^ k) (-(k : Int)) := by
  have hbits : (n * 2 ^ k).log2 = 52 := by rw [log2_mul_two_pow hn, hk]
  have hne : n * 2 ^ k ≠ 0 := Nat.mul_ne_zero hn (Nat.two_pow_pos k).ne'
  obtain ⟨hlower, hupper⟩ := (Nat.log2_eq_iff hne).1 hbits
  exact ⟨hlower, hupper, by omega, by omega⟩

theorem ofInt_scaled {n k : Nat} (hn : n ≠ 0) (hk : n.log2 + k = 52) :
    ofInt .binary64 n = .finite .positive (n * 2 ^ k) (-(k : Int)) (normal_scaled hn hk).pos := by
  have htarget : Format.targetExponent .binary64 (Float.Model.totalExponent n 0) = -(k : Int) := by
    rw [Format.targetExponent, Float.Model.totalExponent]
    change max ((n.log2 : Int) + 1 + 0 - (53 : Nat)) (-1074) = _
    omega
  have hpositive : compare (n : Int) 0 = .gt := Int.compare_eq_gt.2 (by omega)
  have hamount : (0 - -(k : Int)).toNat = k := by omega
  simp only [ofInt, UnpackedFloat.normalize, hpositive, UnpackedFloat.round, Int.toNat_natCast,
    htarget, decreaseExponent, hamount, Nat.shiftLeft_eq]
  have hround := roundWithAccuracy_multiple .positive (k := 0) (normal_scaled hn hk)
    (e := 0 - (k : Int)) (by simp)
  simpa using hround

/-- Numbers of at most 53 bits are doubles as they are. -/
theorem unpack_ofNat_small {n : Nat} (hn : n ≠ 0) (h : n < 2 ^ 53) :
    ∃ k : Nat, ∃ hnormal : Normal (n * 2 ^ k) (-(k : Int)),
      (Float.ofNat n).toModel.unpack = .finite .positive (n * 2 ^ k) (-(k : Int)) hnormal.pos := by
  have hlog : n.log2 < 53 := (Nat.log2_lt hn).2 h
  obtain ⟨k, hk⟩ : ∃ k, n.log2 + k = 52 := ⟨52 - n.log2, by omega⟩
  have hnormal := normal_scaled hn hk
  have hround : roundWithAccuracy .binary64 (.positive * .positive) (n * 2 ^ k * 2 ^ 52)
      (-(k : Int) + -52) .exact = .finite .positive (n * 2 ^ k) (-(k : Int)) hnormal.pos :=
    roundWithAccuracy_multiple _ hnormal (by omega)
  refine ⟨k, hnormal, ?_⟩
  rw [ofNat_small h, ofInt_scaled hn hk, unpack_pack .positive hnormal, mul_finite, hround]
  exact unpack_pack .positive hnormal

/-- Longer numbers stay at `2 ^ 53` or above. -/
theorem unpack_ofNat_large {n : Nat} (h : 2 ^ 53 ≤ n) (h' : n < 2 ^ 64) :
    ∃ q e, ∃ hnormal : Normal q e, 1 ≤ e ∧
      (Float.ofNat n).toModel.unpack = .finite .positive q e hnormal.pos := by
  have hne : n ≠ 0 := by omega
  have hlog : 53 ≤ n.log2 ∧ n.log2 < 64 := ⟨(Nat.le_log2 hne).2 h, (Nat.log2_lt hne).2 h'⟩
  have hproduct : (n * 2 ^ 53).log2 = 52 + (n.log2 + 1) := by
    rw [log2_mul_two_pow hne]
    omega
  obtain ⟨q, e, hnormal, he, hround⟩ := exists_roundWithAccuracy .positive hproduct
    (e := -53) (by omega) (by omega)
  refine ⟨q, e, hnormal, by omega, ?_⟩
  rw [ofNat_large h, hround]
  exact unpack_pack .positive hnormal

/-! ### Numbers -/

theorem isNaN_roundWithAccuracy (s : Sign) (m : Nat) (e : Int) (accuracy : Accuracy) :
    (roundWithAccuracy .binary64 s m e accuracy).isNaN = false := by
  rw [roundWithAccuracy]
  dsimp only
  split <;> rfl

theorem isNaN_normalize (m e : Int) (s : Sign) :
    (UnpackedFloat.normalize .binary64 m e s).isNaN = false := by
  rw [UnpackedFloat.normalize]
  split
  · exact isNaN_roundWithAccuracy ..
  · rfl
  · exact isNaN_roundWithAccuracy ..

theorem isNaN_mul_finite {x : UnpackedFloat} (h : x.isNaN = false) (s : Sign) {m : Nat} (e : Int)
    (hm : 0 < m) : (mul .binary64 x (.finite s m e hm)).isNaN = false := by
  cases x with
  | notANumber => cases h
  | finite => exact isNaN_roundWithAccuracy ..
  | _ => rfl

theorem isNaN_neg (x : Float) : x.neg.isNaN = x.isNaN := by
  refine (isNaN_pack x.toModel.unpack.neg).trans ?_
  change _ = x.toModel.unpack.isNaN
  cases x.toModel.unpack <;> rfl

theorem isNaN_ofNat (n : Nat) : (Float.ofNat n).isNaN = false := by
  rcases Nat.lt_or_ge n (2 ^ 53) with h | h
  · rw [ofNat_small h]
    refine (isNaN_pack _).trans (isNaN_mul_finite ?_ _ _ _)
    exact (isNaN_pack _).trans (isNaN_normalize ..)
  · rw [ofNat_large h]
    exact (isNaN_pack _).trans (isNaN_roundWithAccuracy ..)

/-- The double nearest to an integer is a number. -/
theorem isNaN_ofInt (n : Int) : (Float.ofInt n).isNaN = false := by
  cases n with
  | ofNat n => exact isNaN_ofNat n
  | negSucc n => exact (isNaN_neg _).trans (isNaN_ofNat _)

/-! ### The double nearest to an integer -/

def signOf (n : Int) : Sign :=
  if n < 0 then .negative else .positive

theorem unpack_neg {x : Float} {s : Sign} {q : Nat} {e : Int} (h : Normal q e)
    (hx : x.toModel.unpack = .finite s q e h.pos) :
    x.neg.toModel.unpack = .finite (-s) q e h.pos := by
  change (Float.Model.pack x.toModel.unpack.neg).unpack = _
  rw [hx]
  exact unpack_pack (-s) h

theorem unpack_ofInt {n : Int} {q : Nat} {e : Int} (h : Normal q e)
    (hn : (Float.ofNat n.natAbs).toModel.unpack = .finite .positive q e h.pos) :
    (Float.ofInt n).toModel.unpack = .finite (signOf n) q e h.pos := by
  cases n with
  | ofNat n => exact hn
  | negSucc n =>
    have hsign : signOf (.negSucc n) = -.positive := if_pos (Int.negSucc_lt_zero n)
    rw [hsign]
    exact unpack_neg h hn

theorem unpack_ofInt_small {n : Int} (hn : n ≠ 0) (h : n.natAbs < 2 ^ 53) :
    ∃ k : Nat, ∃ hnormal : Normal (n.natAbs * 2 ^ k) (-(k : Int)),
      (Float.ofInt n).toModel.unpack =
        .finite (signOf n) (n.natAbs * 2 ^ k) (-(k : Int)) hnormal.pos := by
  obtain ⟨k, hnormal, hunpack⟩ := unpack_ofNat_small (Int.natAbs_ne_zero.2 hn) h
  exact ⟨k, hnormal, unpack_ofInt hnormal hunpack⟩

/-- Apart from the two zeros, equal floats are the same. -/
theorem unpack_of_beq {x y : Float} (h : (x == y) = true) {s : Sign} {q : Nat} {e : Int}
    {hq : 0 < q} (hx : x.toModel.unpack = .finite s q e hq) :
    y.toModel.unpack = .finite s q e hq := by
  have hbeq : x.toModel.unpack.beq y.toModel.unpack = true := h
  obtain ⟨-, -, heq | ⟨hzero, -⟩ | ⟨hzero, -⟩⟩ := (beq_iff_ne_notANumber_and_eq _ _).1 hbeq
  · exact heq.symm.trans hx
  · cases hx.symm.trans hzero
  · cases hx.symm.trans hzero

theorem eq_zero_of_ofInt_beq {n : Int} (h : n.natAbs < 2 ^ 53)
    (hbeq : (Float.ofInt n == Float.ofInt 0) = true) : n = 0 := by
  by_contra hn
  obtain ⟨k, hnormal, hunpack⟩ := unpack_ofInt_small hn h
  cases unpack_of_beq hbeq hunpack

/-- Different integers of at most 53 bits are different doubles. -/
theorem eq_of_ofInt_beq {m n : Int} (hm : m.natAbs < 2 ^ 53) (hn : n.natAbs < 2 ^ 53)
    (h : (Float.ofInt m == Float.ofInt n) = true) : m = n := by
  by_cases hm0 : m = 0
  · subst hm0
    exact (eq_zero_of_ofInt_beq hn (BEq.symm h)).symm
  · by_cases hn0 : n = 0
    · subst hn0
      exact eq_zero_of_ofInt_beq hm h
    · obtain ⟨k, hnormal, hunpack⟩ := unpack_ofInt_small hm0 hm
      obtain ⟨k', hnormal', hunpack'⟩ := unpack_ofInt_small hn0 hn
      have heq := hunpack'.symm.trans (unpack_of_beq h hunpack)
      injection heq with hsign hmantissa hexponent
      have hk : k' = k := by omega
      subst hk
      have habs := Nat.eq_of_mul_eq_mul_right (Nat.two_pow_pos _) hmantissa
      unfold signOf at hsign
      split at hsign <;> split at hsign <;> first | omega | cases hsign

/-- The nearest double is below `2 ^ 53` only for integers of at most 53 bits. -/
theorem natAbs_lt_of_abs_lt {n : Int} (hn : n.natAbs < 2 ^ 64) {x : Float}
    (hx : x.abs < Float.ofNat (2 ^ 53)) (h : (Float.ofInt n == x) = true) :
    n.natAbs < 2 ^ 53 := by
  by_contra hlarge
  obtain ⟨q, e, hnormal, he, hunpack⟩ := unpack_ofNat_large (Nat.not_lt.1 hlarge) hn
  have habs : x.abs.toModel.unpack = .finite .positive q e hnormal.pos := by
    change (Float.Model.pack x.toModel.unpack.abs).unpack = _
    rw [unpack_of_beq h (unpack_ofInt hnormal hunpack)]
    exact unpack_pack .positive hnormal
  have hbound : (Float.ofNat (2 ^ 53)).toModel.unpack =
      .finite .positive (2 ^ 52) 1 (by decide) := rfl
  have hlt : x.abs.toModel.unpack.lt (Float.ofNat (2 ^ 53)).toModel.unpack = true :=
    of_decide_eq_true hx
  rw [habs, hbound] at hlt
  have hcompare : (compare e 1).then (compare q (2 ^ 52)) = .lt := by
    simpa [UnpackedFloat.lt, UnpackedFloat.compare] using hlt
  have hlower := hnormal.lower
  rcases Ordering.then_eq_lt.1 hcompare with hexponent | ⟨-, hmantissa⟩
  · have hlow := Int.compare_eq_lt.1 hexponent
    omega
  · have hlow := Nat.compare_eq_lt.1 hmantissa
    omega

/-- A float below `2 ^ 53` is the nearest double of at most one integer. -/
theorem eq_of_ofInt64_beq {m n : Int64} {x : Float} (hx : x.abs < Float.ofNat (2 ^ 53))
    (hm : (Value.ofInt64 m == x) = true) (hn : (Value.ofInt64 n == x) = true) : m = n := by
  have hrange (k : Int64) : k.toInt.natAbs < 2 ^ 64 := by
    have hleast := Int64.le_toInt k
    have hgreatest := Int64.toInt_lt k
    omega
  have hsmall {k : Int64} (hk : (Value.ofInt64 k == x) = true) : k.toInt.natAbs < 2 ^ 53 :=
    natAbs_lt_of_abs_lt (hrange k) hx hk
  have hbeq : (Value.ofInt64 m == Value.ofInt64 n) = true := BEq.trans hm (BEq.symm hn)
  exact Int64.toInt_inj.1 (eq_of_ofInt_beq (hsmall hm) (hsmall hn) hbeq)

end Reshape.Double
