import Mathlib
import ReversibleSynthesis.Angle

namespace ReversibleSynthesis.Double

open Float.Model Float.Model.UnpackedFloat

def halves (em : ExtendedMantissa) : Nat := 2 * em.mantissa + em.roundBit.toNat

theorem mantissa_eq (em : ExtendedMantissa) : em.mantissa = halves em / 2 := by
  have hbit := em.roundBit.toNat_lt
  unfold halves
  omega

theorem halves_shiftRightOne (em : ExtendedMantissa) :
    halves em.shiftRightOne = halves em / 2 := by
  have hbit : (em.mantissa % 2 != 0).toNat = em.mantissa % 2 := by
    rcases Nat.mod_two_eq_zero_or_one em.mantissa with h | h <;> rw [h] <;> rfl
  rw [← mantissa_eq, halves, ExtendedMantissa.shiftRightOne, hbit]
  exact Nat.div_add_mod _ 2

theorem halves_shiftRight (em : ExtendedMantissa) (n : Nat) :
    halves (em >>> n) = halves em / 2 ^ n := by
  change halves (n.repeat ExtendedMantissa.shiftRightOne em) = _
  induction n with
  | zero => exact (Nat.div_one _).symm
  | succ n ih => rw [Nat.repeat, halves_shiftRightOne, ih, Nat.div_div_eq_div_mul, pow_succ]

theorem halves_quotient (a : Nat) {b : Nat} (hb : 0 < b) :
    halves (.ofMantissaAndAccuracy (a / b) (accuracyOfFraction (a % b) b)) = 2 * a / b := by
  have hmod := Nat.mod_lt a hb
  have hsplit : 2 * a / b = 2 * (a / b) + 2 * (a % b) / b := by
    conv_lhs => rw [← Nat.div_add_mod a b, Nat.mul_add, Nat.mul_left_comm, Nat.mul_add_div hb]
  rw [hsplit, accuracyOfFraction]
  by_cases hzero : a % b = 0
  · simp [hzero, halves, ExtendedMantissa.ofMantissaAndAccuracy]
  · rw [if_neg hzero]
    rcases hcmp : compare (2 * (a % b)) b with _ | _ | _
    · have hlt := Nat.compare_eq_lt.mp hcmp
      simp [halves, ExtendedMantissa.ofMantissaAndAccuracy, Nat.div_eq_of_lt hlt]
    · have heq := Nat.compare_eq_eq.mp hcmp
      simp [halves, ExtendedMantissa.ofMantissaAndAccuracy, heq, Nat.div_self hb]
    · have hgt := Nat.compare_eq_gt.mp hcmp
      have hone : 2 * (a % b) / b = 1 := Nat.div_eq_of_lt_le (by omega) (by omega)
      simp [halves, ExtendedMantissa.ofMantissaAndAccuracy, hone]

theorem roundedMantissa_near (em : ExtendedMantissa) :
    halves em ≤ 2 * em.roundedMantissa + 1 ∧ 2 * em.roundedMantissa ≤ halves em + 1 := by
  obtain ⟨m, round, sticky⟩ := em
  cases round <;> cases sticky <;>
    simp only [ExtendedMantissa.roundedMantissa, ExtendedMantissa.accuracy,
      Accuracy.roundToNearestEven, halves, Bool.toNat_true, Bool.toNat_false] <;> omega

-- A tie goes to the even neighbour, so halfway below an even bound counts as the bound.
theorem roundedMantissa_lt_iff (em : ExtendedMantissa) (bound : Nat) (heven : bound % 2 = 0) :
    em.roundedMantissa < bound ↔ halves em + 1 < 2 * bound := by
  obtain ⟨m, round, sticky⟩ := em
  cases round <;> cases sticky <;>
    simp only [ExtendedMantissa.roundedMantissa, ExtendedMantissa.accuracy,
      Accuracy.roundToNearestEven, halves, Bool.toNat_true, Bool.toNat_false] <;> omega

theorem targetExponent_eq (t : Int) : Format.binary64.targetExponent t = max (t - 53) (-1074) := rfl

def surplus (m : Nat) (e : Int) : Nat :=
  (Format.binary64.targetExponent (totalExponent m e) - e).toNat

theorem surplus_eq {m : Nat} {e : Int}
    (he : e ≤ Format.binary64.targetExponent (totalExponent m e)) :
    e + surplus m e = max ((m.log2 : Int) + 1 + e - 53) (-1074) := by
  rw [surplus, Int.toNat_of_nonneg (by omega), targetExponent_eq, totalExponent]
  omega

def Fits : UnpackedFloat → Prop
  | .zero _ => True
  | .finite _ _ e _ => e ≤ 971
  | _ => False

theorem isFinite_unpack (b : BitVec Format.binary64.numBits) :
    (UnpackedFloat.unpack Format.binary64 b).isFinite = true ↔ unpackExponent b ≠ -1#_ := by
  simp only [UnpackedFloat.unpack]
  split_ifs <;> simp_all [UnpackedFloat.isFinite]

theorem isFinite_pack (u : UnpackedFloat) :
    (Float.Model.pack u).unpack.isFinite = true ↔ Fits u := by
  change (UnpackedFloat.unpack Format.binary64 (UnpackedFloat.pack Format.binary64 u)).isFinite =
    true ↔ _
  rw [isFinite_unpack]
  cases u with
  | infinity s => simp [UnpackedFloat.pack, packedInfinity, Fits]
  | notANumber => simp [UnpackedFloat.pack, packedNaN, Fits]
  | zero s => simp [UnpackedFloat.pack, packedZero, Fits]
  | finite s m e hm =>
    have hbias : Format.binary64.exponentBias = 1023 := rfl
    have hall : (-1#11).toNat = 2047 := rfl
    simp only [UnpackedFloat.pack, hbias, Fits]
    split_ifs with hbig hnormal
    · rw [packedInfinity, unpackExponent_packComponents]
      exact iff_of_false (fun h => h rfl) (by omega)
    · rw [unpackExponent_packComponents, ne_eq, ← BitVec.toNat_inj, BitVec.toNat_ofNat, hall]
      omega
    · rw [unpackExponent_packComponents]
      exact iff_of_true (by decide) (by omega)

theorem unpack_eq_finite {b : BitVec Format.binary64.numBits} {s : Sign} {m : Nat} {e : Int}
    {hm : 0 < m} (h : UnpackedFloat.unpack Format.binary64 b = .finite s m e hm) :
    (2 ^ 52 ≤ m ∨ e = -1074) ∧ e ≤ 971 := by
  simp only [UnpackedFloat.unpack] at h
  split_ifs at h with hexp hmant hzero hmant
  · injection h with _ _ he
    rw [← he, hzero]
    exact ⟨.inr rfl, by decide⟩
  · injection h with _ hmantissa he
    refine ⟨.inl ?_, ?_⟩
    · rw [← hmantissa, BitVec.toNat_append]
      exact Nat.left_le_or
    · have hbias : Format.binary64.exponentBias = 1023 := rfl
      have hlast : (unpackExponent b).toNat ≠ 2047 := fun hall => hexp (BitVec.eq_of_toNat_eq hall)
      have hlt := (unpackExponent b).isLt
      omega

theorem fits_roundWithAccuracy (s : Sign) {m : Nat} {e : Int} {acc : Accuracy} {r : Nat} {e₁ : Int}
    (hr : (shiftToTargetExponent .binary64 m e acc).1.roundedMantissa = r)
    (he₁ : (shiftToTargetExponent .binary64 m e acc).2 = e₁) (hle : r ≤ 2 ^ 53)
    (hmin : -1074 ≤ e₁) :
    Fits (roundWithAccuracy .binary64 s m e acc) ↔ r = 0 ∨ e₁ < 971 ∨ e₁ = 971 ∧ r < 2 ^ 53 := by
  have hround : roundWithAccuracy .binary64 s m e acc =
      if h : (shiftToTargetExponent .binary64 r e₁ .exact).1.mantissa = 0 then .zero s
      else .finite s (shiftToTargetExponent .binary64 r e₁ .exact).1.mantissa
        (shiftToTargetExponent .binary64 r e₁ .exact).2 (Nat.pos_of_ne_zero h) := by
    subst hr he₁
    rfl
  have hmant : (shiftToTargetExponent .binary64 r e₁ .exact).1.mantissa = r / 2 ^ surplus r e₁ := by
    change (ExtendedMantissa.ofMantissaAndAccuracy r .exact >>> surplus r e₁).mantissa = _
    rw [mantissa_eq, halves_shiftRight, Nat.div_right_comm, ← mantissa_eq]
    rfl
  have hexp : (shiftToTargetExponent .binary64 r e₁ .exact).2 = e₁ + surplus r e₁ := rfl
  have hfits : Fits (roundWithAccuracy .binary64 s m e acc) ↔
      r / 2 ^ surplus r e₁ = 0 ∨ e₁ + surplus r e₁ ≤ 971 := by
    rw [hround]
    split_ifs with h
    · simp [Fits, ← hmant, h]
    · rw [hmant] at h
      simp [Fits, hexp, h]
  rw [hfits]
  rcases hle.lt_or_eq with hlt | rfl
  · have hlog : r.log2 < 53 := by
      rcases Nat.eq_zero_or_pos r with rfl | hpos
      · decide
      · exact (Nat.log2_lt hpos.ne').mpr hlt
    have hkeep : surplus r e₁ = 0 := by
      rw [surplus, targetExponent_eq, totalExponent]
      omega
    simp only [hkeep, pow_zero, Nat.div_one]
    omega
  · have hcarry : surplus (2 ^ 53) e₁ = 1 := by
      rw [surplus, targetExponent_eq, totalExponent, Nat.log2_two_pow]
      omega
    simp only [hcarry]
    omega

def overflow : ℚ := (2 ^ 54 - 1) * 2 ^ (970 : ℤ)

theorem overflow_mem : (2 : ℚ) ^ (1023 : ℤ) ≤ overflow ∧ overflow ≤ 2 ^ (1024 : ℤ) := by
  have hsplit (k : ℤ) : (2 : ℚ) ^ (k + 970) = 2 ^ k * 2 ^ (970 : ℤ) := zpow_add₀ two_ne_zero k 970
  have hpos : (0 : ℚ) ≤ 2 ^ (970 : ℤ) := by positivity
  refine ⟨(hsplit 53).trans_le ?_, le_of_le_of_eq ?_ (hsplit 54).symm⟩ <;>
    exact mul_le_mul_of_nonneg_right (by norm_num) hpos

theorem overflow_pos : 0 < overflow := (zpow_pos two_pos _).trans_le overflow_mem.1

section Quotient

variable {a b n : Nat} {e : ℤ}

theorem quotient_lt_overflow (hb : 0 < b) (hq : (a / b).log2 + 1 ≤ n + 53) (he : e + n < 971) :
    (a : ℚ) / b * 2 ^ e < overflow := by
  have hnat : a < 2 ^ (n + 53) * b :=
    (Nat.div_lt_iff_lt_mul hb).mp (Nat.lt_log2_self.trans_le (Nat.pow_le_pow_right two_pos hq))
  have hlt : (a : ℚ) / b < 2 ^ ((n + 53 : ℕ) : ℤ) := by
    rw [zpow_natCast, div_lt_iff₀ (by exact_mod_cast hb)]
    exact_mod_cast hnat
  calc (a : ℚ) / b * 2 ^ e < 2 ^ ((n + 53 : ℕ) : ℤ) * 2 ^ e := by gcongr
    _ = 2 ^ ((n + 53 : ℕ) + e) := (zpow_add₀ two_ne_zero _ _).symm
    _ ≤ 2 ^ (1023 : ℤ) := zpow_le_zpow_right₀ one_le_two (by omega)
    _ ≤ overflow := overflow_mem.1

theorem two_pow_le_of_log2 {m : Nat} (h : m.log2 = n + 52) : 2 ^ (n + 52) ≤ m := by
  have hne : m ≠ 0 := by
    rintro rfl
    cases h
  exact (Nat.le_log2 hne).mp h.ge

theorem overflow_le_quotient (hb : 0 < b) (hq : (a / b).log2 = n + 52) (he : 971 < e + n) :
    overflow ≤ (a : ℚ) / b * 2 ^ e := by
  have hnat : 2 ^ (n + 52) * b ≤ a :=
    (Nat.le_div_iff_mul_le hb).mp (two_pow_le_of_log2 hq)
  have hle : 2 ^ ((n + 52 : ℕ) : ℤ) ≤ (a : ℚ) / b := by
    rw [zpow_natCast, le_div_iff₀ (by exact_mod_cast hb)]
    exact_mod_cast hnat
  calc overflow ≤ 2 ^ (1024 : ℤ) := overflow_mem.2
    _ ≤ 2 ^ ((n + 52 : ℕ) + e) := zpow_le_zpow_right₀ one_le_two (by omega)
    _ = 2 ^ ((n + 52 : ℕ) : ℤ) * 2 ^ e := zpow_add₀ two_ne_zero _ _
    _ ≤ (a : ℚ) / b * 2 ^ e := by gcongr

theorem quotient_lt_overflow_iff (hb : 0 < b) (he : e + n = 971) :
    (a : ℚ) / b * 2 ^ e < overflow ↔ 2 * a / b / 2 ^ n + 1 < 2 ^ 54 := by
  have hlimit : overflow = (2 ^ 54 - 1) * 2 ^ n / 2 * 2 ^ e := by
    have hsplit : (2 : ℚ) ^ (970 : ℤ) = 2 ^ (e - 1) * 2 ^ (n : ℤ) := by
      rw [← zpow_add₀ two_ne_zero]
      congr 1
      omega
    rw [overflow, hsplit, zpow_sub_one₀ two_ne_zero, zpow_natCast]
    ring
  have hb' : (0 : ℚ) < b := by exact_mod_cast hb
  have hexact : 2 * a / b / 2 ^ n + 1 < 2 ^ 54 ↔ 2 * a < (2 ^ 54 - 1) * (b * 2 ^ n) := by
    rw [Nat.div_div_eq_div_mul, ← Nat.div_lt_iff_lt_mul (Nat.mul_pos hb (Nat.two_pow_pos n))]
    omega
  rw [hexact, hlimit, mul_lt_mul_iff_left₀ (zpow_pos two_pos e), div_lt_iff₀ hb',
    ← Nat.cast_lt (α := ℚ)]
  push_cast
  constructor <;> intro h <;> linarith

theorem fits_roundQuotient (s : Sign) (hb : 0 < b)
    (he : e ≤ Format.binary64.targetExponent (totalExponent (a / b) e)) :
    Fits (roundWithAccuracy .binary64 s (a / b) e (accuracyOfFraction (a % b) b)) ↔
      (a : ℚ) / b * 2 ^ e < overflow := by
  have hexp := surplus_eq he
  set n := surplus (a / b) e
  set em := (shiftToTargetExponent .binary64 (a / b) e (accuracyOfFraction (a % b) b)).1
  have hhalves : halves em = 2 * a / b / 2 ^ n := by
    rw [← halves_quotient a hb]
    exact halves_shiftRight _ _
  have hmant : halves em / 2 = a / b / 2 ^ n := by
    rw [hhalves, Nat.div_right_comm, Nat.div_right_comm (2 * a),
      Nat.mul_div_cancel_left _ Nat.two_pos]
  have hnear := roundedMantissa_near em
  have hcarry := roundedMantissa_lt_iff em (2 ^ 53) rfl
  have hbits : (a / b).log2 + 1 ≤ n + 53 := by omega
  have hsmall : a / b / 2 ^ n < 2 ^ 53 := by
    rw [Nat.div_lt_iff_lt_mul (Nat.two_pow_pos n), ← pow_add, Nat.add_comm]
    exact Nat.lt_log2_self.trans_le (Nat.pow_le_pow_right two_pos hbits)
  rw [fits_roundWithAccuracy s (rfl : em.roundedMantissa = _) (rfl : _ = e + n) (by omega)
    (by omega)]
  rcases lt_trichotomy (e + n) 971 with hlow | hmid | hhigh
  · exact iff_of_true (.inr (.inl hlow)) (quotient_lt_overflow hb hbits hlow)
  · rw [quotient_lt_overflow_iff hb hmid, ← hhalves]
    omega
  · have hlog : (a / b).log2 = n + 52 := by omega
    have hbig : 2 ^ 52 ≤ a / b / 2 ^ n := by
      rw [Nat.le_div_iff_mul_le (Nat.two_pow_pos n), ← pow_add, Nat.add_comm]
      exact two_pow_le_of_log2 hlog
    refine iff_of_false ?_ (overflow_le_quotient hb hlog hhigh).not_gt
    omega

end Quotient

theorem log2_le_add_log2_div (a : Nat) {b : Nat} (hb : 0 < b) :
    a.log2 ≤ b.log2 + (a / b).log2 + 1 := by
  rcases Nat.eq_zero_or_pos a with rfl | ha
  · exact Nat.zero_le _
  · have hlt : a < 2 ^ (b.log2 + (a / b).log2 + 2) := by
      calc a < b * (a / b + 1) := Nat.lt_mul_div_succ a hb
        _ ≤ 2 ^ (b.log2 + 1) * 2 ^ ((a / b).log2 + 1) :=
            Nat.mul_le_mul Nat.lt_log2_self.le Nat.lt_log2_self
        _ = 2 ^ (b.log2 + (a / b).log2 + 2) := by
            rw [← pow_add]
            congr 1
            omega
    exact Nat.le_of_lt_succ ((Nat.log2_lt ha.ne').mpr hlt)

section Operations

variable {s₁ s₂ : Sign} {m₁ m₂ : Nat} {e₁ e₂ : ℤ} (h₁ : 0 < m₁) (h₂ : 0 < m₂)

theorem fits_mul (hn₁ : 2 ^ 52 ≤ m₁ ∨ e₁ = -1074) (hn₂ : 2 ^ 52 ≤ m₂ ∨ e₂ = -1074) :
    Fits (UnpackedFloat.mul .binary64 (.finite s₁ m₁ e₁ h₁) (.finite s₂ m₂ e₂ h₂)) ↔
      (m₁ * 2 ^ e₁ : ℚ) * (m₂ * 2 ^ e₂) < overflow := by
  have hsize : 2 ^ 52 ≤ m₁ * m₂ ∨ e₁ = -1074 ∧ e₂ = -1074 := by
    rcases hn₁ with hn₁ | hn₁
    · exact .inl (hn₁.trans (Nat.le_mul_of_pos_right m₁ h₂))
    · exact hn₂.imp (·.trans (Nat.le_mul_of_pos_left m₂ h₁)) (⟨hn₁, ·⟩)
  have hexp : e₁ + e₂ ≤ Format.binary64.targetExponent (totalExponent (m₁ * m₂ / 1) (e₁ + e₂)) := by
    rw [targetExponent_eq, totalExponent, Nat.div_one]
    rcases hsize with hbig | ⟨rfl, rfl⟩
    · have hlog := (Nat.le_log2 (Nat.mul_pos h₁ h₂).ne').mpr hbig
      omega
    · omega
  have hround := fits_roundQuotient (s₁ * s₂) one_pos hexp
  rw [Nat.div_one, Nat.mod_one, Nat.cast_one, div_one, Nat.cast_mul, zpow_add₀ two_ne_zero,
    mul_mul_mul_comm] at hround
  exact hround

theorem fits_div :
    Fits (UnpackedFloat.div .binary64 (.finite s₁ m₁ e₁ h₁) (.finite s₂ m₂ e₂ h₂)) ↔
      (m₁ * 2 ^ e₁ : ℚ) / (m₂ * 2 ^ e₂) < overflow := by
  set e := min (e₁ - e₂)
    (Format.binary64.targetExponent (totalExponent m₁ e₁ - totalExponent m₂ e₂)) with he
  set k := (e₁ - e₂ - e).toNat
  have hk : e₁ - e₂ = e + k := by omega
  have hdiv : UnpackedFloat.div .binary64 (.finite s₁ m₁ e₁ h₁) (.finite s₂ m₂ e₂ h₂) =
      roundWithAccuracy .binary64 (s₁ / s₂) (m₁ * 2 ^ k / m₂) e
        (accuracyOfFraction (m₁ * 2 ^ k % m₂) m₂) := by
    rw [← Nat.shiftLeft_eq]
    rfl
  have hexp : e ≤ Format.binary64.targetExponent (totalExponent (m₁ * 2 ^ k / m₂) e) := by
    have hshift : m₁.log2 + k ≤ (m₁ * 2 ^ k).log2 := by
      rw [Nat.le_log2 (Nat.mul_pos h₁ (Nat.two_pow_pos k)).ne', pow_add]
      exact Nat.mul_le_mul_right _ (Nat.log2_self_le h₁.ne')
    have hquot := log2_le_add_log2_div (m₁ * 2 ^ k) h₂
    rw [targetExponent_eq, totalExponent, totalExponent] at he
    rw [targetExponent_eq, totalExponent]
    omega
  have hvalue : ((m₁ * 2 ^ k : ℕ) : ℚ) / m₂ * 2 ^ e = (m₁ * 2 ^ e₁) / (m₂ * 2 ^ e₂) := by
    have hpow : (2 : ℚ) ^ e₁ = 2 ^ e * 2 ^ k * 2 ^ e₂ := by
      rw [← zpow_natCast, ← zpow_add₀ two_ne_zero, ← zpow_add₀ two_ne_zero]
      congr 1
      omega
    rw [hpow]
    push_cast
    field_simp
  rw [hdiv, fits_roundQuotient _ h₂ hexp, hvalue]

end Operations

def magnitude (x : Float) : ℚ :=
  match x.toModel.unpack with
  | .finite _ m e _ => m * 2 ^ e
  | _ => 0

theorem finite_ne_zero {m : Nat} (hm : 0 < m) (e : ℤ) : (m * 2 ^ e : ℚ) ≠ 0 :=
  mul_ne_zero (by exact_mod_cast hm.ne') (zpow_ne_zero e two_ne_zero)

theorem isFinite_neg (x : Float) : (-x).isFinite = true ↔ x.isFinite = true := by
  change (Float.Model.pack x.toModel.unpack.neg).unpack.isFinite = true ↔
    x.toModel.unpack.isFinite = true
  rw [isFinite_pack]
  cases hx : x.toModel.unpack with
  | finite s m e hm => exact iff_of_true (unpack_eq_finite hx).2 rfl
  | _ => simp [UnpackedFloat.neg, Fits, UnpackedFloat.isFinite]

theorem isFinite_mul (x y : Float) :
    (x * y).isFinite = true ↔
      x.isFinite = true ∧ y.isFinite = true ∧ magnitude x * magnitude y < overflow := by
  change (Float.Model.pack (UnpackedFloat.mul .binary64 x.toModel.unpack
    y.toModel.unpack)).unpack.isFinite = true ↔ x.toModel.unpack.isFinite = true ∧
      y.toModel.unpack.isFinite = true ∧ _
  rw [isFinite_pack, magnitude, magnitude]
  rcases hx : x.toModel.unpack with _ | _ | _ | ⟨s₁, m₁, e₁, h₁⟩ <;>
    rcases hy : y.toModel.unpack with _ | _ | _ | ⟨s₂, m₂, e₂, h₂⟩
  case finite.finite =>
    rw [fits_mul h₁ h₂ (unpack_eq_finite hx).1 (unpack_eq_finite hy).1]
    simp [UnpackedFloat.isFinite]
  all_goals simp [UnpackedFloat.mul, Fits, UnpackedFloat.isFinite, overflow_pos]

theorem beq_zero_iff (x : Float) : (x == 0.0) = true ↔ x.isFinite = true ∧ magnitude x = 0 := by
  change x.toModel.unpack.beq (.zero .positive) = true ↔ x.toModel.unpack.isFinite = true ∧ _
  rw [magnitude]
  rcases x.toModel.unpack with (_ | _) | _ | _ | ⟨_ | _, m, e, hm⟩
  case zero => exact iff_of_true rfl ⟨rfl, rfl⟩
  case finite.positive | finite.negative =>
    exact iff_of_false Bool.false_ne_true fun h => finite_ne_zero hm e h.2
  all_goals exact iff_of_false (by decide) (by decide)

theorem isFinite_div (x y : Float) :
    (x / y).isFinite = true ↔ x.isFinite = true ∧ (y.isInf = true ∨
      y.isFinite = true ∧ magnitude y ≠ 0 ∧ magnitude x / magnitude y < overflow) := by
  change (Float.Model.pack (UnpackedFloat.div .binary64 x.toModel.unpack
    y.toModel.unpack)).unpack.isFinite = true ↔ x.toModel.unpack.isFinite = true ∧
      (y.toModel.unpack.isInf = true ∨ y.toModel.unpack.isFinite = true ∧ _)
  rw [isFinite_pack, magnitude, magnitude]
  rcases x.toModel.unpack with _ | _ | _ | ⟨s₁, m₁, e₁, h₁⟩ <;>
    rcases y.toModel.unpack with _ | _ | _ | ⟨s₂, m₂, e₂, h₂⟩
  case finite.finite =>
    rw [fits_div h₁ h₂]
    simp [UnpackedFloat.isFinite, UnpackedFloat.isInf, finite_ne_zero h₂ e₂]
  case zero.finite =>
    exact iff_of_true trivial ⟨rfl, .inr ⟨rfl, finite_ne_zero h₂ e₂, by simp [overflow_pos]⟩⟩
  all_goals simp [UnpackedFloat.div, Fits, UnpackedFloat.isFinite, UnpackedFloat.isInf]

end ReversibleSynthesis.Double
