import Prims.Proofs.Number.Rounding

/-!
# Number — Operations

The five operations on finite numbers of a format, each of which rounds the exact result (`RoundsTo`): sums
and differences (`add_roundsTo`, `sub_roundsTo`), products (`mul_roundsTo`), quotients (`div_roundsTo`) and
square roots (`sqrt_roundsTo`).  Rounding never decreases an exponent, so the operations have to hand over
enough bits; that products do is a matter of canonical operands, and quotients and roots shift first.
-/

namespace Prims

open Float.Model Float.Model.UnpackedFloat

variable {spec : Format} {x y : UnpackedFloat} {s : Sign} {m n k : ℕ} {e : ℤ} {v : ℝ}

/-! ### Rounding signed numbers -/

/-- The float is a real number rounded to a format. -/
def RoundsTo (spec : Format) (v : ℝ) (x : UnpackedFloat) : Prop :=
  ∃ s, v = unit s * |v| ∧ Rounds spec s |v| x

theorem unit_mul_self (s : Sign) : unit s * unit s = 1 := by
  cases s <;> simp [unit]

namespace RoundsTo

theorem of_rounds (h : Rounds spec s v x) (hv : 0 ≤ v) : RoundsTo spec (unit s * v) x := by
  have habs : |unit s * v| = v := by rw [abs_mul, abs_unit, one_mul, abs_of_nonneg hv]
  exact ⟨s, by rw [habs], by rwa [habs]⟩

theorem zero (spec : Format) (s : Sign) : RoundsTo spec 0 (.zero s) :=
  ⟨s, by simp, by simpa using Rounds.zero spec s⟩

theorem isFinite (h : RoundsTo spec v x) : x.isFinite = true := by
  obtain ⟨s, -, h⟩ := h
  exact h.isFinite

theorem error (h : RoundsTo spec v x) : |value x - v| ≤ max (roundoff spec * |v|) (underflow spec) := by
  obtain ⟨s, hv, h⟩ := h
  have := h.error
  rwa [← hv] at this

theorem error_of_units {j : ℤ} (h : RoundsTo spec v x) (hv : v = j * 2 ^ spec.minExponent) :
    |value x - v| ≤ roundoff spec * |v| := by
  obtain ⟨s, hs, h⟩ := h
  have := h.error_of_units (k := j.natAbs) (by
    rw [hv, abs_mul, abs_of_pos (two_zpow_pos _), Nat.cast_natAbs, Int.cast_abs])
  rwa [← hs] at this

theorem value_of_canonical {j : ℤ} (h : RoundsTo spec v x) (hv : v = j * 2 ^ e)
    (hj : j.natAbs < 2 ^ spec.mantissaBits) (he : spec.minExponent ≤ e) : value x = v := by
  obtain ⟨s, hs, h⟩ := h
  have := h.value_of_canonical (m := j.natAbs) (by
    rw [hv, abs_mul, abs_of_pos (two_zpow_pos _), Nat.cast_natAbs, Int.cast_abs]) hj he
  rwa [← hs] at this

theorem value_eq_zero_iff (h : RoundsTo spec v x) : value x = 0 ↔ |v| ≤ underflow spec := by
  obtain ⟨s, -, h⟩ := h
  exact h.value_eq_zero_iff

end RoundsTo

/-- **Rounding a whole number** of either sign. -/
theorem normalize_roundsTo (spec : Format) (j : ℤ) (e : ℤ) (s : Sign) :
    RoundsTo spec (j * 2 ^ e) (UnpackedFloat.normalize spec j e s) := by
  unfold UnpackedFloat.normalize
  split
  next h =>
    have hj : j < 0 := compare_lt_iff_lt.mp h
    have hcast : (((-j).toNat : ℕ) : ℝ) = -j := by
      have : (((-j).toNat : ℤ) : ℝ) = ((-j : ℤ) : ℝ) := congrArg _ (Int.toNat_of_nonneg (by omega))
      push_cast at this
      exact this
    have := RoundsTo.of_rounds (round_rounds spec .negative (by omega : 0 < (-j).toNat) e)
      (by positivity)
    rw [hcast] at this
    simpa [unit] using this
  next h =>
    obtain rfl := compare_eq_iff_eq.mp h
    simpa using RoundsTo.zero spec s
  next h =>
    have hj : 0 < j := compare_gt_iff_gt.mp h
    have hcast : ((j.toNat : ℕ) : ℝ) = j := by
      have : ((j.toNat : ℤ) : ℝ) = (j : ℝ) := congrArg _ (Int.toNat_of_nonneg hj.le)
      push_cast at this
      exact this
    have := RoundsTo.of_rounds (round_rounds spec .positive (by omega : 0 < j.toNat) e)
      (by positivity)
    rw [hcast] at this
    simpa [unit] using this

/-! ### Sums -/

/-- What has a mantissa is canonical. -/
def IsCanonical (spec : Format) : UnpackedFloat → Prop
  | .finite _ m e _                      => Canonical spec m e
  | .zero _ | .infinity _ | .notANumber => True

theorem roundsTo_self (h : IsCanonical spec x) (hx : x.isFinite = true) : RoundsTo spec (value x) x := by
  cases x with
  | infinity s => cases hx
  | notANumber => cases hx
  | zero s => exact .zero spec s
  | finite s m e hm =>
    exact .of_rounds (.of_canonical s h hm) (mul_nonneg (Nat.cast_nonneg m) (two_zpow_pos e).le)

theorem cast_apply (s : Sign) (m : ℕ) : ((s.apply m : ℤ) : ℝ) = unit s * m := by
  cases s <;> simp [Sign.apply, unit]

theorem unit_neg (s : Sign) : unit (-s) = -unit s := by
  cases s
  · exact (neg_neg (1 : ℝ)).symm
  · rfl

/-- The value at a smaller exponent. -/
theorem decreaseExponent_value {t : ℤ} (m : ℕ) (h : t ≤ e) :
    ((decreaseExponent m e t).1 : ℝ) * 2 ^ t = m * 2 ^ e := by
  have hshift : ((e - t).toNat : ℤ) = e - t := Int.toNat_of_nonneg (by omega)
  show ((m <<< (e - t).toNat : ℕ) : ℝ) * 2 ^ t = m * 2 ^ e
  rw [Nat.shiftLeft_eq]
  push_cast
  rw [mul_assoc, ← zpow_natCast, hshift, ← zpow_add₀ two_ne_zero, sub_add_cancel]

theorem add_roundsTo (hx : IsCanonical spec x) (hy : IsCanonical spec y) (hxf : x.isFinite = true)
    (hyf : y.isFinite = true) : RoundsTo spec (value x + value y) (UnpackedFloat.add spec x y) := by
  cases x with
  | infinity s => cases hxf
  | notANumber => cases hxf
  | zero s =>
    cases y with
    | infinity t => cases hyf
    | notANumber => cases hyf
    | zero t =>
      rw [value_zero, value_zero, add_zero]
      show RoundsTo spec 0 (if s == t then .zero s else .zero .positive)
      split
      · exact .zero spec s
      · exact .zero spec .positive
    | finite t n f hn =>
      rw [value_zero, zero_add]
      exact roundsTo_self hy hyf
  | finite s m e hm =>
    cases y with
    | infinity t => cases hyf
    | notANumber => cases hyf
    | zero t =>
      rw [value_zero, add_zero]
      exact roundsTo_self hx hxf
    | finite t n f hn =>
      have hsum := normalize_roundsTo spec (s.apply (decreaseExponent m e (min e f)).1 +
        t.apply (decreaseExponent n f (min e f)).1) (min e f) .positive
      rw [Int.cast_add, cast_apply, cast_apply, add_mul, mul_assoc, mul_assoc,
        decreaseExponent_value m (min_le_left e f), decreaseExponent_value n (min_le_right e f)] at hsum
      exact hsum

theorem apply_neg (s : Sign) (j : ℤ) : (-s).apply j = -s.apply j := by
  cases s with
  | positive => rfl
  | negative => exact (neg_neg j).symm

/-- A difference is the sum with the other sign. -/
theorem sub_eq_add (spec : Format) (x y : UnpackedFloat) :
    UnpackedFloat.sub spec x y = UnpackedFloat.add spec x y.neg := by
  cases x with
  | notANumber => cases y <;> rfl
  | infinity s => cases y <;> rfl
  | zero s => cases y <;> rfl
  | finite s m e hm =>
    cases y with
    | notANumber | infinity t | zero t => rfl
    | finite t n f hn =>
      show UnpackedFloat.normalize _ (_ - _) _ _ = UnpackedFloat.normalize _ (_ + _) _ _
      rw [apply_neg, ← sub_eq_add_neg]

theorem value_neg (x : UnpackedFloat) : value x.neg = -value x := by
  cases x with
  | notANumber | infinity s | zero s => exact neg_zero.symm
  | finite s m e hm =>
    show value (.finite (-s) m e hm) = _
    rw [value_finite, value_finite, unit_neg, neg_mul]

theorem neg_isFinite (x : UnpackedFloat) : x.neg.isFinite = x.isFinite := by
  cases x <;> rfl

theorem IsCanonical.neg (h : IsCanonical spec x) : IsCanonical spec x.neg := by
  cases x with
  | notANumber | infinity s | zero s => trivial
  | finite s m e hm => exact h

theorem sub_roundsTo (hx : IsCanonical spec x) (hy : IsCanonical spec y) (hxf : x.isFinite = true)
    (hyf : y.isFinite = true) : RoundsTo spec (value x - value y) (UnpackedFloat.sub spec x y) := by
  rw [sub_eq_add, sub_eq_add_neg, ← value_neg]
  exact add_roundsTo hx hy.neg hxf (neg_isFinite y ▸ hyf)

/-! ### Products -/

theorem unit_mul (s t : Sign) : unit (s * t) = unit s * unit t := by
  cases s with
  | positive => cases t <;> exact (one_mul _).symm
  | negative =>
    cases t with
    | positive => exact (mul_one _).symm
    | negative => exact (by norm_num [unit] : (1 : ℝ) = unit .negative * unit .negative)

theorem minExponent_nonpos (spec : Format) : spec.minExponent ≤ 0 := by
  have hbits := mantissaBits_eq spec
  have hm := spec.hm
  have hpow : (1 : ℤ) ≤ 2 ^ (spec.exponentBits - 1) := one_le_pow₀ one_le_two
  unfold Format.minExponent
  omega

/-- A mantissa that is not canonical because it is too long loses nothing by rounding. -/
theorem le_target_of_le (h : 2 ^ spec.mantissaBitsWithoutImplicit ≤ m) : e ≤ target spec m e := by
  have hbits := mantissaBits_eq spec
  have hm : m ≠ 0 := fun hm => by simp [hm] at h
  have hlog : spec.mantissaBitsWithoutImplicit ≤ Nat.log2 m := (Nat.le_log2 hm).mpr h
  have := target_eq spec m e
  omega

/-- The product of two canonical mantissas has enough bits. -/
theorem Canonical.le_target_mul {f : ℤ} (hx : Canonical spec m e) (hy : Canonical spec n f) (hm : 0 < m)
    (hn : 0 < n) : e + f ≤ target spec (m * n) (e + f) := by
  rcases hx.normal with rfl | hfull
  · rcases hy.normal with rfl | hfull
    · have := minExponent_nonpos spec
      exact le_trans (by omega) (le_max_right _ _)
    · exact le_target_of_le (hfull.trans (Nat.le_mul_of_pos_left n hm))
  · exact le_target_of_le (hfull.trans (Nat.le_mul_of_pos_right m hn))

theorem mul_roundsTo (hx : IsCanonical spec x) (hy : IsCanonical spec y) (hxf : x.isFinite = true)
    (hyf : y.isFinite = true) : RoundsTo spec (value x * value y) (UnpackedFloat.mul spec x y) := by
  cases x with
  | infinity s => cases hxf
  | notANumber => cases hxf
  | zero s =>
    rw [value_zero, zero_mul]
    cases y with
    | infinity t => cases hyf
    | notANumber => cases hyf
    | zero t => exact .zero spec (s * t)
    | finite t n f hn => exact .zero spec (s * t)
  | finite s m e hm =>
    cases y with
    | infinity t => cases hyf
    | notANumber => cases hyf
    | zero t =>
      rw [value_zero, mul_zero]
      exact .zero spec (s * t)
    | finite t n f hn =>
      have hproduct := RoundsTo.of_rounds (roundWithAccuracy_rounds spec (s * t) (r := 0)
        (a := .exact) rfl (hx.le_target_mul hy hm hn)) (by positivity)
      have hvalue : value (.finite s m e hm) * value (.finite t n f hn) =
          unit (s * t) * (((m * n : ℕ) + 0) * 2 ^ (e + f)) := by
        rw [value_finite, value_finite, unit_mul, zpow_add₀ two_ne_zero]
        push_cast
        ring
      rw [hvalue]
      exact hproduct

/-! ### Quotients -/

theorem unit_div (s t : Sign) : unit (s / t) = unit s / unit t := by
  cases s with
  | positive =>
    cases t with
    | positive => exact (div_one 1).symm
    | negative => exact (by norm_num [unit] : (-1 : ℝ) = unit .positive / unit .negative)
  | negative =>
    cases t with
    | positive => exact (div_one (-1)).symm
    | negative => exact (by norm_num [unit] : (1 : ℝ) = unit .negative / unit .negative)

theorem tells_accuracyOfFraction (h : m < n) : Tells (accuracyOfFraction m n) (m / n) := by
  have hn : (0 : ℝ) < n := by exact_mod_cast (Nat.zero_le m).trans_lt h
  have hlt : (m : ℝ) / n < 1 := by
    rw [div_lt_one hn]
    exact_mod_cast h
  unfold accuracyOfFraction
  split
  next hm => simp [Tells, hm]
  next hm =>
    have hpos : (0 : ℝ) < m / n := div_pos (by exact_mod_cast Nat.pos_of_ne_zero hm) hn
    cases hcompare : compare (2 * m) n with
    | lt =>
      have : ((2 * m : ℕ) : ℝ) < n := by exact_mod_cast compare_lt_iff_lt.mp hcompare
      push_cast at this
      exact ⟨hpos, by rw [← add_div, div_lt_one hn]; linarith⟩
    | eq =>
      have : ((2 * m : ℕ) : ℝ) = n := by exact_mod_cast compare_eq_iff_eq.mp hcompare
      push_cast at this
      show (m : ℝ) / n + m / n = 1
      rw [← add_div, div_eq_one_iff_eq hn.ne']
      linarith
    | gt =>
      have : (n : ℝ) < (2 * m : ℕ) := by exact_mod_cast compare_gt_iff_gt.mp hcompare
      push_cast at this
      exact ⟨by rw [← add_div, one_lt_div hn]; linarith, hlt⟩

/-- The exponent of a quotient, at which it has enough bits. -/
def quotientExponent (spec : Format) (m : ℕ) (e : ℤ) (n : ℕ) (f : ℤ) : ℤ :=
  min (e - f) (spec.targetExponent (totalExponent m e - totalExponent n f))

theorem le_target_quotient (f : ℤ) (hm : 0 < m) (hn : 0 < n) :
    let t := quotientExponent spec m e n f
    t ≤ target spec ((m <<< (e - f - t).toNat) / n) t := by
  intro t
  have hbits := mantissaBits_eq spec
  have ht : t ≤ max (totalExponent m e - totalExponent n f - spec.mantissaBits) spec.minExponent :=
    min_le_right _ _
  have hshift : ((e - f - t).toNat : ℤ) = e - f - t :=
    Int.toNat_of_nonneg (sub_nonneg.mpr (min_le_left _ _))
  rcases le_max_iff.mp ht with ht | ht
  · unfold totalExponent at ht
    refine le_target_of_le ((Nat.le_div_iff_mul_le hn).mpr ?_)
    calc 2 ^ spec.mantissaBitsWithoutImplicit * n
        ≤ 2 ^ spec.mantissaBitsWithoutImplicit * 2 ^ (Nat.log2 n + 1) :=
          Nat.mul_le_mul_left _ Nat.lt_log2_self.le
      _ = 2 ^ (spec.mantissaBitsWithoutImplicit + (Nat.log2 n + 1)) := (pow_add _ _ _).symm
      _ ≤ 2 ^ (Nat.log2 m + (e - f - t).toNat) := Nat.pow_le_pow_right two_pos (by omega)
      _ = 2 ^ Nat.log2 m * 2 ^ (e - f - t).toNat := pow_add _ _ _
      _ ≤ m * 2 ^ (e - f - t).toNat := Nat.mul_le_mul_right _ (Nat.log2_self_le hm.ne')
      _ = m <<< (e - f - t).toNat := (Nat.shiftLeft_eq _ _).symm
  · exact ht.trans (le_max_right _ _)

theorem div_roundsTo (hxf : x.isFinite = true) (hyf : y.isFinite = true) (hy : value y ≠ 0) :
    RoundsTo spec (value x / value y) (UnpackedFloat.div spec x y) := by
  cases y with
  | infinity t => cases hyf
  | notANumber => cases hyf
  | zero t => exact absurd rfl hy
  | finite t n f hn =>
    cases x with
    | infinity s => cases hxf
    | notANumber => cases hxf
    | zero s =>
      rw [value_zero, zero_div]
      exact .zero spec (s / t)
    | finite s m e hm =>
      set d := quotientExponent spec m e n f
      set M := m <<< (e - f - d).toNat
      have hn' : (0 : ℝ) < n := by exact_mod_cast hn
      have hshift : ((e - f - d).toNat : ℤ) = e - f - d :=
        Int.toNat_of_nonneg (sub_nonneg.mpr (min_le_left _ _))
      have hfraction : ((M / n : ℕ) : ℝ) + (M % n : ℕ) / n = M / n := by
        have : (M : ℝ) = n * (M / n : ℕ) + (M % n : ℕ) := by exact_mod_cast (Nat.div_add_mod M n).symm
        rw [this]
        field_simp
      have hM : (M : ℝ) * 2 ^ d = m * 2 ^ (e - f) := by
        rw [show M = m * 2 ^ (e - f - d).toNat from Nat.shiftLeft_eq _ _]
        push_cast
        rw [mul_assoc, ← zpow_natCast, hshift, ← zpow_add₀ two_ne_zero, sub_add_cancel]
      have hquotient := RoundsTo.of_rounds (roundWithAccuracy_rounds spec (s / t)
        (tells_accuracyOfFraction (Nat.mod_lt M hn)) (le_target_quotient f hm hn)) (by positivity)
      have hvalue : value (.finite s m e hm) / value (.finite t n f hn) =
          unit (s / t) * ((((M / n : ℕ) : ℝ) + (M % n : ℕ) / n) * 2 ^ d) := by
        rw [hfraction, div_mul_eq_mul_div, hM, value_finite, value_finite, unit_div,
          zpow_sub₀ two_ne_zero]
        field_simp
      rw [hvalue]
      exact hquotient

/-! ### Square roots -/

/-- What a whole root leaves out, by the remainder. -/
theorem tells_sqrt (m : ℕ) :
    Tells (if m - Nat.sqrt m * Nat.sqrt m = 0 then .exact
      else .inexact (if m - Nat.sqrt m * Nat.sqrt m ≤ Nat.sqrt m then .lt else .gt))
      (√(m : ℝ) - Nat.sqrt m) := by
  have hle : Nat.sqrt m * Nat.sqrt m ≤ m := Nat.sqrt_le m
  have hlt : m < (Nat.sqrt m + 1) * (Nat.sqrt m + 1) := Nat.lt_succ_sqrt m
  set k := Nat.sqrt m
  have hroot : √(m : ℝ) < k + 1 := by
    rw [Real.sqrt_lt' (by positivity)]
    have : (m : ℝ) < (k + 1) * (k + 1) := by exact_mod_cast hlt
    linarith [sq ((k : ℝ) + 1)]
  split
  next hzero =>
    have hm : (m : ℝ) = k * k := by exact_mod_cast (by omega : m = k * k)
    show √(m : ℝ) - k = 0
    rw [hm, Real.sqrt_mul_self (Nat.cast_nonneg k), sub_self]
  next hpos =>
    have hk : (k : ℝ) < √(m : ℝ) := by
      rw [Real.lt_sqrt (Nat.cast_nonneg k), sq]
      exact_mod_cast (by omega : k * k < m)
    split
    next hsmall =>
      have hm : (m : ℝ) ≤ k * k + k := by exact_mod_cast (by omega : m ≤ k * k + k)
      have hhalf : √(m : ℝ) < k + 1 / 2 := by
        rw [Real.sqrt_lt' (by positivity)]
        nlinarith
      exact ⟨by linarith, by linarith⟩
    next hlarge =>
      have hm : (k : ℝ) * k + k + 1 ≤ m := by exact_mod_cast (by omega : k * k + k + 1 ≤ m)
      have hhalf : (k : ℝ) + 1 / 2 < √(m : ℝ) := by
        rw [Real.lt_sqrt (by positivity)]
        nlinarith
      exact ⟨by linarith, by linarith⟩

/-- The exponent of a root, at which it has enough bits. -/
def rootExponent (spec : Format) (m : ℕ) (e : ℤ) : ℤ :=
  min (e.ediv 2) (spec.targetExponent ((totalExponent m e + 1).ediv 2))

theorem two_mul_rootExponent_le (spec : Format) (m : ℕ) (e : ℤ) : 2 * rootExponent spec m e ≤ e := by
  have : rootExponent spec m e ≤ e / 2 := min_le_left _ _
  omega

theorem le_target_root (spec : Format) (e : ℤ) (hm : 0 < m) :
    let t := rootExponent spec m e
    t ≤ target spec (Nat.sqrt (m <<< (e - 2 * t).toNat)) t := by
  intro t
  have hbits := mantissaBits_eq spec
  have ht : t ≤ max ((totalExponent m e + 1) / 2 - spec.mantissaBits) spec.minExponent := min_le_right _ _
  have hshift : ((e - 2 * t).toNat : ℤ) = e - 2 * t :=
    Int.toNat_of_nonneg (sub_nonneg.mpr (two_mul_rootExponent_le spec m e))
  rcases le_max_iff.mp ht with ht | ht
  · unfold totalExponent at ht
    refine le_target_of_le (Nat.le_sqrt.mpr ?_)
    calc 2 ^ spec.mantissaBitsWithoutImplicit * 2 ^ spec.mantissaBitsWithoutImplicit
        = 2 ^ (spec.mantissaBitsWithoutImplicit + spec.mantissaBitsWithoutImplicit) := (pow_add _ _ _).symm
      _ ≤ 2 ^ (Nat.log2 m + (e - 2 * t).toNat) := Nat.pow_le_pow_right two_pos (by omega)
      _ = 2 ^ Nat.log2 m * 2 ^ (e - 2 * t).toNat := pow_add _ _ _
      _ ≤ m * 2 ^ (e - 2 * t).toNat := Nat.mul_le_mul_right _ (Nat.log2_self_le hm.ne')
      _ = m <<< (e - 2 * t).toNat := (Nat.shiftLeft_eq _ _).symm
  · exact ht.trans (le_max_right _ _)

theorem sqrt_roundsTo (hxf : x.isFinite = true) (hx : 0 ≤ value x) :
    RoundsTo spec √(value x) (UnpackedFloat.sqrt spec x) := by
  cases x with
  | infinity s => cases hxf
  | notANumber => cases hxf
  | zero s =>
    rw [value_zero, Real.sqrt_zero]
    exact .zero spec s
  | finite s m e hm =>
    cases s with
    | negative =>
      have hm' : (0 : ℝ) < m := by exact_mod_cast hm
      have : (0 : ℝ) < m * 2 ^ e := mul_pos hm' (two_zpow_pos e)
      rw [value_finite, unit] at hx
      linarith
    | positive =>
      set t := rootExponent spec m e
      set M := m <<< (e - 2 * t).toNat
      have hshift : ((e - 2 * t).toNat : ℤ) = e - 2 * t :=
        Int.toNat_of_nonneg (sub_nonneg.mpr (two_mul_rootExponent_le spec m e))
      have hM : (m : ℝ) * 2 ^ e = M * (2 ^ t) ^ 2 := by
        rw [show M = m * 2 ^ (e - 2 * t).toNat from Nat.shiftLeft_eq _ _]
        push_cast
        rw [mul_assoc, ← zpow_natCast, hshift, sq, ← zpow_add₀ two_ne_zero, ← zpow_add₀ two_ne_zero]
        congr 2
        ring
      have hroot := RoundsTo.of_rounds (roundWithAccuracy_rounds spec .positive (tells_sqrt M)
        (le_target_root spec e hm)) (by rw [add_sub_cancel]; positivity)
      have hvalue : √(value (.finite .positive m e hm)) =
          unit .positive * (((Nat.sqrt M : ℝ) + (√(M : ℝ) - Nat.sqrt M)) * 2 ^ t) := by
        rw [value_finite, unit, one_mul, one_mul, hM, Real.sqrt_mul (Nat.cast_nonneg M),
          Real.sqrt_sq (two_zpow_pos t).le, add_sub_cancel]
      rw [hvalue]
      exact hroot

end Prims
