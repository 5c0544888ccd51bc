import Mathlib

/-!
# Number — Rounding

Rounding as the machine does it, said of real numbers.  A mantissa with its round and sticky bits describes
a real number between two whole numbers (`Describes`), which shifting halves and rounding takes to the
nearest whole number, the even one of two (`Describes.nearest`).  What a format makes of a positive real is
that whole number of units at the exponent its size asks for (`Rounds`), in canonical form.  Main statement:
`roundWithAccuracy_rounds`, from which the rounding of whole numbers at any exponent follows
(`round_rounds`).
-/

namespace Prims

open Float.Model Float.Model.UnpackedFloat

/-! ### The nearest whole number -/

/-- The whole number nearest to a real, the even one of two. -/
structure Nearest (n : ℕ) (x : ℝ) : Prop where
  near : |x - n| ≤ 1 / 2
  even : |x - n| = 1 / 2 → Even n

namespace Nearest

variable {n k : ℕ} {x : ℝ}

theorem le_add (h : Nearest n x) : (n : ℝ) ≤ x + 1 / 2 := by
  linarith [(abs_le.mp h.near).1]

theorem sub_le (h : Nearest n x) : x - 1 / 2 ≤ n := by
  linarith [(abs_le.mp h.near).2]

/-- A whole number is nearest to itself only. -/
theorem eq_of_natCast (h : Nearest n k) : n = k := by
  have hn : (n : ℝ) < k + 1 := by linarith [h.le_add]
  have hk : (k : ℝ) < n + 1 := by linarith [h.sub_le]
  norm_cast at hn hk
  omega

theorem le_of_le (h : Nearest n x) (hx : x ≤ k) : n ≤ k := by
  have : (n : ℝ) < k + 1 := by linarith [h.le_add]
  exact Nat.lt_succ_iff.mp (by exact_mod_cast this)

theorem ge_of_ge (h : Nearest n x) (hx : k ≤ x) : k ≤ n := by
  have : (k : ℝ) < n + 1 := by linarith [h.sub_le]
  exact Nat.lt_succ_iff.mp (by exact_mod_cast this)

/-- What is nearest to zero is at most one half. -/
theorem eq_zero_iff (h : Nearest n x) : n = 0 ↔ x ≤ 1 / 2 := by
  constructor
  · rintro rfl
    simpa using h.sub_le
  · intro hx
    by_contra hpos
    have hone : (1 : ℝ) ≤ n := by exact_mod_cast Nat.one_le_iff_ne_zero.mpr hpos
    have hle := h.le_add
    have hn : (n : ℝ) = 1 := by linarith
    have heven := h.even (by rw [hn, show x = 1 / 2 by linarith]; norm_num)
    obtain rfl : n = 1 := by exact_mod_cast hn
    exact Nat.not_even_one heven

end Nearest

/-! ### Round and sticky bits -/

/-- What an accuracy tells of the part that a mantissa leaves out. -/
def Tells : Accuracy → ℝ → Prop
  | .exact,       r => r = 0
  | .inexact .lt, r => 0 < r ∧ r + r < 1
  | .inexact .eq, r => r + r = 1
  | .inexact .gt, r => 1 < r + r ∧ r < 1

theorem Tells.bounds {a : Accuracy} {r : ℝ} (h : Tells a r) : 0 ≤ r ∧ r < 1 := by
  match a, h with
  | .exact,       h => exact ⟨h.ge, h.trans_lt one_pos⟩
  | .inexact .lt, h => exact ⟨h.1.le, by linarith [h.2]⟩
  | .inexact .eq, h =>
    have h : r + r = 1 := h
    exact ⟨by linarith, by linarith⟩
  | .inexact .gt, h => exact ⟨by linarith [h.1], h.2⟩

/-- A mantissa with its round and sticky bits describes the real number. -/
def Describes (em : ExtendedMantissa) (x : ℝ) : Prop := Tells em.accuracy (x - em.mantissa)

namespace Describes

variable {em : ExtendedMantissa} {m : ℕ} {a : Accuracy} {r x : ℝ}

theorem of_tells (m : ℕ) (h : Tells a r) :
    Describes (ExtendedMantissa.ofMantissaAndAccuracy m a) (m + r) := by
  have hr : (m : ℝ) + r - m = r := by ring
  match a, h with
  | .exact,       h => exact hr.trans h
  | .inexact .lt, h => exact (congrArg (Tells (.inexact .lt)) hr).mpr h
  | .inexact .eq, h => exact (congrArg (Tells (.inexact .eq)) hr).mpr h
  | .inexact .gt, h => exact (congrArg (Tells (.inexact .gt)) hr).mpr h

/-- **Shifting halves**: the last bit of the mantissa becomes the round bit, which joins the sticky ones. -/
theorem shiftRightOne (h : Describes em x) : Describes em.shiftRightOne (x / 2) := by
  obtain ⟨m, round, sticky⟩ := em
  have hm : (m : ℝ) = 2 * (m / 2 : ℕ) + (m % 2 : ℕ) := by exact_mod_cast (Nat.div_add_mod m 2).symm
  rcases Nat.mod_two_eq_zero_or_one m with hbit | hbit <;> rw [hbit] at hm <;>
    cases round <;> cases sticky <;>
    simp only [Describes, Tells, ExtendedMantissa.accuracy, ExtendedMantissa.shiftRightOne, hbit,
      Bool.or_false, Bool.or_true, bne_self_eq_false, Nat.reduceBNe, Nat.cast_zero,
      Nat.cast_one] at h hm ⊢ <;>
    first | linarith | (constructor <;> linarith)

theorem shiftRight (h : Describes em x) (k : ℕ) : Describes (em >>> k) (x / 2 ^ k) := by
  show Describes (k.repeat ExtendedMantissa.shiftRightOne em) _
  induction k with
  | zero => simpa [Nat.repeat] using h
  | succ k ih =>
    rw [pow_succ, ← div_div]
    exact ih.shiftRightOne

/-- **Rounding takes a description to the nearest whole number.** -/
theorem nearest (h : Describes em x) : Nearest em.roundedMantissa x := by
  obtain ⟨m, round, sticky⟩ := em
  cases round <;> cases sticky <;>
    simp only [Describes, Tells, ExtendedMantissa.accuracy] at h
  · show Nearest m x
    have hx : x - m = 0 := h
    exact ⟨by rw [hx]; norm_num, by rw [hx]; norm_num⟩
  · show Nearest m x
    have hx : |x - m| < 1 / 2 := abs_lt.mpr ⟨by linarith [h.1], by linarith [h.2]⟩
    exact ⟨hx.le, fun htie => absurd htie hx.ne⟩
  · show Nearest (m + m % 2) x
    rcases Nat.mod_two_eq_zero_or_one m with hbit | hbit
    · have hx : x - m = 1 / 2 := by linarith
      rw [hbit, Nat.add_zero]
      exact ⟨by rw [hx]; norm_num, fun _ => Nat.even_iff.mpr hbit⟩
    · rw [hbit]
      have hx : x - (m + 1 : ℕ) = -(1 / 2) := by
        push_cast
        linarith
      exact ⟨by rw [hx]; norm_num, fun _ => Nat.even_iff.mpr (by omega)⟩
  · show Nearest (m + 1) x
    have hx : |x - (m + 1 : ℕ)| < 1 / 2 := by
      push_cast
      exact abs_lt.mpr ⟨by linarith [h.1], by linarith [h.2]⟩
    exact ⟨hx.le, fun htie => absurd htie hx.ne⟩

end Describes

/-! ### Canonical mantissas -/

variable {spec : Format} {m n k : ℕ} {e q : ℤ} {s : Sign} {v r : ℝ} {a : Accuracy} {x : UnpackedFloat}

/-- A mantissa of the format at an exponent of its range, which is the least one that holds it. -/
structure Canonical (spec : Format) (m : ℕ) (e : ℤ) : Prop where
  lt : m < 2 ^ spec.mantissaBits
  le : spec.minExponent ≤ e
  normal : e = spec.minExponent ∨ 2 ^ spec.mantissaBitsWithoutImplicit ≤ m

/-- The exponent that the format takes for a mantissa. -/
def target (spec : Format) (m : ℕ) (e : ℤ) : ℤ := spec.targetExponent (totalExponent m e)

theorem target_eq (spec : Format) (m : ℕ) (e : ℤ) :
    target spec m e = max (Nat.log2 m + 1 + e - spec.mantissaBits) spec.minExponent := rfl

theorem mantissaBits_eq (spec : Format) : spec.mantissaBits = spec.mantissaBitsWithoutImplicit + 1 :=
  Nat.add_comm _ _

theorem two_zpow_pos (q : ℤ) : (0 : ℝ) < 2 ^ q := zpow_pos two_pos q

/-- A mantissa with something left out lies below the power of two above it, -/
theorem lt_two_zpow_target (spec : Format) (h : Tells a r) (m : ℕ) (e : ℤ) :
    (m + r) * (2 : ℝ) ^ e < 2 ^ (target spec m e + spec.mantissaBits) := by
  have hm : m + 1 ≤ 2 ^ (Nat.log2 m + 1) := Nat.lt_log2_self
  have hr : (m : ℝ) + r < 2 ^ (Nat.log2 m + 1) := by
    have : (m : ℝ) + 1 ≤ 2 ^ (Nat.log2 m + 1) := by exact_mod_cast hm
    linarith [h.bounds.2]
  calc (m + r) * (2 : ℝ) ^ e < 2 ^ (Nat.log2 m + 1) * 2 ^ e := by
        exact mul_lt_mul_of_pos_right hr (two_zpow_pos e)
    _ = 2 ^ ((Nat.log2 m + 1 : ℕ) + e : ℤ) := by rw [zpow_add₀ two_ne_zero, zpow_natCast]
    _ ≤ 2 ^ (target spec m e + spec.mantissaBits) := by
        refine zpow_le_zpow_right₀ one_le_two ?_
        have := target_eq spec m e
        push_cast
        omega

/-- and fills the mantissa, unless it is at the least exponent. -/
theorem target_eq_or_le (h : Tells a r) (hle : e ≤ target spec m e) : target spec m e = spec.minExponent ∨
    (2 : ℝ) ^ (target spec m e + spec.mantissaBitsWithoutImplicit) ≤ (m + r) * 2 ^ e := by
  have htarget := target_eq spec m e
  have hbits := mantissaBits_eq spec
  rcases max_choice (Nat.log2 m + 1 + e - spec.mantissaBits : ℤ) spec.minExponent with hmax | hmax
  · rw [hmax] at htarget
    have hm : m ≠ 0 := by
      rintro rfl
      have := spec.hm
      rw [Nat.log2_zero] at htarget
      omega
    have hlog : (2 : ℝ) ^ Nat.log2 m ≤ m + r := by
      have : (2 : ℝ) ^ Nat.log2 m ≤ m := by exact_mod_cast Nat.log2_self_le hm
      linarith [h.bounds.1]
    refine .inr ?_
    calc (2 : ℝ) ^ (target spec m e + spec.mantissaBitsWithoutImplicit)
        = 2 ^ ((Nat.log2 m : ℕ) + e : ℤ) := by
          congr 1
          omega
      _ = 2 ^ Nat.log2 m * 2 ^ e := by rw [zpow_add₀ two_ne_zero, zpow_natCast]
      _ ≤ (m + r) * 2 ^ e := mul_le_mul_of_nonneg_right hlog (two_zpow_pos e).le
  · exact .inl (htarget.trans hmax)

/-- **The first shift** ends at the exponent of the format, with a description of the same number. -/
theorem shiftToTargetExponent_describes (h : Tells a r) (hle : e ≤ target spec m e) :
    (shiftToTargetExponent spec m e a).2 = target spec m e ∧
    Describes (shiftToTargetExponent spec m e a).1 ((m + r) * 2 ^ e / 2 ^ target spec m e) := by
  have hshift : ((target spec m e - e).toNat : ℤ) = target spec m e - e := Int.toNat_of_nonneg (by omega)
  refine ⟨?_, ?_⟩
  · show e + ((target spec m e - e).toNat : ℤ) = _
    omega
  · have hx : ((m : ℝ) + r) * 2 ^ e / 2 ^ target spec m e = (m + r) / 2 ^ (target spec m e - e).toNat := by
      rw [← zpow_natCast, hshift, zpow_sub₀ two_ne_zero]
      field_simp
    rw [hx]
    exact (Describes.of_tells m h).shiftRight _

/-! ### Rounded numbers -/

/-- The float is a positive real with a sign in front, rounded to a format whose exponents have no upper
end: a nearest whole number of units, at the least exponent or at one where it fills the mantissa. -/
structure Rounds (spec : Format) (s : Sign) (v : ℝ) (x : UnpackedFloat) : Prop where
  rounds : ∃ (n : ℕ) (q : ℤ), Nearest n (v / 2 ^ q) ∧ spec.minExponent ≤ q ∧
    (q = spec.minExponent ∨ (2 : ℝ) ^ (q + spec.mantissaBitsWithoutImplicit) ≤ v) ∧
    ((n = 0 ∧ x = .zero s) ∨
      ∃ m e h, x = .finite s m e h ∧ Canonical spec m e ∧ (m : ℝ) * 2 ^ e = n * 2 ^ q)

/-- The exponent of a mantissa that is full or nearly so. -/
theorem shiftToTargetExponent_canonical (hq : spec.minExponent ≤ q) (hn : n ≤ 2 ^ spec.mantissaBits)
    (hfull : q = spec.minExponent ∨ 2 ^ spec.mantissaBitsWithoutImplicit ≤ n) :
    ∃ m e, (shiftToTargetExponent spec n q .exact).1.mantissa = m ∧
      (shiftToTargetExponent spec n q .exact).2 = e ∧ Canonical spec m e ∧ (m : ℝ) * 2 ^ e = n * 2 ^ q := by
  have hbits := mantissaBits_eq spec
  rcases hn.lt_or_eq with hlt | rfl
  · have hlog : Nat.log2 n < spec.mantissaBits := by
      rcases Nat.eq_zero_or_pos n with rfl | hpos
      · rw [Nat.log2_zero]
        omega
      · exact (Nat.log2_lt hpos.ne').mpr hlt
    have hshift : (target spec n q - q).toNat = 0 := by
      have := target_eq spec n q
      omega
    refine ⟨n, q, ?_, ?_, ⟨hlt, hq, hfull⟩, rfl⟩
    · show (ExtendedMantissa.ofMantissaAndAccuracy n .exact >>> (target spec n q - q).toNat).mantissa = n
      rw [hshift]
      rfl
    · show q + ((target spec n q - q).toNat : ℤ) = q
      rw [hshift]
      exact add_zero q
  · have hshift : (target spec (2 ^ spec.mantissaBits) q - q).toNat = 1 := by
      have := target_eq spec (2 ^ spec.mantissaBits) q
      rw [Nat.log2_two_pow] at this
      omega
    refine ⟨2 ^ spec.mantissaBitsWithoutImplicit, q + 1, ?_, ?_, ⟨?_, by omega, .inr le_rfl⟩, ?_⟩
    · show (ExtendedMantissa.ofMantissaAndAccuracy (2 ^ spec.mantissaBits) .exact >>>
        (target spec (2 ^ spec.mantissaBits) q - q).toNat).mantissa = _
      rw [hshift]
      show 2 ^ spec.mantissaBits / 2 = _
      rw [hbits, pow_succ, Nat.mul_div_cancel _ two_pos]
    · show q + ((target spec (2 ^ spec.mantissaBits) q - q).toNat : ℤ) = q + 1
      rw [hshift]
      rfl
    · exact Nat.pow_lt_pow_right one_lt_two (by omega)
    · push_cast
      rw [hbits, zpow_add_one₀ two_ne_zero, pow_succ]
      ring

/-- **Rounding a mantissa** of which the accuracy tells what is left out. -/
theorem roundWithAccuracy_rounds (spec : Format) (s : Sign) (h : Tells a r) (hle : e ≤ target spec m e) :
    Rounds spec s ((m + r) * 2 ^ e) (roundWithAccuracy spec s m e a) := by
  obtain ⟨hexp, hdescribes⟩ := shiftToTargetExponent_describes h hle
  have hnearest := hdescribes.nearest
  have hbits := mantissaBits_eq spec
  have hq : spec.minExponent ≤ target spec m e := le_max_right _ _
  have hfull := target_eq_or_le h hle
  set q := target spec m e
  set n := (shiftToTargetExponent spec m e a).1.roundedMantissa
  have hn : n ≤ 2 ^ spec.mantissaBits := by
    refine hnearest.le_of_le ?_
    rw [div_le_iff₀ (two_zpow_pos q)]
    push_cast
    rw [← zpow_natCast, ← zpow_add₀ two_ne_zero, add_comm (spec.mantissaBits : ℤ)]
    exact (lt_two_zpow_target spec h m e).le
  have hfilled : q = spec.minExponent ∨ 2 ^ spec.mantissaBitsWithoutImplicit ≤ n := by
    refine hfull.imp_right fun hv => hnearest.ge_of_ge ?_
    rw [le_div_iff₀ (two_zpow_pos q)]
    push_cast
    rwa [← zpow_natCast, ← zpow_add₀ two_ne_zero, add_comm (spec.mantissaBitsWithoutImplicit : ℤ)]
  obtain ⟨m', e', hm', he', hcanonical, hvalue⟩ := shiftToTargetExponent_canonical hq hn hfilled
  refine ⟨n, q, hnearest, hq, hfull, ?_⟩
  unfold roundWithAccuracy
  dsimp only
  rw [hexp]
  split
  next hzero =>
    have hn0 : (n : ℝ) * 2 ^ q = 0 := by
      rw [← hvalue, ← hm']
      exact mul_eq_zero_of_left (by exact_mod_cast hzero) _
    exact .inl ⟨by simpa [(two_zpow_pos q).ne'] using hn0, rfl⟩
  next hpos =>
    exact .inr ⟨_, _, Nat.pos_of_ne_zero hpos, rfl, hm' ▸ he' ▸ hcanonical, by rw [hm', he', hvalue]⟩

theorem log2_shiftLeft (hm : 0 < m) (k : ℕ) : Nat.log2 (m <<< k) = Nat.log2 m + k := by
  induction k with
  | zero => rfl
  | succ k ih =>
    have hk : 0 < m <<< k := by
      rw [Nat.shiftLeft_eq]
      positivity
    rw [Nat.shiftLeft_succ, Nat.log2_two_mul hk.ne', ih, Nat.add_assoc]

/-- **Rounding a whole number** at any exponent. -/
theorem round_rounds (spec : Format) (s : Sign) (hm : 0 < m) (e : ℤ) :
    Rounds spec s (m * 2 ^ e) (round spec s m e) := by
  set k := (e - target spec m e).toNat
  have hround : round spec s m e = roundWithAccuracy spec s (m <<< k) (e - k) .exact := rfl
  have htarget : target spec (m <<< k) (e - k) = target spec m e := by
    rw [target_eq, target_eq, log2_shiftLeft hm]
    push_cast
    congr 2
    ring
  have hle : e - k ≤ target spec (m <<< k) (e - k) := by
    rw [htarget]
    omega
  have hvalue : ((m <<< k : ℕ) + 0 : ℝ) * 2 ^ (e - k) = m * 2 ^ e := by
    rw [Nat.shiftLeft_eq, add_zero, zpow_sub₀ two_ne_zero, zpow_natCast]
    push_cast
    field_simp
  rw [hround, ← hvalue]
  exact roundWithAccuracy_rounds spec s rfl hle

/-! ### How far rounding goes -/

/-- The relative error of rounding. -/
noncomputable def roundoff (spec : Format) : ℝ := ((2 : ℕ) : ℝ) ^ (-(spec.mantissaBits : ℤ))

/-- The absolute error of rounding where numbers are sparse, and the largest number that becomes zero. -/
noncomputable def underflow (spec : Format) : ℝ := ((2 : ℕ) : ℝ) ^ (spec.minExponent - 1)

theorem roundoff_eq (spec : Format) : roundoff spec = 2 ^ (-(spec.mantissaBits : ℤ)) := rfl

theorem underflow_eq (spec : Format) : underflow spec = 2 ^ (spec.minExponent - 1) := rfl

theorem roundoff_pos (spec : Format) : 0 < roundoff spec := two_zpow_pos _

theorem underflow_pos (spec : Format) : 0 < underflow spec := two_zpow_pos _

/-- A sign as a factor. -/
def unit : Sign → ℝ
  | .negative => -1
  | .positive => 1

theorem abs_unit (s : Sign) : |unit s| = 1 := by
  cases s <;> simp [unit]

/-- The number that a float stands for; infinities and what is no number stand for none. -/
noncomputable def value : UnpackedFloat → ℝ
  | .finite s m e _                      => unit s * (m * ((2 : ℕ) : ℝ) ^ e)
  | .zero _ | .infinity _ | .notANumber => 0

theorem value_finite (s : Sign) {m : ℕ} (e : ℤ) (hm : 0 < m) :
    value (.finite s m e hm) = unit s * (m * 2 ^ e) := rfl

@[simp] theorem value_zero (s : Sign) : value (.zero s) = 0 := rfl

namespace Rounds

variable {w : ℝ}

theorem isFinite (h : Rounds spec s v x) : x.isFinite = true := by
  obtain ⟨n, q, -, -, -, ⟨-, rfl⟩ | ⟨m, e, hm, rfl, -, -⟩⟩ := h
  · rfl
  · rfl

/-- The value is the nearest number of units. -/
theorem value_eq (h : Rounds spec s v x) : ∃ (n : ℕ) (q : ℤ), Nearest n (v / 2 ^ q) ∧ spec.minExponent ≤ q ∧
    (q = spec.minExponent ∨ (2 : ℝ) ^ (q + spec.mantissaBitsWithoutImplicit) ≤ v) ∧
    value x = unit s * (n * 2 ^ q) := by
  obtain ⟨n, q, hn, hq, hfull, ⟨rfl, rfl⟩ | ⟨m, e, hm, rfl, -, hvalue⟩⟩ := h
  · exact ⟨0, q, hn, hq, hfull, by simp [value]⟩
  · exact ⟨n, q, hn, hq, hfull, congrArg (unit s * ·) hvalue⟩

/-- The distance is at most half a unit. -/
theorem abs_sub_le (hn : Nearest n (v / 2 ^ q)) : |(n : ℝ) * 2 ^ q - v| ≤ 2 ^ (q - 1) := by
  have hpos := two_zpow_pos q
  have hv : (n : ℝ) * 2 ^ q - v = (n - v / 2 ^ q) * 2 ^ q := by field_simp
  rw [hv, abs_mul, abs_of_pos hpos, zpow_sub_one₀ two_ne_zero, mul_comm ((2 : ℝ) ^ q)]
  refine mul_le_mul_of_nonneg_right ?_ hpos.le
  rw [abs_sub_comm]
  exact hn.near.trans_eq (one_div 2)

theorem half_unit_le (hfull : (2 : ℝ) ^ (q + spec.mantissaBitsWithoutImplicit) ≤ v) :
    (2 : ℝ) ^ (q - 1) ≤ roundoff spec * v := by
  have hbits := mantissaBits_eq spec
  calc (2 : ℝ) ^ (q - 1)
      = roundoff spec * 2 ^ (q + spec.mantissaBitsWithoutImplicit) := by
        rw [roundoff_eq, ← zpow_add₀ two_ne_zero]
        congr 1
        omega
    _ ≤ roundoff spec * v := mul_le_mul_of_nonneg_left hfull (roundoff_pos spec).le

/-- **The error of rounding** is relative, or absolute where numbers are sparse. -/
theorem error (h : Rounds spec s v x) :
    |value x - unit s * v| ≤ max (roundoff spec * v) (underflow spec) := by
  obtain ⟨n, q, hn, -, hfull, hx⟩ := h.value_eq
  rw [hx, ← mul_sub, abs_mul, abs_unit, one_mul]
  refine (abs_sub_le hn).trans ?_
  rcases hfull with rfl | hfull
  · exact le_max_right _ _
  · exact (half_unit_le hfull).trans (le_max_left _ _)

/-- **Sparse numbers** have no error: a whole number of the least units is rounded relatively. -/
theorem error_of_units (h : Rounds spec s v x) (hv : v = k * 2 ^ spec.minExponent) :
    |value x - unit s * v| ≤ roundoff spec * v := by
  obtain ⟨n, q, hn, -, hfull, hx⟩ := h.value_eq
  rw [hx, ← mul_sub, abs_mul, abs_unit, one_mul]
  rcases hfull with rfl | hfull
  · have hunits : v / 2 ^ spec.minExponent = k := by
      rw [hv]
      exact mul_div_cancel_right₀ _ (two_zpow_pos _).ne'
    obtain rfl := (hunits ▸ hn).eq_of_natCast
    rw [hv, sub_self, abs_zero]
    have := two_zpow_pos spec.minExponent
    have := roundoff_pos spec
    positivity
  · exact (abs_sub_le hn).trans (half_unit_le hfull)

/-- **Numbers of the format** are not rounded. -/
theorem value_of_canonical (h : Rounds spec s v x) (hv : v = m * 2 ^ e) (hm : m < 2 ^ spec.mantissaBits)
    (he : spec.minExponent ≤ e) : value x = unit s * v := by
  obtain ⟨n, q, hn, -, hfull, hx⟩ := h.value_eq
  have hbits := mantissaBits_eq spec
  have hle : q ≤ e := by
    rcases hfull with rfl | hfull
    · exact he
    · have hlt : (2 : ℝ) ^ (q + spec.mantissaBitsWithoutImplicit) < 2 ^ (spec.mantissaBits + e) := by
        refine hfull.trans_lt ?_
        rw [hv, zpow_add₀ two_ne_zero, zpow_natCast]
        exact mul_lt_mul_of_pos_right (by exact_mod_cast hm) (two_zpow_pos e)
      have := (zpow_lt_zpow_iff_right₀ one_lt_two).mp hlt
      omega
  obtain ⟨d, rfl⟩ : ∃ d : ℕ, e = q + d := ⟨(e - q).toNat, by omega⟩
  have hunits : v / 2 ^ q = (m * 2 ^ d : ℕ) := by
    rw [hv, zpow_add₀ two_ne_zero, zpow_natCast]
    push_cast
    field_simp
  obtain rfl := (hunits ▸ hn).eq_of_natCast
  rw [hx, ← hunits, div_mul_cancel₀ _ (two_zpow_pos q).ne']

/-- **What becomes zero** is at most the underflow. -/
theorem value_eq_zero_iff (h : Rounds spec s v x) : value x = 0 ↔ v ≤ underflow spec := by
  obtain ⟨n, q, hn, hq, hfull, hx⟩ := h.value_eq
  have hunit : unit s ≠ 0 := abs_pos.mp (abs_unit s ▸ one_pos)
  have hzero : value x = 0 ↔ n = 0 := by
    rw [hx]
    simp [hunit, (two_zpow_pos q).ne']
  rw [hzero, hn.eq_zero_iff, div_le_iff₀ (two_zpow_pos q)]
  rcases hfull with rfl | hfull
  · rw [underflow_eq, zpow_sub_one₀ two_ne_zero, ← one_div, mul_comm]
  · have hlow : (2 : ℝ) ^ (q - 1) < v := by
      refine lt_of_lt_of_le (zpow_lt_zpow_right₀ one_lt_two ?_) hfull
      omega
    have hunder : underflow spec ≤ 2 ^ (q - 1) := zpow_le_zpow_right₀ one_le_two (by omega)
    refine iff_of_false (not_le.mpr ?_) (not_le.mpr (hunder.trans_lt hlow))
    rwa [zpow_sub_one₀ two_ne_zero, ← one_div, mul_comm] at hlow

/-- A rounded number is canonical and has the sign of what was rounded. -/
theorem canonical (h : Rounds spec s v x) :
    x = .zero s ∨ ∃ m e h, x = .finite s m e h ∧ Canonical spec m e := by
  obtain ⟨n, q, -, -, -, ⟨-, rfl⟩ | ⟨m, e, hm, rfl, hcanonical, -⟩⟩ := h
  · exact .inl rfl
  · exact .inr ⟨m, e, hm, rfl, hcanonical⟩

theorem zero (spec : Format) (s : Sign) : Rounds spec s 0 (.zero s) :=
  ⟨0, spec.minExponent, by simpa using (⟨by simp, by simp⟩ : Nearest 0 ((0 : ℕ) : ℝ)), le_rfl, .inl rfl,
    .inl ⟨rfl, rfl⟩⟩

/-- A canonical number is rounded to itself. -/
theorem of_canonical (s : Sign) (h : Canonical spec m e) (hm : 0 < m) :
    Rounds spec s (m * 2 ^ e) (.finite s m e hm) := by
  refine ⟨m, e, ?_, h.le, h.normal.imp_right fun hfull => ?_, .inr ⟨m, e, hm, rfl, h, rfl⟩⟩
  · rw [mul_div_cancel_right₀ _ (two_zpow_pos e).ne']
    exact ⟨by simp, by simp⟩
  · rw [zpow_add₀ two_ne_zero, zpow_natCast, mul_comm]
    exact mul_le_mul_of_nonneg_right (by exact_mod_cast hfull) (two_zpow_pos e).le

end Rounds

end Prims
