import Prims.Proofs.Number.Packing

/-!
# Number — Machine

The arithmetic of singles and doubles at once, as numbers of a `Machine`: words of a format with its
operations.  A finite one stands for a real (`Machine.real`).  Each operation on finite ones gives the exact
result rounded, or an infinity when that is beyond the ceiling (`Machine.Results`), and finite sums,
differences and products are those of finite ones.  Finite ones compare as the reals do (`lt_iff`, `le_iff`).
-/

namespace Prims

open Float.Model Float.Model.UnpackedFloat

/-! ### Comparisons -/

section

variable {spec : Format} {x y : UnpackedFloat} {m n : ℕ} {e f : ℤ}

/-- Of two canonical floats the one with the larger exponent is larger. -/
theorem Canonical.lt_of_exponent (hx : Canonical spec m e) (hy : Canonical spec n f) (h : e < f) :
    (m : ℝ) * 2 ^ e < n * 2 ^ f := by
  have hbits := mantissaBits_eq spec
  have hle := hx.le
  have hm : (m : ℝ) < 2 ^ spec.mantissaBits := by exact_mod_cast hx.lt
  have hn : (2 : ℝ) ^ spec.mantissaBitsWithoutImplicit ≤ n := by
    exact_mod_cast hy.normal.resolve_left (by omega)
  calc (m : ℝ) * 2 ^ e < 2 ^ spec.mantissaBits * 2 ^ e := mul_lt_mul_of_pos_right hm (two_zpow_pos e)
    _ = 2 ^ spec.mantissaBitsWithoutImplicit * 2 ^ (e + 1) := by
        rw [hbits, pow_succ, zpow_add_one₀ two_ne_zero]
        ring
    _ ≤ 2 ^ spec.mantissaBitsWithoutImplicit * 2 ^ f :=
        mul_le_mul_of_nonneg_left (zpow_le_zpow_right₀ one_le_two h) (by positivity)
    _ ≤ n * 2 ^ f := mul_le_mul_of_nonneg_right hn (two_zpow_pos f).le

/-- **Exponents before mantissas** is the order of the values. -/
theorem Canonical.compare_eq (hx : Canonical spec m e) (hy : Canonical spec n f) :
    (compare e f).then (compare m n) = compare ((m : ℝ) * 2 ^ e) (n * 2 ^ f) := by
  rcases lt_trichotomy e f with h | rfl | h
  · rw [compare_lt_iff_lt.mpr h, compare_lt_iff_lt.mpr (hx.lt_of_exponent hy h)]
    rfl
  · have hpos := two_zpow_pos e
    rw [compare_eq_iff_eq.mpr rfl]
    show compare m n = _
    rcases lt_trichotomy m n with h | rfl | h
    · have hcast : (m : ℝ) < n := by exact_mod_cast h
      rw [compare_lt_iff_lt.mpr h, compare_lt_iff_lt.mpr (mul_lt_mul_of_pos_right hcast hpos)]
    · rw [compare_eq_iff_eq.mpr rfl, compare_eq_iff_eq.mpr rfl]
    · have hcast : (n : ℝ) < m := by exact_mod_cast h
      rw [compare_gt_iff_gt.mpr h, compare_gt_iff_gt.mpr (mul_lt_mul_of_pos_right hcast hpos)]
  · rw [compare_gt_iff_gt.mpr h, compare_gt_iff_gt.mpr (hy.lt_of_exponent hx h)]
    rfl

theorem compare_neg (a b : ℝ) : compare (-a) (-b) = (compare a b).swap := by
  rcases lt_trichotomy a b with h | rfl | h
  · rw [compare_lt_iff_lt.mpr h, compare_gt_iff_gt.mpr (neg_lt_neg h)]
    rfl
  · rw [compare_eq_iff_eq.mpr rfl, compare_eq_iff_eq.mpr rfl]
    rfl
  · rw [compare_gt_iff_gt.mpr h, compare_lt_iff_lt.mpr (neg_lt_neg h)]
    rfl

theorem value_positive_pos (hm : 0 < m) : 0 < value (.finite .positive m e hm) := by
  have : (0 : ℝ) < m := by exact_mod_cast hm
  rw [value_finite, unit, one_mul]
  exact mul_pos this (two_zpow_pos e)

theorem value_negative_neg (hm : 0 < m) : value (.finite .negative m e hm) < 0 := by
  have : (0 : ℝ) < m * 2 ^ e := by
    have : (0 : ℝ) < m := by exact_mod_cast hm
    exact mul_pos this (two_zpow_pos e)
  rw [value_finite, unit]
  linarith

/-- **Finite floats compare as their values do.** -/
theorem compare_eq_some (hx : IsCanonical spec x) (hy : IsCanonical spec y) (hxf : x.isFinite = true)
    (hyf : y.isFinite = true) : UnpackedFloat.compare x y = some (compare (value x) (value y)) := by
  cases x with
  | infinity s => cases hxf
  | notANumber => cases hxf
  | zero s =>
    cases y with
    | infinity t => cases hyf
    | notANumber => cases hyf
    | zero t =>
      rw [value_zero, value_zero, compare_eq_iff_eq.mpr rfl]
      rfl
    | finite t n f hn =>
      rw [value_zero]
      cases t with
      | positive =>
        rw [compare_lt_iff_lt.mpr (value_positive_pos hn)]
        rfl
      | negative =>
        rw [compare_gt_iff_gt.mpr (value_negative_neg hn)]
        rfl
  | finite s m e hm =>
    cases y with
    | infinity t => cases hyf
    | notANumber => cases hyf
    | zero t =>
      rw [value_zero]
      cases s with
      | positive =>
        rw [compare_gt_iff_gt.mpr (value_positive_pos hm)]
        rfl
      | negative =>
        rw [compare_lt_iff_lt.mpr (value_negative_neg hm)]
        rfl
    | finite t n f hn =>
      cases s with
      | positive =>
        cases t with
        | positive =>
          show some ((compare e f).then (compare m n)) = _
          rw [Canonical.compare_eq hx hy, value_finite, value_finite, unit, one_mul, one_mul]
        | negative =>
          rw [compare_gt_iff_gt.mpr ((value_negative_neg hn).trans (value_positive_pos hm))]
          rfl
      | negative =>
        cases t with
        | positive =>
          rw [compare_lt_iff_lt.mpr ((value_negative_neg hm).trans (value_positive_pos hn))]
          rfl
        | negative =>
          show some ((compare e f).then (compare m n)).swap = _
          rw [Canonical.compare_eq hx hy, value_finite, value_finite, unit, neg_one_mul, neg_one_mul,
            compare_neg]

end

/-! ### Words with operations -/

/-- What a word of a format makes of a float. -/
def settle (spec : Format) (x : UnpackedFloat) : UnpackedFloat := unpack spec (pack spec x)

/-- Numbers that are words of a format and have the operations of the format. -/
class Machine (F : Type) extends Add F, Sub F, Mul F, Div F, LT F, LE F where
  format     : Format
  wide       : 1 < format.exponentBits
  parts      : F → UnpackedFloat
  fits       : ∀ x, Fits format (parts x)
  /-- A word is all there is to a number. -/
  injective  : Function.Injective parts
  sqrt       : F → F
  parts_add  : ∀ x y, parts (x + y) = settle format (UnpackedFloat.add format (parts x) (parts y))
  parts_sub  : ∀ x y, parts (x - y) = settle format (UnpackedFloat.sub format (parts x) (parts y))
  parts_mul  : ∀ x y, parts (x * y) = settle format (UnpackedFloat.mul format (parts x) (parts y))
  parts_div  : ∀ x y, parts (x / y) = settle format (UnpackedFloat.div format (parts x) (parts y))
  parts_sqrt : ∀ x, parts (sqrt x) = settle format (UnpackedFloat.sqrt format (parts x))
  lt_iff'    : ∀ x y, x < y ↔ UnpackedFloat.lt (parts x) (parts y) = true
  le_iff'    : ∀ x y, x ≤ y ↔ UnpackedFloat.le (parts x) (parts y) = true

instance : Machine Float32 where
  format     := .binary32
  wide       := by decide
  parts x    := x.toModel.unpack
  fits x     := unpack_fits (by decide) _
  injective x y h := Float32.toBits_inj.mp
    (UInt32.toBitVec_inj.mp ((unpack_inj_of_valid x.toModel.valid y.toModel.valid).mp h))
  sqrt       := Float32.sqrt
  parts_add  _ _ := rfl
  parts_sub  _ _ := rfl
  parts_mul  _ _ := rfl
  parts_div  _ _ := rfl
  parts_sqrt _ := rfl
  lt_iff' _ _ := decide_eq_true_iff
  le_iff' _ _ := decide_eq_true_iff

instance : Machine Float where
  format     := .binary64
  wide       := by decide
  parts x    := x.toModel.unpack
  fits x     := unpack_fits (by decide) _
  injective x y h := Float.toBits_inj.mp
    (UInt64.toBitVec_inj.mp ((unpack_inj_of_valid x.toModel.valid y.toModel.valid).mp h))
  sqrt       := Float.sqrt
  parts_add  _ _ := rfl
  parts_sub  _ _ := rfl
  parts_mul  _ _ := rfl
  parts_div  _ _ := rfl
  parts_sqrt _ := rfl
  lt_iff' _ _ := decide_eq_true_iff
  le_iff' _ _ := decide_eq_true_iff

namespace Machine

variable {F : Type} [Machine F] {x y z : F} {v w : ℝ}

/-- The number that a finite `x` stands for. -/
noncomputable def real (x : F) : ℝ := value (parts x)

/-- Neither an infinity nor what is no number. -/
def IsFinite (x : F) : Prop := (parts x).isFinite = true

/-- The number is a real, rounded, or an infinity of the sign of a real beyond the ceiling. -/
def Results (v : ℝ) (z : F) : Prop :=
  RoundsTo (format F) v (parts z) ∨ ∃ s, parts z = .infinity s ∧ ceiling (format F) < unit s * v

theorem isCanonical (x : F) : IsCanonical (format F) (parts x) := (fits x).isCanonical

/-- Literals, by their parts. -/
theorem exact_of_parts {s : Sign} {m : ℕ} {e : ℤ} {hm : 0 < m} (h : parts x = .finite s m e hm)
    (hv : unit s * (m * 2 ^ e) = v) : IsFinite x ∧ real x = v :=
  ⟨by rw [IsFinite, h]; rfl, by rw [real, h, value_finite, hv]⟩

/-! ### Results -/

theorem results_of_settle {p : UnpackedFloat} (hz : parts z = settle (format F) p)
    (h : RoundsTo (format F) v p) : Results v z := by
  rcases h.unpack_pack (wide (F := F)) with ⟨hp, -⟩ | ⟨s, hp, hlarge⟩
  · exact .inl (by rwa [hz, settle, hp])
  · exact .inr ⟨s, hz.trans hp, hlarge⟩

theorem add_results (hx : IsFinite x) (hy : IsFinite y) : Results (real x + real y) (x + y) :=
  results_of_settle (parts_add x y) (add_roundsTo (isCanonical x) (isCanonical y) hx hy)

theorem sub_results (hx : IsFinite x) (hy : IsFinite y) : Results (real x - real y) (x - y) :=
  results_of_settle (parts_sub x y) (sub_roundsTo (isCanonical x) (isCanonical y) hx hy)

theorem mul_results (hx : IsFinite x) (hy : IsFinite y) : Results (real x * real y) (x * y) :=
  results_of_settle (parts_mul x y) (mul_roundsTo (isCanonical x) (isCanonical y) hx hy)

theorem div_results (hx : IsFinite x) (hy : IsFinite y) (h : real y ≠ 0) :
    Results (real x / real y) (x / y) :=
  results_of_settle (parts_div x y) (div_roundsTo hx hy h)

theorem sqrt_results (hx : IsFinite x) (h : 0 ≤ real x) : Results √(real x) (sqrt x) :=
  results_of_settle (parts_sqrt x) (sqrt_roundsTo hx h)

namespace Results

theorem roundsTo (h : Results v z) (hz : IsFinite z) : RoundsTo (format F) v (parts z) := by
  rcases h with h | ⟨s, hs, -⟩
  · exact h
  · rw [IsFinite, hs] at hz
    cases hz

/-- **Nothing up to the ceiling overflows.** -/
theorem finite (h : Results v z) (hv : |v| ≤ ceiling (format F)) : IsFinite z := by
  rcases h with h | ⟨s, -, hlarge⟩
  · exact h.isFinite
  · have : unit s * v ≤ |v| := by
      rw [← one_mul |v|, ← abs_unit s, ← abs_mul]
      exact le_abs_self _
    exact absurd (hlarge.trans_le this) (not_lt.mpr hv)

theorem error (h : Results v z) (hz : IsFinite z) :
    |real z - v| ≤ roundoff (format F) * |v| + underflow (format F) :=
  (h.roundsTo hz).error.trans (max_le_add_of_nonneg (mul_nonneg (roundoff_pos _).le (abs_nonneg v))
    (underflow_pos _).le)

/-- **Numbers of the format** come out exactly. -/
theorem exact {j e : ℤ} (h : Results v z) (hv : v = j * 2 ^ e) (hj : j.natAbs < 2 ^ (format F).mantissaBits)
    (he : (format F).minExponent ≤ e) (hle : |v| ≤ ceiling (format F)) : IsFinite z ∧ real z = v :=
  ⟨h.finite hle, (h.roundsTo (h.finite hle)).value_of_canonical hv hj he⟩

theorem real_eq_zero_iff (h : Results v z) (hz : IsFinite z) : real z = 0 ↔ |v| ≤ underflow (format F) :=
  (h.roundsTo hz).value_eq_zero_iff

theorem real_eq_zero (h : Results 0 z) : real z = 0 := by
  refine (h.real_eq_zero_iff (h.finite ?_)).mpr ?_
  · rw [abs_zero]
    exact (ceiling_pos _).le
  · rw [abs_zero]
    exact (underflow_pos _).le

end Results

/-! ### Finite results -/

theorem settle_isFinite {spec : Format} {p : UnpackedFloat} (h : (settle spec p).isFinite = true) :
    p.isFinite = true := by
  cases p with
  | finite s m e hm => rfl
  | zero s => rfl
  | infinity s =>
    rw [settle, unpack_pack (x := .infinity s) trivial] at h
    cases h
  | notANumber =>
    rw [settle, unpack_pack (x := .notANumber) trivial] at h
    cases h

theorem isFinite_of_add {spec : Format} {p q : UnpackedFloat}
    (h : (UnpackedFloat.add spec p q).isFinite = true) : p.isFinite = true ∧ q.isFinite = true := by
  cases p with
  | finite s m e hm | zero s =>
    cases q with
    | finite t n f hn | zero t => exact ⟨rfl, rfl⟩
    | infinity t | notANumber => cases h
  | notANumber => cases h
  | infinity s =>
    cases q with
    | finite t n f hn | zero t | notANumber => cases h
    | infinity t =>
      unfold UnpackedFloat.add at h
      dsimp only at h
      split at h <;> cases h

theorem isFinite_of_mul {spec : Format} {p q : UnpackedFloat}
    (h : (UnpackedFloat.mul spec p q).isFinite = true) : p.isFinite = true ∧ q.isFinite = true := by
  cases p with
  | finite s m e hm | zero s =>
    cases q with
    | finite t n f hn | zero t => exact ⟨rfl, rfl⟩
    | infinity t | notANumber => cases h
  | notANumber => cases h
  | infinity s => cases q <;> cases h

/-- Sums of what is not finite are not finite, -/
theorem finite_of_add (h : IsFinite (x + y)) : IsFinite x ∧ IsFinite y := by
  rw [IsFinite, parts_add] at h
  exact isFinite_of_add (settle_isFinite h)

/-- nor are differences -/
theorem finite_of_sub (h : IsFinite (x - y)) : IsFinite x ∧ IsFinite y := by
  rw [IsFinite, parts_sub, sub_eq_add] at h
  obtain ⟨hx, hy⟩ := isFinite_of_add (settle_isFinite h)
  exact ⟨hx, (neg_isFinite _).symm.trans hy⟩

/-- nor are products. -/
theorem finite_of_mul (h : IsFinite (x * y)) : IsFinite x ∧ IsFinite y := by
  rw [IsFinite, parts_mul] at h
  exact isFinite_of_mul (settle_isFinite h)

/-! ### Errors of operations -/

/-- A number counts the least units of its format. -/
theorem exists_units (x : F) : ∃ j : ℤ, real x = j * 2 ^ (format F).minExponent := by
  have hcanonical := isCanonical x
  unfold real
  cases hx : parts x with
  | zero s => exact ⟨0, by simp⟩
  | infinity s => exact ⟨0, by simp [value]⟩
  | notANumber => exact ⟨0, by simp [value]⟩
  | finite s m e hm =>
    rw [hx] at hcanonical
    have hshift : ((e - (format F).minExponent).toNat : ℤ) = e - (format F).minExponent :=
      Int.toNat_of_nonneg (sub_nonneg.mpr hcanonical.le)
    refine ⟨s.apply m * 2 ^ (e - (format F).minExponent).toNat, ?_⟩
    push_cast
    rw [cast_apply, value_finite, mul_assoc, mul_assoc, ← zpow_natCast, hshift, ← zpow_add₀ two_ne_zero,
      sub_add_cancel]

/-- No number reaches twice the ceiling. -/
theorem abs_real_lt (x : F) : |real x| < 2 * ceiling (format F) := by
  have hfits := fits x
  have hceiling := ceiling_pos (format F)
  unfold real
  cases hx : parts x with
  | zero s | infinity s | notANumber => simp [value, hceiling]
  | finite s m e hm =>
    rw [hx] at hfits
    obtain ⟨hcanonical, he⟩ := hfits
    have hbits := mantissaBits_eq (format F)
    unfold largestExponent at he
    have hlt : (m : ℝ) < 2 ^ (format F).mantissaBits := by exact_mod_cast hcanonical.lt
    have hpos : (0 : ℝ) ≤ m * 2 ^ e := mul_nonneg (Nat.cast_nonneg m) (two_zpow_pos e).le
    rw [value_finite, abs_mul, abs_unit, one_mul, abs_of_nonneg hpos]
    calc (m : ℝ) * 2 ^ e < 2 ^ (format F).mantissaBits * 2 ^ e := mul_lt_mul_of_pos_right hlt (two_zpow_pos e)
      _ = 2 ^ (((format F).mantissaBits : ℤ) + e) := by rw [zpow_add₀ two_ne_zero, zpow_natCast]
      _ ≤ 2 ^ ((1 : ℤ) + (format F).exponentBias) := zpow_le_zpow_right₀ one_le_two (by omega)
      _ = 2 * ceiling (format F) := by rw [zpow_one_add₀ two_ne_zero, zpow_natCast, ceiling_eq]

/-- **Sums** are exact but for the relative error, -/
theorem add_error (h : IsFinite (x + y)) :
    |real (x + y) - (real x + real y)| ≤ roundoff (format F) * |real x + real y| := by
  obtain ⟨hx, hy⟩ := finite_of_add h
  obtain ⟨j, hj⟩ := exists_units x
  obtain ⟨k, hk⟩ := exists_units y
  refine ((add_results hx hy).roundsTo h).error_of_units (j := j + k) ?_
  rw [hj, hk]
  push_cast
  ring

/-- **differences** too, -/
theorem sub_error (h : IsFinite (x - y)) :
    |real (x - y) - (real x - real y)| ≤ roundoff (format F) * |real x - real y| := by
  obtain ⟨hx, hy⟩ := finite_of_sub h
  obtain ⟨j, hj⟩ := exists_units x
  obtain ⟨k, hk⟩ := exists_units y
  refine ((sub_results hx hy).roundsTo h).error_of_units (j := j - k) ?_
  rw [hj, hk]
  push_cast
  ring

/-- and **products** but for the relative error and the underflow. -/
theorem mul_error (h : IsFinite (x * y)) : |real (x * y) - real x * real y| ≤
    roundoff (format F) * |real x * real y| + underflow (format F) := by
  obtain ⟨hx, hy⟩ := finite_of_mul h
  exact (mul_results hx hy).error h

/-! ### Order -/

theorem lt_iff (hx : IsFinite x) (hy : IsFinite y) : x < y ↔ real x < real y := by
  have hcompare := compare_eq_some (isCanonical x) (isCanonical y) hx hy
  rw [lt_iff', UnpackedFloat.lt, hcompare, beq_iff_eq, Option.some.injEq]
  exact compare_lt_iff_lt

theorem le_iff (hx : IsFinite x) (hy : IsFinite y) : x ≤ y ↔ real x ≤ real y := by
  have hcompare := compare_eq_some (isCanonical x) (isCanonical y) hx hy
  rw [le_iff', UnpackedFloat.le, hcompare, ← compare_le_iff_le]
  unfold real
  cases compare (value (parts x)) (value (parts y)) <;> simp [Option.any]

/-- Between finite numbers there is no infinity. -/
theorem isFinite_of_le_of_le (hx : IsFinite x) (hz : IsFinite z) (hxy : x ≤ y) (hyz : y ≤ z) : IsFinite y := by
  rw [le_iff'] at hxy hyz
  rw [IsFinite] at hx hz ⊢
  cases hp : parts y with
  | notANumber =>
    rw [hp] at hyz
    cases hyz
  | infinity s =>
    rw [hp] at hxy hyz
    cases s with
    | positive =>
      cases hq : parts z <;> rw [hq] at hz hyz
      · cases hz
      · cases hz
      · cases hyz
      · cases hyz
    | negative =>
      cases hq : parts x <;> rw [hq] at hx hxy
      · cases hx
      · cases hx
      · cases hxy
      · cases hxy
  | zero s | finite s m e hm => rfl

/-- Different numbers of one value are zeros. -/
theorem parts_eq_of_real (hx : IsFinite x) (hy : IsFinite y) (h : real x = real y) (h0 : real x ≠ 0) :
    parts x = parts y := by
  have hcompare := compare_eq_some (isCanonical x) (isCanonical y) hx hy
  rw [show value (parts x) = value (parts y) from h, compare_eq_iff_eq.mpr rfl] at hcompare
  unfold IsFinite at hx hy
  unfold real at h h0
  cases hpx : parts x with
  | infinity s => rw [hpx] at hx; cases hx
  | notANumber => rw [hpx] at hx; cases hx
  | zero s => exact absurd (by rw [hpx, value_zero]) h0
  | finite s m e hm =>
    cases hpy : parts y with
    | infinity t => rw [hpy] at hy; cases hy
    | notANumber => rw [hpy] at hy; cases hy
    | zero t => exact absurd (by rw [h, hpy, value_zero]) h0
    | finite t n f hn =>
      rw [hpx, hpy] at hcompare
      have heq (c : Ordering) (hc : c = (compare e f).then (compare m n)) (h : c = .eq) : e = f ∧ m = n := by
        rw [hc, Ordering.then_eq_eq] at h
        exact ⟨compare_eq_iff_eq.mp h.1, compare_eq_iff_eq.mp h.2⟩
      cases s with
      | positive =>
        cases t with
        | negative => cases hcompare
        | positive =>
          obtain ⟨rfl, rfl⟩ := heq _ rfl (Option.some.inj hcompare)
          rfl
      | negative =>
        cases t with
        | positive => cases hcompare
        | negative =>
          obtain ⟨rfl, rfl⟩ := heq _ rfl (Ordering.swap_eq_eq.mp (Option.some.inj hcompare))
          rfl

theorem real_mul_eq_zero (hx : IsFinite x) (hy : IsFinite y) (h : real y = 0) : real (x * y) = 0 := by
  have hproduct := mul_results hx hy
  rw [h, mul_zero] at hproduct
  exact hproduct.real_eq_zero

/-- A product depends on the value of its factor only. -/
theorem real_mul_congr (hx : IsFinite x) (hy : IsFinite y) (hz : IsFinite z) (h : real y = real z) :
    real (x * y) = real (x * z) := by
  rcases eq_or_ne (real y) 0 with h0 | h0
  · rw [real_mul_eq_zero hx hy h0, real_mul_eq_zero hx hz (h.symm.trans h0)]
  · rw [real, real, parts_mul, parts_mul, parts_eq_of_real hy hz h h0]

/-- A factor of one leaves the value. -/
theorem real_mul_one (hxy : IsFinite (x * y)) (h : real y = 1) : real (x * y) = real x := by
  obtain ⟨hx, hy⟩ := finite_of_mul hxy
  have hproduct := mul_results hx hy
  have hcanonical := isCanonical x
  rw [h, mul_one] at hproduct
  unfold IsFinite at hx
  cases hparts : parts x with
  | infinity s => rw [hparts] at hx; cases hx
  | notANumber => rw [hparts] at hx; cases hx
  | zero s =>
    have hzero : real x = 0 := by rw [real, hparts, value_zero]
    rw [hzero] at hproduct ⊢
    exact hproduct.real_eq_zero
  | finite s m e hm =>
    rw [hparts] at hcanonical
    have hcast : (s.apply m).natAbs = m := by cases s <;> simp [Sign.apply]
    refine (hproduct.roundsTo hxy).value_of_canonical (j := s.apply m) (e := e) ?_ ?_ hcanonical.le
    · rw [real, hparts, value_finite, cast_apply, mul_assoc]
    · rw [hcast]
      exact hcanonical.lt

end Machine

end Prims
