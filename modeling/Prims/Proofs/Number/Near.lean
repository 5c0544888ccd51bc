import Prims.Proofs.Number.Whole

/-!
# Number — Near

Numbers that are off by a bounded amount.  A number that is `Near` a real by some tolerance is finite, and
differences, products and quotients of such numbers are near those of the reals by the sum of what the
tolerances come to and one rounding (`Near.sub`, `Near.mul`, `Near.div`).
-/

namespace Prims

open Machine

/-- Numbers at least as precise as singles, and with their range. -/
class Precise (F : Type) [Machine F] : Prop where
  roundoff_le  : roundoff (format F) ≤ 1 / 2 ^ 24
  underflow_le : underflow (format F) ≤ 1 / 2 ^ 150
  le_ceiling   : 2 ^ 127 ≤ ceiling (format F)

instance : Precise Float32 where
  roundoff_le  := Single.roundoff_format.le
  underflow_le := Single.underflow_format.le
  le_ceiling   := Single.ceiling_format.ge

instance : Precise Float where
  roundoff_le := by
    show (2 : ℝ) ^ (-53 : ℤ) ≤ _
    norm_num
  underflow_le := by
    show (2 : ℝ) ^ (-1075 : ℤ) ≤ _
    calc (2 : ℝ) ^ (-1075 : ℤ) ≤ 2 ^ (-150 : ℤ) := zpow_le_zpow_right₀ one_le_two (by decide)
      _ = 1 / 2 ^ 150 := by norm_num
  le_ceiling := by
    show (2 : ℝ) ^ 127 ≤ 2 ^ 1023
    exact pow_le_pow_right₀ one_le_two (by decide)

variable {F : Type} [Machine F] [Precise F] {x y : F} {v w ε δ V W : ℝ}

theorem roundoff_bounds : 0 < roundoff (format F) ∧ roundoff (format F) ≤ 1 / 2 ^ 24 :=
  ⟨roundoff_pos _, Precise.roundoff_le⟩

theorem underflow_bounds : 0 < underflow (format F) ∧ underflow (format F) ≤ 1 / 2 ^ 150 :=
  ⟨underflow_pos _, Precise.underflow_le⟩

/-- The number is a real of moderate size, but for a tolerance. -/
structure Near (x : F) (v ε : ℝ) : Prop where
  finite : IsFinite x
  error  : |real x - v| ≤ ε

namespace Near

omit [Precise F] in
theorem exact (h : IsFinite x) (hv : real x = v) : Near x v 0 := ⟨h, by rw [hv, sub_self, abs_zero]⟩

omit [Precise F] in
theorem mono (h : Near x v ε) (hle : ε ≤ δ) : Near x v δ := ⟨h.finite, h.error.trans hle⟩

omit [Precise F] in
theorem abs_real_le (h : Near x v ε) (hv : |v| ≤ V) : |real x| ≤ V + ε := by
  have := abs_sub_abs_le_abs_sub (real x) v
  linarith [h.error]

/-- **Differences.** -/
theorem sub (hx : Near x v ε) (hy : Near y w δ) (h : |v - w| + (ε + δ) ≤ V) (hV : V ≤ 2 ^ 127) :
    Near (x - y) (v - w) (ε + δ + roundoff (format F) * V) := by
  have hexact : |real x - real y - (v - w)| ≤ ε + δ := by
    calc |real x - real y - (v - w)| = |(real x - v) - (real y - w)| := by ring_nf
      _ ≤ |real x - v| + |real y - w| := abs_sub _ _
      _ ≤ ε + δ := add_le_add hx.error hy.error
  have hsize : |real x - real y| ≤ V := by
    have := abs_sub_abs_le_abs_sub (real x - real y) (v - w)
    linarith
  have hfinite : IsFinite (x - y) :=
    (sub_results hx.finite hy.finite).finite ((hsize.trans hV).trans Precise.le_ceiling)
  refine ⟨hfinite, ?_⟩
  calc |real (x - y) - (v - w)| ≤ |real (x - y) - (real x - real y)| + |real x - real y - (v - w)| :=
        abs_sub_le _ _ _
    _ ≤ roundoff (format F) * V + (ε + δ) := by
        refine add_le_add ((sub_error hfinite).trans ?_) hexact
        exact mul_le_mul_of_nonneg_left hsize (roundoff_pos _).le
    _ = ε + δ + roundoff (format F) * V := add_comm _ _

/-- **Products.** -/
theorem mul (hx : Near x v ε) (hy : Near y w δ) (hv : |v| ≤ V) (hw : |w| ≤ W)
    (h : (V + ε) * (W + δ) ≤ 2 ^ 127) : Near (x * y) (v * w)
      ((V + ε) * δ + ε * W + (roundoff (format F) * ((V + ε) * (W + δ)) + underflow (format F))) := by
  have hx' := hx.abs_real_le hv
  have hy' := hy.abs_real_le hw
  have hexact : |real x * real y - v * w| ≤ (V + ε) * δ + ε * W := by
    calc |real x * real y - v * w| = |real x * (real y - w) + (real x - v) * w| := by ring_nf
      _ ≤ |real x| * |real y - w| + |real x - v| * |w| := by
          rw [← abs_mul, ← abs_mul]
          exact abs_add_le _ _
      _ ≤ (V + ε) * δ + ε * W := by
          refine add_le_add (mul_le_mul hx' hy.error (abs_nonneg _) ((abs_nonneg _).trans hx')) ?_
          exact mul_le_mul hx.error hw (abs_nonneg _) ((abs_nonneg _).trans hx.error)
  have hsize : |real x * real y| ≤ (V + ε) * (W + δ) := by
    rw [abs_mul]
    exact mul_le_mul hx' hy' (abs_nonneg _) ((abs_nonneg _).trans hx')
  have hfinite : IsFinite (x * y) :=
    (mul_results hx.finite hy.finite).finite ((hsize.trans h).trans Precise.le_ceiling)
  refine ⟨hfinite, ?_⟩
  calc |real (x * y) - v * w| ≤ |real (x * y) - real x * real y| + |real x * real y - v * w| :=
        abs_sub_le _ _ _
    _ ≤ (roundoff (format F) * ((V + ε) * (W + δ)) + underflow (format F)) + ((V + ε) * δ + ε * W) := by
        refine add_le_add ((mul_error hfinite).trans ?_) hexact
        exact add_le_add_left (mul_le_mul_of_nonneg_left hsize (roundoff_pos _).le) _
    _ = _ := add_comm _ _

/-- **Quotients** by a number from one on. -/
theorem div (hx : Near x v ε) (hy : IsFinite y) (hle : 1 ≤ real y) (hv : |v / real y| + ε / real y ≤ V)
    (hV : V ≤ 2 ^ 127) :
    Near (x / y) (v / real y) (ε / real y + (roundoff (format F) * V + underflow (format F))) := by
  have hpos : 0 < real y := by linarith
  have hexact : |real x / real y - v / real y| ≤ ε / real y := by
    rw [← sub_div, abs_div, abs_of_pos hpos]
    exact div_le_div_of_nonneg_right hx.error hpos.le
  have hsize : |real x / real y| ≤ V := by
    have := abs_sub_abs_le_abs_sub (real x / real y) (v / real y)
    linarith
  have hresults := div_results hx.finite hy hpos.ne'
  have hfinite : IsFinite (x / y) := hresults.finite ((hsize.trans hV).trans Precise.le_ceiling)
  refine ⟨hfinite, ?_⟩
  calc |real (x / y) - v / real y| ≤ |real (x / y) - real x / real y| + |real x / real y - v / real y| :=
        abs_sub_le _ _ _
    _ ≤ (roundoff (format F) * V + underflow (format F)) + ε / real y := by
        refine add_le_add ((hresults.error hfinite).trans ?_) hexact
        exact add_le_add_left (mul_le_mul_of_nonneg_left hsize (roundoff_pos _).le) _
    _ = _ := add_comm _ _

end Near

end Prims
