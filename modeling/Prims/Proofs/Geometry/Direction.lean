import Prims.Proofs.Geometry.Corners
import Prims.Proofs.Geometry.Exact

/-!
# Geometry — Direction

The direction of a vector of singles.  It is of use when it is finite and not zero (`Point.Usable`), and
that is so exactly when the squared length is a positive finite number (`direction_usable_iff`): a squared
length that underflows counts as zero, and one that overflows makes all components of the direction zeros.
Where the squared length is no smaller than `2⁻¹²⁵` the direction is of length one, but for a few roundings
(`Measurable.unit`).
-/

namespace Prims.Point

open Float.Model Machine Single

variable {v : Point}

/-- The vector is finite and not zero. -/
def Usable (v : Point) : Prop := v.all Float32.isFinite = true ∧ v.same origin = false

instance : DecidablePred Usable := fun _ => inferInstanceAs (Decidable (_ ∧ _))

/-- The squared length comes out as a positive finite number. -/
def Measurable (v : Point) : Prop := v.normSq.isFinite = true ∧ 0 < v.normSq

instance : DecidablePred Measurable := fun _ => inferInstanceAs (Decidable (_ ∧ _))

theorem all_isFinite_iff : v.all Float32.isFinite = true ↔ v.IsFinite := by
  simp only [Vec.all, Bool.and_eq_true, and_assoc]
  exact Iff.rfl

/-- A component that is not zero. -/
theorem not_same_origin (h : real v.x ≠ 0 ∨ real v.y ≠ 0 ∨ real v.z ≠ 0) : v.same origin = false := by
  have hzero {x : Float32} (hx : real x ≠ 0) : (x == 0) = false := by
    refine Bool.eq_false_iff.mpr fun h => hx ?_
    obtain ⟨s, hs⟩ := beq_zero_iff.mp h
    rw [real, hs, value_zero]
  show (v.x == 0 && v.y == 0 && v.z == 0) = false
  rcases h with h | h | h <;> simp [hzero h]

/-! ### Lengths -/

theorem measurable_iff : v.Measurable ↔ Machine.IsFinite v.normSq ∧ 0 < real v.normSq := by
  have hzero : real (0 : Float32) = 0 := value_zero _
  refine and_congr_right fun hfinite => ?_
  rw [lt_iff isFinite_zero hfinite, hzero]

section

variable (h : v.Measurable)

include h

theorem Measurable.finite : IsFinite v.normSq := (measurable_iff.mp h).1

theorem Measurable.pos : 0 < real v.normSq := (measurable_iff.mp h).2

/-- A positive number is at least the least of all. -/
theorem Measurable.two_mul_underflow_le : 2 * underflow (format Float32) ≤ real v.normSq := by
  obtain ⟨j, hj⟩ := exists_units v.normSq
  have hunit : (2 : ℝ) ^ (format Float32).minExponent = 2 * underflow (format Float32) := by
    rw [underflow_format]
    show (2 : ℝ) ^ (-149 : ℤ) = _
    norm_num
  rw [hunit] at hj
  have hη := underflow_pos (format Float32)
  have hpos := h.pos
  have hone : 1 ≤ j := by
    by_contra hlt
    have hle : (j : ℝ) ≤ 0 := by exact_mod_cast Int.lt_add_one_iff.mp (not_le.mp hlt)
    nlinarith
  have hone : (1 : ℝ) ≤ j := by exact_mod_cast hone
  rw [hj]
  nlinarith

/-- Some square does not underflow. -/
theorem Measurable.underflow_lt : underflow (format Float32) < v.exact.normSq := by
  have hX := mul_self_nonneg (real v.x)
  have hY := mul_self_nonneg (real v.y)
  have hZ := mul_self_nonneg (real v.z)
  obtain ⟨hxy, hz⟩ := finite_of_add h.finite
  obtain ⟨hx, hy⟩ := finite_of_add hxy
  by_contra hle
  have hle : real v.x * real v.x + real v.y * real v.y + real v.z * real v.z ≤ _ := not_lt.mp hle
  have hzero {x : Float32} (hx : IsFinite (x * x)) (hle : real x * real x ≤ underflow (format Float32)) :
      real (x * x) = 0 := by
    obtain ⟨hxf, -⟩ := finite_of_mul hx
    exact ((mul_results hxf hxf).real_eq_zero_iff hx).mpr (by rwa [abs_mul_self])
  have hadd {x y : Float32} (hxy : IsFinite (x + y)) (hx : real x = 0) (hy : real y = 0) :
      real (x + y) = 0 := by
    have herror := add_error hxy
    rw [hx, hy, add_zero, sub_zero, abs_zero, mul_zero] at herror
    exact abs_nonpos_iff.mp herror
  exact h.pos.ne' (hadd h.finite (hadd hxy (hzero hx (by linarith)) (hzero hy (by linarith)))
    (hzero hz (by linarith)))

/-- **The squared length, however small,** is that of the exact vector, but for a factor. -/
theorem Measurable.normSq_bounds :
    v.exact.normSq ≤ 4 * real v.normSq ∧ real v.normSq ≤ 6 * v.exact.normSq := by
  have herror := abs_le.mp (Vec.normSq_error h.finite)
  have hleast := h.two_mul_underflow_le
  have hlt := h.underflow_lt
  rw [roundoff_format] at herror
  have hnonneg := v.exact.normSq_nonneg
  constructor <;> linarith

/-- **The length** is the root of the squared length, but for two roundings. -/
theorem Measurable.norm_error : IsFinite (norm v) ∧
    |real (norm v) - √(real v.normSq)| ≤ 1 / 2 ^ 23 * √(real v.normSq) := by
  have hleast := h.two_mul_underflow_le
  have hlarge := (le_abs_self _).trans_lt (abs_real_lt v.normSq)
  have hresults : Results √(real v.normSq) (norm v) := sqrt_results h.finite h.pos.le
  rw [underflow_format] at hleast
  rw [ceiling_format] at hlarge
  have hroot : √(real v.normSq) ≤ 2 ^ 64 := Real.sqrt_le_iff.mpr ⟨by norm_num, by linarith⟩
  have hroot' : 1 / 2 ^ 75 ≤ √(real v.normSq) := Real.le_sqrt_of_sq_le (by linarith)
  have hfinite : IsFinite (norm v) := by
    refine hresults.finite ?_
    rw [abs_of_nonneg (Real.sqrt_nonneg _), ceiling_format]
    exact hroot.trans (by norm_num)
  have herror := hresults.error hfinite
  rw [abs_of_nonneg (Real.sqrt_nonneg _), roundoff_format, underflow_format] at herror
  exact ⟨hfinite, by linarith⟩

/-- The length is not taken for zero. -/
theorem Measurable.direction_eq : direction? leastNormal v = some (v.unscale (norm v)) := by
  obtain ⟨hfinite, herror⟩ := h.norm_error
  have hleast := h.two_mul_underflow_le
  rw [underflow_format] at hleast
  have hroot : 1 / 2 ^ 75 ≤ √(real v.normSq) := Real.le_sqrt_of_sq_le (by linarith)
  have hparts : parts leastNormal = .finite .positive (2 ^ 23) (-149) (by decide) := rfl
  obtain ⟨hleastNormal, hreal⟩ : Machine.IsFinite leastNormal ∧ real leastNormal = 1 / 2 ^ 126 :=
    exact_of_parts hparts (by norm_num [unit])
  refine if_neg fun hle => ?_
  rw [le_iff hfinite hleastNormal, hreal] at hle
  have := (abs_le.mp herror).1
  linarith

/-! ### Quotients -/

/-- The length, from below and from above. -/
theorem Measurable.norm_bounds : 0 < real (norm v) ∧ 99 / 100 * real v.normSq ≤ real (norm v) ^ 2 ∧
    real (norm v) ^ 2 ≤ 101 / 100 * real v.normSq := by
  obtain ⟨-, herror⟩ := h.norm_error
  have hsq := Real.sq_sqrt h.pos.le
  have hroot := Real.sqrt_pos.mpr h.pos
  obtain ⟨hlow, hhigh⟩ := abs_le.mp herror
  have hlow' : 999 / 1000 * √(real v.normSq) ≤ real (norm v) := by linarith
  have hhigh' : real (norm v) ≤ 1001 / 1000 * √(real v.normSq) := by linarith
  refine ⟨by linarith, ?_, ?_⟩
  · calc 99 / 100 * real v.normSq ≤ (999 / 1000 * √(real v.normSq)) ^ 2 := by
          rw [mul_pow, hsq]
          linarith [h.pos]
      _ ≤ real (norm v) ^ 2 := pow_le_pow_left₀ (by positivity) hlow' 2
  · calc real (norm v) ^ 2 ≤ (1001 / 1000 * √(real v.normSq)) ^ 2 := pow_le_pow_left₀ (by linarith) hhigh' 2
      _ ≤ 101 / 100 * real v.normSq := by
          rw [mul_pow, hsq]
          linarith [h.pos]

/-- A component over the length is at most three, and exact but for a rounding. -/
theorem Measurable.quotient {x : Float32} (hx : IsFinite x) (hle : real x ^ 2 ≤ 4 * real v.normSq) :
    IsFinite (x / norm v) ∧ |real x / real (norm v)| ≤ 3 ∧ |real (x / norm v) - real x / real (norm v)| ≤
      1 / 2 ^ 24 * |real x / real (norm v)| + 1 / 2 ^ 150 := by
  obtain ⟨hfinite, -⟩ := h.norm_error
  obtain ⟨hpos, hlow, -⟩ := h.norm_bounds
  have hsize : |real x / real (norm v)| ≤ 3 := by
    refine abs_le_of_sq_le_sq ?_ (by norm_num)
    rw [div_pow, div_le_iff₀ (by positivity)]
    linarith [h.pos]
  have hresults := div_results hx hfinite hpos.ne'
  have hquotient : IsFinite (x / norm v) := by
    refine hresults.finite (hsize.trans ?_)
    rw [ceiling_format]
    norm_num
  have herror := hresults.error hquotient
  rw [roundoff_format, underflow_format] at herror
  exact ⟨hquotient, hsize, herror⟩

/-- The squares of the components. -/
theorem Measurable.sq_le : real v.x ^ 2 ≤ 4 * real v.normSq ∧ real v.y ^ 2 ≤ 4 * real v.normSq ∧
    real v.z ^ 2 ≤ 4 * real v.normSq := by
  have hbound : real v.x * real v.x + real v.y * real v.y + real v.z * real v.z ≤ _ := h.normSq_bounds.1
  have hX := mul_self_nonneg (real v.x)
  have hY := mul_self_nonneg (real v.y)
  have hZ := mul_self_nonneg (real v.z)
  refine ⟨?_, ?_, ?_⟩ <;> linarith

/-- **The direction of a vector that can be measured** is finite and not zero. -/
theorem Measurable.usable : Usable (v.unscale (norm v)) := by
  obtain ⟨hxf, hyf, hzf⟩ := Vec.isFinite_of_normSq h.finite
  obtain ⟨hx, hy, hz⟩ := h.sq_le
  obtain ⟨hpos, -, hhigh⟩ := h.norm_bounds
  have hlarge : real v.normSq ≤ 6 * (real v.x * real v.x + real v.y * real v.y + real v.z * real v.z) :=
    h.normSq_bounds.2
  have hne {x : Float32} (hx : IsFinite x) (hle : real x ^ 2 ≤ 4 * real v.normSq)
      (hge : real v.normSq ≤ 18 * (real x * real x)) : real (x / norm v) ≠ 0 := by
    obtain ⟨-, hthree, herror⟩ := h.quotient hx hle
    have hsize : 1 / 5 ≤ |real x / real (norm v)| := by
      refine le_of_sq_le_sq ?_ (abs_nonneg _)
      rw [sq_abs, div_pow (real x), le_div_iff₀ (by positivity)]
      linarith
    intro hzero
    rw [hzero, zero_sub, abs_neg] at herror
    linarith
  refine ⟨all_isFinite_iff.mpr ⟨(h.quotient hxf hx).1, (h.quotient hyf hy).1, (h.quotient hzf hz).1⟩,
    not_same_origin ?_⟩
  by_cases hX : real v.normSq ≤ 18 * (real v.x * real v.x)
  · exact .inl (hne hxf hx hX)
  · by_cases hY : real v.normSq ≤ 18 * (real v.y * real v.y)
    · exact .inr (.inl (hne hyf hy hY))
    · exact .inr (.inr (hne hzf hz (by linarith)))

/-- The square of the length is the squared length, but for a few roundings. -/
theorem Measurable.sq_norm_error : |real (norm v) ^ 2 - real v.normSq| ≤ 5 / 2 ^ 24 * real v.normSq := by
  obtain ⟨-, herror⟩ := h.norm_error
  have hsq := Real.sq_sqrt h.pos.le
  have hroot := Real.sqrt_pos.mpr h.pos
  set s := √(real v.normSq)
  obtain ⟨hlow, hhigh⟩ := abs_le.mp herror
  have hsum : |real (norm v) + s| ≤ 9 / 4 * s := abs_le.mpr ⟨by linarith, by linarith⟩
  calc |real (norm v) ^ 2 - real v.normSq| = |real (norm v) - s| * |real (norm v) + s| := by
        rw [← abs_mul, ← hsq]
        ring_nf
    _ ≤ 1 / 2 ^ 23 * s * (9 / 4 * s) := by gcongr
    _ ≤ 5 / 2 ^ 24 * real v.normSq := by
        rw [← hsq]
        linarith [sq_nonneg s]

/-- **Directions have length one**, but for a few roundings. -/
theorem Measurable.unit (hlarge : 1 / 2 ^ 125 ≤ real v.normSq) :
    |(v.unscale (norm v)).exact.normSq - 1| ≤ 1 / 2 ^ 19 := by
  obtain ⟨hxf, hyf, hzf⟩ := Vec.isFinite_of_normSq h.finite
  obtain ⟨hx, hy, hz⟩ := h.sq_le
  obtain ⟨hpos, -, -⟩ := h.norm_bounds
  have hsquared := Vec.normSq_error h.finite
  have hlength := h.sq_norm_error
  have hleast := h.two_mul_underflow_le
  rw [roundoff_format, underflow_format] at hsquared
  -- the exact quotients
  have hexact : |v.exact.normSq / real (norm v) ^ 2 - 1| ≤ 14 / 2 ^ 24 := by
    have hl := abs_le.mp hlength
    have hs := abs_le.mp hsquared
    have hpos' := h.pos
    rw [div_sub_one (by positivity), abs_div, abs_of_pos (show 0 < real (norm v) ^ 2 by positivity),
      div_le_iff₀ (by positivity)]
    refine abs_le.mpr ⟨?_, ?_⟩ <;> linarith
  -- and the rounded ones
  have hround {x : Float32} (hx : IsFinite x) (hle : real x ^ 2 ≤ 4 * real v.normSq) :
      |real (x / norm v) * real (x / norm v) - real x * real x / real (norm v) ^ 2| ≤
        3 / 2 ^ 24 * (real x * real x / real (norm v) ^ 2) + 1 / 2 ^ 140 := by
    obtain ⟨-, hthree, herror⟩ := h.quotient hx hle
    have hq : real x * real x / real (norm v) ^ 2 = (real x / real (norm v)) ^ 2 := by
      rw [div_pow, sq (real x)]
    rw [hq]
    set q := real x / real (norm v)
    have hsum : |real (x / norm v) + q| ≤ 9 / 4 * |q| + 1 / 2 ^ 150 := by
      have htri := abs_add_le (real (x / norm v) - q) (2 * q)
      rw [abs_mul, abs_two, show real (x / norm v) - q + 2 * q = real (x / norm v) + q by ring] at htri
      linarith [abs_nonneg q]
    calc |real (x / norm v) * real (x / norm v) - q ^ 2|
        = |real (x / norm v) - q| * |real (x / norm v) + q| := by
          rw [← abs_mul]
          ring_nf
      _ ≤ (1 / 2 ^ 24 * |q| + 1 / 2 ^ 150) * (9 / 4 * |q| + 1 / 2 ^ 150) := by gcongr
      _ ≤ 3 / 2 ^ 24 * q ^ 2 + 1 / 2 ^ 140 := by
          rw [← sq_abs q]
          nlinarith [sq_nonneg |q|, abs_nonneg q]
  have hX := abs_le.mp (hround hxf hx)
  have hY := abs_le.mp (hround hyf hy)
  have hZ := abs_le.mp (hround hzf hz)
  have hsum : v.exact.normSq / real (norm v) ^ 2 = real v.x * real v.x / real (norm v) ^ 2 +
      real v.y * real v.y / real (norm v) ^ 2 + real v.z * real v.z / real (norm v) ^ 2 := by
    rw [← add_div, ← add_div]
    rfl
  rw [hsum] at hexact
  have hE := abs_le.mp hexact
  show |real (v.x / norm v) * real (v.x / norm v) + real (v.y / norm v) * real (v.y / norm v) +
    real (v.z / norm v) * real (v.z / norm v) - 1| ≤ _
  refine abs_le.mpr ⟨?_, ?_⟩ <;> linarith

end

/-! ### What cannot be measured -/

open Float.Model.UnpackedFloat in
/-- Over an infinity, finite quotients are zeros; -/
theorem isZero_of_div {x y : Float32} {s : Sign} (hy : parts y = .infinity s) (h : IsFinite (x / y)) :
    IsZero (x / y) := by
  unfold IsFinite at h
  unfold IsZero
  rw [parts_div, hy] at h ⊢
  cases hx : parts x with
  | notANumber | infinity t =>
    rw [hx] at h
    cases settle_isFinite h
  | zero t | finite t m e hm => exact ⟨_, unpack_pack (x := .zero (t * s)) trivial⟩

open Float.Model.UnpackedFloat in
/-- over what is no number there are none. -/
theorem not_isFinite_div {x y : Float32} (hy : parts y = .notANumber) : ¬ IsFinite (x / y) := by
  intro h
  rw [IsFinite, parts_div, hy] at h
  have hquotient := settle_isFinite h
  cases hx : parts x <;>
  · rw [hx] at hquotient
    cases hquotient

/-- **Directions of use** are those of vectors that can be measured. -/
theorem direction_usable_iff : ((direction? leastNormal v).getD origin).Usable ↔ v.Measurable := by
  constructor
  · intro h
    have hunsigned := v.normSq_isUnsigned
    have horigin : ¬ Usable origin := by decide +kernel
    have hlength : ¬ norm v ≤ leastNormal := fun hle => horigin (by rwa [direction?, if_pos hle] at h)
    rw [direction?, if_neg hlength, Option.getD_some] at h
    obtain ⟨hfinite, hsame⟩ := h
    obtain ⟨hx, hy, hz⟩ := all_isFinite_iff.mp hfinite
    have hsqrt : parts (norm v) = settle _ (UnpackedFloat.sqrt _ (parts v.normSq)) := parts_sqrt v.normSq
    cases hp : parts v.normSq with
    | notANumber =>
      rw [hp] at hsqrt
      exact absurd hx (not_isFinite_div (hsqrt.trans (unpack_pack (x := .notANumber) trivial)))
    | infinity s =>
      cases s with
      | negative => exact absurd (by rw [hp]; rfl) hunsigned
      | positive =>
        rw [hp] at hsqrt
        have hinfinite := hsqrt.trans (unpack_pack (x := .infinity .positive) trivial)
        have hzeros : same (v.unscale (norm v)) origin = true := by
          have hzero {x : Float32} (h : IsFinite (x / norm v)) : (x / norm v == 0) = true :=
            beq_zero_iff.mpr (isZero_of_div hinfinite h)
          show (_ == (0 : Float32) && _ == (0 : Float32) && _ == (0 : Float32)) = true
          rw [Bool.and_eq_true, Bool.and_eq_true]
          exact ⟨⟨hzero hx, hzero hy⟩, hzero hz⟩
        exact absurd (hsame.symm.trans hzeros) Bool.false_ne_true
    | zero s =>
      have hle : norm v ≤ leastNormal := by
        rw [hp] at hsqrt
        rw [le_iff', hsqrt.trans (unpack_pack (x := .zero s) trivial)]
        cases s <;> decide
      exact absurd hle hlength
    | finite s m e hm =>
      cases s with
      | negative => exact absurd (by rw [hp]; rfl) hunsigned
      | positive =>
        have hnumber : IsFinite v.normSq := by
          rw [IsFinite, hp]
          rfl
        refine ⟨hnumber, (lt_iff isFinite_zero hnumber).mpr ?_⟩
        show value _ < value (parts v.normSq)
        rw [hp, parts_zero, value_zero]
        exact value_positive_pos hm
  · intro h
    rw [h.direction_eq]
    exact h.usable

end Prims.Point
