import Prims.Proofs.Number.Machine

/-!
# Number — Whole

Small whole numbers as singles and as doubles.  Those below `2 ^ 23` are converted exactly
(`Single.real_toFloat32`, `Single.real_ofNat`, `Double.real_ofNat`), so a number that is computed from them
differs from the exact result by its own rounding only.
-/

namespace Prims

open Float.Model

namespace Machine

variable {F : Type} [Machine F] {x : F} {n : ℕ}

/-- A whole number with a bit for each place of the significand. -/
theorem exact_natCast (h : Results (n : ℝ) x) (hn : n < 2 ^ (format F).mantissaBits)
    (hle : (n : ℝ) ≤ ceiling (format F)) : IsFinite x ∧ real x = n := by
  refine h.exact (j := n) (e := 0) (by simp) hn (minExponent_nonpos _) ?_
  rwa [abs_of_nonneg (Nat.cast_nonneg n)]

theorem results_ofNat (n : ℕ) (h : parts x = settle (format F) (UnpackedFloat.ofNat (format F) n)) :
    Results (n : ℝ) x := by
  refine results_of_settle h ?_
  have := normalize_roundsTo (format F) n 0 .positive
  rwa [zpow_zero, mul_one] at this

end Machine

namespace Single

open Machine

theorem ceiling_format : ceiling (format Float32) = 2 ^ 127 := rfl

theorem roundoff_format : roundoff (format Float32) = 1 / 2 ^ 24 := by
  show (2 : ℝ) ^ (-24 : ℤ) = _
  norm_num

theorem underflow_format : underflow (format Float32) = 1 / 2 ^ 150 := by
  show (2 : ℝ) ^ (-150 : ℤ) = _
  norm_num

variable {n : ℕ}

theorem exact_of_lt {x : Float32} (h : Results (n : ℝ) x) (hn : n < 2 ^ 23) : IsFinite x ∧ real x = n := by
  have hle : (n : ℝ) ≤ 2 ^ 23 := by exact_mod_cast hn.le
  exact exact_natCast h (hn.trans (by decide)) (hle.trans (by rw [ceiling_format]; norm_num))

theorem real_toFloat32 (q : UInt16) : IsFinite q.toFloat32 ∧ real q.toFloat32 = q.toNat :=
  exact_of_lt (results_ofNat q.toNat rfl) (q.toNat_lt.trans (by decide))

theorem real_one : IsFinite (1 : Float32) ∧ real (1 : Float32) = 1 := by
  have hparts : parts (1 : Float32) = .finite .positive (2 ^ 23) (-23) (by decide) := rfl
  exact exact_of_parts hparts (by norm_num [unit])

theorem real_ofNat (hn : n < 2 ^ 23) : IsFinite (Float32.ofNat n) ∧ real (Float32.ofNat n) = n := by
  have hword : n.toUInt64.toNat = n := Nat.mod_eq_of_lt (hn.trans (by decide))
  have hresults := results_ofNat n.toUInt64.toNat (x := n.toUInt64.toFloat32) rfl
  obtain ⟨hfinite, hreal⟩ := exact_of_lt (hword ▸ hresults) hn
  have hproduct : Float32.ofNat n = n.toUInt64.toFloat32 * 1 := by
    show Float32.ofScientific n false 0 = _
    rw [Float32.ofScientific, dif_pos ⟨hn, by decide⟩]
    rfl
  have hresults' := mul_results hfinite real_one.1
  rw [hreal, real_one.2, mul_one] at hresults'
  rw [hproduct]
  exact exact_of_lt hresults' hn

end Single

namespace Double

open Machine

variable {n : ℕ}

theorem ceiling_format : ceiling (format Float) = 2 ^ 1023 := rfl

theorem roundoff_format : roundoff (format Float) = 1 / 2 ^ 53 := by
  show (2 : ℝ) ^ (-53 : ℤ) = _
  norm_num

theorem exact_of_lt {x : Float} (h : Results (n : ℝ) x) (hn : n < 2 ^ 23) : IsFinite x ∧ real x = n := by
  have hle : (n : ℝ) ≤ 2 ^ 23 := by exact_mod_cast hn.le
  refine exact_natCast h (hn.trans (by decide)) (hle.trans ?_)
  rw [ceiling_format]
  exact pow_le_pow_right₀ one_le_two (by decide)

theorem real_one : IsFinite (1 : Float) ∧ real (1 : Float) = 1 := by
  have hparts : parts (1 : Float) = .finite .positive (2 ^ 52) (-52) (by decide) := rfl
  exact exact_of_parts hparts (by norm_num [unit])

theorem real_ofNat (hn : n < 2 ^ 23) : IsFinite (Float.ofNat n) ∧ real (Float.ofNat n) = n := by
  have hword : n.toUInt64.toNat = n := Nat.mod_eq_of_lt (hn.trans (by decide))
  have hresults := results_ofNat n.toUInt64.toNat (x := n.toUInt64.toFloat) rfl
  obtain ⟨hfinite, hreal⟩ := exact_of_lt (hword ▸ hresults) hn
  have hproduct : Float.ofNat n = n.toUInt64.toFloat * 1 := by
    show Float.ofScientific n false 0 = _
    rw [Float.ofScientific, dif_pos ⟨hn.trans (by decide), by decide⟩]
    rfl
  have hresults' := mul_results hfinite real_one.1
  rw [hreal, real_one.2, mul_one] at hresults'
  rw [hproduct]
  exact exact_of_lt hresults' hn

end Double

end Prims
