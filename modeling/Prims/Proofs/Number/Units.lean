import Prims.Proofs.Number.Single
import Prims.Proofs.Number.Widening

/-!
# Number — Units

The units of a single as its value.  The word of a single holds the parts that its units are made of
(`exists_components`), so a finite single has as many units as it stands for (`units?_of_isFinite`), and the
conversion to a natural number gives the integer part of what it stands for (`floorNat_eq`).
-/

namespace Prims.Single

open Float.Model Float.Model.UnpackedFloat Machine

variable {x : Float32}

/-- The three parts of a single, as its units read them. -/
theorem exists_components (x : Float32) : ∃ (t : Sign) (E : BitVec 8) (f : BitVec 23),
    parts x = unpack .binary32 (packComponents .binary32 t E f) ∧
    negative x = decide (signNat t = 1) ∧ exponent x = E.toNat ∧ fraction x = f.toNat := by
  obtain ⟨t, E, f, hparts, hword⟩ := exists_word x
  have hE : E.toNat < 2 ^ 8 := E.isLt
  have hf : f.toNat < 2 ^ 23 := f.isLt
  have ht : signNat t ≤ 1 := by cases t <;> decide
  refine ⟨t, E, f, hparts, ?_, ?_, ?_⟩
  · rw [negative, hword]
    exact decide_eq_decide.mpr (by omega)
  · rw [exponent, Nat.shiftRight_eq_div_pow, hword]
    omega
  · rw [fraction, hword]
    omega

theorem unitsPerOne_eq : (unitsPerOne : ℝ) = 2 ^ (149 : ℤ) := by
  unfold unitsPerOne
  push_cast
  norm_num

theorem cast_signed (t : Sign) (n : ℕ) : ((signed (decide (signNat t = 1)) n : ℤ) : ℝ) = unit t * n := by
  cases t <;> simp [signNat, signed, unit]

theorem isFinite_of_exponent {t : Sign} {E : BitVec 8} {f : BitVec 23}
    (hx : parts x = unpack .binary32 (packComponents .binary32 t E f)) (h : E.toNat ≠ 255) : IsFinite x := by
  rw [IsFinite, hx]
  by_cases hE : E.toNat = 0
  · have hzero : E = 0#8 := BitVec.eq_of_toNat_eq hE
    rw [hzero]
    by_cases hf : f.toNat = 0
    · have hf : f = 0#23 := BitVec.eq_of_toNat_eq hf
      rw [hf, @unpack_zero .binary32]
      rfl
    · rw [@unpack_subnormal .binary32 (by decide) t _ (Nat.pos_of_ne_zero hf)]
      rfl
  · rw [@unpack_normal .binary32 t _ f hE h]
    rfl

/-- What is not finite has no units, -/
theorem units?_of_not_isFinite (h : ¬ IsFinite x) : units? x = none := by
  obtain ⟨t, E, f, hx, -, he, -⟩ := exists_components x
  refine units?_of_infinite (he.trans ?_)
  by_contra hE
  exact h (isFinite_of_exponent hx hE)

/-- and **a finite single counts its units.** -/
theorem units?_of_isFinite (h : IsFinite x) : ∃ k, units? x = some k ∧ real x = k / unitsPerOne := by
  obtain ⟨t, E, f, hx, hs, he, hf⟩ := exists_components x
  have hones : E.toNat ≠ 255 := by
    intro hE
    have hE : E = -1#8 := BitVec.eq_of_toNat_eq hE
    rw [IsFinite, hx, hE] at h
    unfold UnpackedFloat.unpack at h
    simp only [unpackMantissa_packComponents, unpackExponent_packComponents, if_true] at h
    split at h <;> cases h
  refine ⟨_, units?_of_finite (he ▸ hones), ?_⟩
  rw [hs, cast_signed, significand, scale, he, hf, unitsPerOne_eq, real, hx]
  by_cases hE : E.toNat = 0
  · have hzero : E = 0#8 := BitVec.eq_of_toNat_eq hE
    rw [hE, if_pos rfl, hzero]
    by_cases hfrac : f.toNat = 0
    · have hfrac' : f = 0#23 := BitVec.eq_of_toNat_eq hfrac
      rw [hfrac', @unpack_zero .binary32, value_zero]
      simp
    · rw [@unpack_subnormal .binary32 (by decide) t _ (Nat.pos_of_ne_zero hfrac), value_finite]
      show unit t * (f.toNat * 2 ^ (-149 : ℤ)) = _
      rw [zpow_neg, max_eq_right (Nat.zero_le 1), pow_zero, mul_one, mul_div_assoc, div_eq_mul_inv]
  · rw [if_neg hE, @unpack_normal .binary32 t _ f hE hones, value_finite]
    show unit t * ((2 ^ 23 + f.toNat : ℕ) * 2 ^ ((E.toNat : ℤ) - 150)) = _
    have hmax : max E.toNat 1 - 1 = E.toNat - 1 := by omega
    have hexp : (E.toNat : ℤ) - 150 = ((E.toNat - 1 : ℕ) : ℤ) - 149 := by omega
    rw [hmax, hexp, zpow_sub₀ two_ne_zero, zpow_natCast]
    push_cast
    norm_num
    ring

/-- **Units and value** say the same. -/
theorem units?_eq_some_iff {k : ℤ} : units? x = some k ↔ IsFinite x ∧ real x = k / unitsPerOne := by
  have hpos : (unitsPerOne : ℝ) ≠ 0 := by
    rw [unitsPerOne_eq]
    exact zpow_ne_zero _ two_ne_zero
  constructor
  · intro hk
    have hfinite : IsFinite x := by
      by_contra h
      rw [units?_of_not_isFinite h] at hk
      cases hk
    obtain ⟨j, hj, hreal⟩ := units?_of_isFinite hfinite
    obtain rfl := Option.some.inj (hj.symm.trans hk)
    exact ⟨hfinite, hreal⟩
  · rintro ⟨hfinite, hk⟩
    obtain ⟨j, hj, hreal⟩ := units?_of_isFinite hfinite
    rw [hj, Option.some.injEq]
    rw [hreal, div_left_inj' hpos] at hk
    exact_mod_cast hk

/-- The integer part, as a word has room for it: none below zero, the largest word for the infinity above. -/
noncomputable def truncated (x : Float32) : ℕ :=
  match parts x with
  | .infinity .positive => largestWord 32
  | .infinity .negative | .notANumber => 0
  | .zero _ | .finite _ _ _ _ => min ⌊real x⌋₊ (largestWord 32)

/-- **The conversion to a natural number truncates.** -/
theorem floorNat_eq (x : Float32) : floorNat x = truncated x := by
  have hfinite (h : IsFinite x) : floorNat x = min ⌊real x⌋₊ (largestWord 32) := by
    obtain ⟨k, hk, hreal⟩ := units?_of_isFinite h
    have hfloor : ⌊real x⌋ = k / (unitsPerOne : ℤ) := by
      rw [hreal, Int.floor_div_natCast, Int.floor_intCast]
    rw [floorNat, hk, ← Int.floor_toNat, hfloor]
  have hunbounded (h : ¬ IsFinite x) : floorNat x = if 0 < x then largestWord 32 else 0 := by
    rw [floorNat, units?_of_not_isFinite h]
  have hlt : (0 < x) ↔ UnpackedFloat.lt (.zero .positive) (parts x) = true := lt_iff' 0 x
  unfold truncated
  unfold IsFinite at hfinite hunbounded
  cases hx : parts x with
  | zero s | finite s m e hm => exact hfinite (hx ▸ rfl)
  | notANumber =>
    rw [hx] at hlt
    exact (hunbounded (hx ▸ nofun)).trans (if_neg (hlt.not.mpr nofun))
  | infinity s =>
    rw [hx] at hlt
    cases s with
    | positive => exact (hunbounded (hx ▸ nofun)).trans (if_pos (hlt.mpr rfl))
    | negative => exact (hunbounded (hx ▸ nofun)).trans (if_neg (hlt.not.mpr nofun))

end Prims.Single
