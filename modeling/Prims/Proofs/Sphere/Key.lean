import Mathlib.Algebra.Order.Round
import Prims.Proofs.Number.Units
import Prims.Sphere

/-!
# Sphere — Key

What the key of a vertex says about its coordinates.  A coordinate counts by the integer that is nearest to a
million times its value, a half going away from zero (`millionths_eq`), so two vertices have one key exactly
when their coordinates agree in millionths, each of the three (`key_eq_iff`).
-/

namespace Prims.Sphere

open Float.Model Float.Model.UnpackedFloat Machine Single

/-- The nearest integer, a half going away from zero. -/
noncomputable def nearest (r : ℝ) : ℤ := if 0 ≤ r then round r else -round (-r)

/-- **The quotient of integers** is rounded as that of the reals. -/
theorem roundDivAway_eq (n : ℤ) {d : ℕ} (hd : 0 < d) : roundDivAway n d = nearest (n / d) := by
  have hd' : (0 : ℝ) < d := Nat.cast_pos.mpr hd
  have hsize (m : ℕ) : round (m / d : ℝ) = ((2 * m + d) / (2 * d) : ℕ) := by
    have hhalf : (m / d + 1 / 2 : ℝ) = (2 * m + d : ℕ) / (2 * d : ℕ) := by
      push_cast
      field_simp
    rw [round_eq, hhalf, ← Int.natCast_floor_eq_floor (by positivity), Nat.floor_div_eq_div]
  unfold roundDivAway nearest
  by_cases hn : n < 0
  · have hcast : ((n.natAbs : ℕ) : ℝ) = -n := by rw [Nat.cast_natAbs, abs_of_neg hn, Int.cast_neg]
    have hneg : ¬ (0 : ℝ) ≤ n / d := not_le.mpr (div_neg_of_neg_of_pos (Int.cast_lt_zero.mpr hn) hd')
    rw [if_pos hn, if_neg hneg, ← neg_div, ← hcast, hsize]
  · have hcast : ((n.natAbs : ℕ) : ℝ) = n := by rw [Nat.cast_natAbs, abs_of_nonneg (not_lt.mp hn)]
    have hnonneg : (0 : ℝ) ≤ n / d := div_nonneg (Int.cast_nonneg (not_lt.mp hn)) hd'.le
    rw [if_neg hn, if_pos hnonneg, ← hcast, hsize]

/-- A coordinate in millionths, to the nearest one.  There is room for 64 bits with a sign, and what is no
number counts as zero. -/
noncomputable def inMillionths (x : Float32) : ℤ :=
  match parts x with
  | .notANumber => 0
  | .infinity .positive => 2 ^ 63 - 1
  | .infinity .negative => -2 ^ 63
  | .zero _ | .finite _ _ _ _ => max (-2 ^ 63) (min (2 ^ 63 - 1) (nearest (real x * (10 : ℕ) ^ 6)))

/-- **Coordinates count by the nearest millionth.** -/
theorem millionths_eq (x : Float32) : millionths x = inMillionths x := by
  have hfinite (h : IsFinite x) :
      millionths x = max (-2 ^ 63) (min (2 ^ 63 - 1) (nearest (real x * (10 : ℕ) ^ 6))) := by
    obtain ⟨k, hk, hreal⟩ := units?_of_isFinite h
    have hscale : real x * (10 : ℕ) ^ 6 = (k * 1000000 : ℤ) / unitsPerOne := by
      rw [hreal]
      push_cast
      ring
    have hpos : 0 < unitsPerOne := Nat.pow_pos two_pos
    rw [millionths, hk, hscale, ← roundDivAway_eq _ hpos]
    rfl
  have hunbounded (h : ¬ IsFinite x) :
      millionths x = if x.isNaN then 0 else if 0 < x then 2 ^ 63 - 1 else -2 ^ 63 := by
    rw [millionths, units?_of_not_isFinite h]
    rfl
  have hnan : x.isNaN = (parts x).isNaN := rfl
  have hlt : (0 < x) ↔ UnpackedFloat.lt (.zero .positive) (parts x) = true := lt_iff' 0 x
  unfold inMillionths
  unfold IsFinite at hfinite hunbounded
  cases hx : parts x with
  | zero s | finite s m e hm => exact hfinite (hx ▸ rfl)
  | notANumber =>
    rw [hx] at hnan
    exact (hunbounded (hx ▸ nofun)).trans (if_pos hnan)
  | infinity s =>
    rw [hx] at hlt hnan
    rw [hunbounded (hx ▸ nofun), if_neg (Bool.eq_false_iff.mp hnan)]
    cases s with
    | positive => exact if_pos (hlt.mpr rfl)
    | negative => exact if_neg (hlt.not.mpr nofun)

theorem key_eq (p : Point) : key p = ⟨inMillionths p.x, inMillionths p.y, inMillionths p.z⟩ := by
  rw [← millionths_eq, ← millionths_eq, ← millionths_eq]
  rfl

/-- The coordinates of the two points agree in millionths. -/
structure SameMillionths (p q : Point) : Prop where
  x : inMillionths p.x = inMillionths q.x
  y : inMillionths p.y = inMillionths q.y
  z : inMillionths p.z = inMillionths q.z

/-- **The key is the three coordinates** in millionths. -/
theorem key_eq_iff {p q : Point} : key p = key q ↔ SameMillionths p q := by
  rw [key_eq, key_eq, Vec.mk.injEq]
  exact ⟨fun ⟨hx, hy, hz⟩ => ⟨hx, hy, hz⟩, fun ⟨hx, hy, hz⟩ => ⟨hx, hy, hz⟩⟩

end Prims.Sphere
