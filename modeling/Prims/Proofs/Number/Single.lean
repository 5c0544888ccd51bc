import Mathlib
import Prims.Number.Binary

/-!
# Number — Single

Singles as numbers.  A single is its sign, its exponent and its fraction (`eq_of_parts`).  When it is finite
they give its units (`units?_of_finite`), and since a size has one significand and one scale only
(`size_eq_iff`), equality of finite singles is equality of their units (`beq_iff`): different singles of one
value are the two zeros.
-/

namespace Prims.Single

variable {x y : Float32}

/-! ### Parts -/

def negative (x : Float32) : Bool := decide (0x80000000 ≤ x.toBits.toNat)

def exponent (x : Float32) : Nat := (x.toBits.toNat >>> 23) % 0x100

def fraction (x : Float32) : Nat := x.toBits.toNat % 0x800000

/-- A single by its parts. -/
theorem eq_of_parts (hs : negative x = negative y) (he : exponent x = exponent y)
    (hf : fraction x = fraction y) : x = y := by
  have hx := x.toBits.toNat_lt
  have hy := y.toBits.toNat_lt
  rw [← Float32.toBits_inj, ← UInt32.toNat_inj]
  simp only [negative, exponent, fraction, Nat.shiftRight_eq_div_pow, decide_eq_decide] at hs he hf
  omega

/-- The fraction with its leading bit, which only the least exponent does without. -/
def significand (x : Float32) : Nat := if exponent x = 0 then fraction x else 0x800000 + fraction x

/-- By how many bits the significand is shifted to count units. -/
def scale (x : Float32) : Nat := max (exponent x) 1 - 1

/-- A size with a sign. -/
def signed : Bool → Nat → Int
  | false, n => n
  | true,  n => -n

theorem signed_eq_iff {s t : Bool} {m n : Nat} : signed s m = signed t n ↔ m = n ∧ (s = t ∨ m = 0) := by
  cases s <;> cases t <;> simp only [signed, reduceCtorEq, true_or, false_or, and_true] <;> omega

theorem units?_of_infinite (h : exponent x = 0xff) : units? x = none := if_pos h

/-- **The units of a finite single.** -/
theorem units?_of_finite (h : exponent x ≠ 0xff) :
    units? x = some (signed (negative x) (significand x * 2 ^ scale x)) := by
  have hsize : (if exponent x = 0 then fraction x else (0x800000 + fraction x) <<< (exponent x - 1)) =
      significand x * 2 ^ scale x := by
    unfold significand scale
    split
    next h0 =>
      rw [h0]
      exact (Nat.mul_one _).symm
    next h0 => rw [Nat.shiftLeft_eq, max_eq_left (by omega)]
  have hunits : units? x =
      let size := if exponent x = 0 then fraction x else (0x800000 + fraction x) <<< (exponent x - 1)
      some (if x.toBits.toNat < 0x80000000 then (size : Int) else -(size : Int)) := if_neg h
  rw [hunits, hsize, negative]
  dsimp only
  split
  next hs => rw [decide_eq_false (by omega), signed]
  next hs => rw [decide_eq_true (by omega), signed]

/-! ### Equality -/

theorem fraction_lt (x : Float32) : fraction x < 2 ^ 23 := Nat.mod_lt _ (by decide)

theorem significand_lt (x : Float32) : significand x < 2 ^ 24 := by
  have := fraction_lt x
  unfold significand
  split <;> omega

theorem le_significand (h : exponent x ≠ 0) : 2 ^ 23 ≤ significand x := by
  rw [significand, if_neg h]
  omega

/-- A larger scale makes a larger size, as only the least scale has significands without leading bit. -/
theorem scale_le (h : significand x * 2 ^ scale x = significand y * 2 ^ scale y) : scale y ≤ scale x := by
  by_contra hlt
  have hnormal : 2 ^ 23 ≤ significand y := le_significand (by unfold scale at hlt; omega)
  refine h.not_lt ?_
  calc significand x * 2 ^ scale x
      < 2 ^ 24 * 2 ^ scale x := Nat.mul_lt_mul_of_pos_right (significand_lt x) (Nat.two_pow_pos _)
    _ = 2 ^ 23 * 2 ^ (scale x + 1) := by ring
    _ ≤ 2 ^ 23 * 2 ^ scale y := Nat.mul_le_mul_left _ (Nat.pow_le_pow_right (by decide) (by omega))
    _ ≤ significand y * 2 ^ scale y := Nat.mul_le_mul_right _ hnormal

/-- **A size has one exponent and one fraction.** -/
theorem size_eq_iff : significand x * 2 ^ scale x = significand y * 2 ^ scale y ↔
    exponent x = exponent y ∧ fraction x = fraction y := by
  constructor
  · intro h
    have hscale := Nat.le_antisymm (scale_le h.symm) (scale_le h)
    rw [hscale] at h
    have hsignificand := Nat.eq_of_mul_eq_mul_right (Nat.two_pow_pos _) h
    have := fraction_lt x
    have := fraction_lt y
    unfold scale at hscale
    unfold significand at hsignificand
    split at hsignificand <;> split at hsignificand <;> omega
  · rintro ⟨he, hf⟩
    rw [significand, significand, scale, scale, he, hf]

/-- Nothing but the two zeros is without a size. -/
theorem eq_zero_of_size (h : significand x * 2 ^ scale x = 0) : x = 0 ∨ x = -0 := by
  have hzero : significand 0 * 2 ^ scale 0 = 0 := by decide +kernel
  obtain ⟨he, hf⟩ := size_eq_iff.mp (h.trans hzero.symm)
  cases hs : negative x with
  | false => exact .inl (eq_of_parts (hs.trans (by decide +kernel)) he hf)
  | true =>
    refine .inr (eq_of_parts (hs.trans (by decide +kernel)) (he.trans ?_) (hf.trans ?_)) <;> decide +kernel

/-- **Finite singles are equal when their units are.** -/
theorem beq_iff {k : Int} (hx : units? x = some k) : (x == y) = true ↔ units? y = some k := by
  have hfinite : ∀ {z}, units? z = some k → exponent z ≠ 0xff := fun hz h => by
    cases (units?_of_infinite h).symm.trans hz
  have hnan : ∀ {z}, units? z = some k → z ≠ Float32.nan := by
    rintro _ hz rfl
    cases (show units? Float32.nan = none by decide +kernel).symm.trans hz
  rw [Float32.beq_iff_ne_nan_and_eq]
  constructor
  · rintro ⟨-, -, rfl | ⟨rfl, rfl⟩ | ⟨rfl, rfl⟩⟩
    · exact hx
    · exact (show units? (-0) = units? 0 by decide +kernel).trans hx
    · exact (show units? 0 = units? (-0) by decide +kernel).trans hx
  · intro hy
    refine ⟨hnan hx, hnan hy, ?_⟩
    have hunits := hx.trans hy.symm
    rw [units?_of_finite (hfinite hx), units?_of_finite (hfinite hy), Option.some.injEq, signed_eq_iff] at hunits
    obtain ⟨hsize, hsign | hzero⟩ := hunits
    · exact .inl (eq_of_parts hsign (size_eq_iff.mp hsize).1 (size_eq_iff.mp hsize).2)
    · rcases eq_zero_of_size hzero with rfl | rfl <;>
        rcases eq_zero_of_size (hsize.symm.trans hzero) with rfl | rfl <;> simp

end Prims.Single
