import Mathlib.Analysis.SpecialFunctions.Trigonometric.Bounds
import Mathlib.Data.Rat.Floor
import Mathlib.Tactic.NormNum
import Mathlib.Tactic.Positivity
import Prims.Profile.Cut
import Prims.Proofs.Hull.Difference
import Prims.Proofs.Plane.Polygon

/-!
# Profile — Wedge

What the wedge of a cut covers, when its angles are exact.  The sector of a cut is never more than a turn, and
the number of its steps keeps each of them at 67.5 degrees or below (`step_le`).  So the chord between two
consecutive directions passes beyond the corners of the unit square (`chord_far`, `chord_left`), and a point
of the square between the first and the last direction is in the slice of exactly one arc, with a rule for the
spokes between them (`winding_slice`).  Hence the polygon winds once about it (`turns_corners`), and encloses
what the sector has in common with the square.  Main statement: `cut?_covers`.
-/

namespace Prims.Profile

/-! ### The sector of a cut -/

section Angles

variable {α : Type} [Degrees α]

/-- The angle at which a cut begins, turned back by an offset. -/
def beginAngle (first : UInt16) (offset : α) : α := Quanta.profileBeginDegrees first - offset

/-- The angle at which a cut ends, turned back by an offset. -/
def endAngle (last : UInt16) (offset : α) : α := Quanta.profileEndDegrees last - offset

/-- Where the sector ends: where the cut does, or a turn before that when it is beyond the begin. -/
def sectorEnd (first last : UInt16) (offset : α) : α :=
  if Degrees.lt (beginAngle first offset) (endAngle last offset) then
    endAngle last offset - Degrees.ofNat 360
  else endAngle last offset

def sectorSweep (first last : UInt16) (offset : α) : α :=
  beginAngle first offset - sectorEnd first last offset

/-- The wedge of a cut by its sector. -/
theorem ofCut?_eq (first last : UInt16) (offset : α) : Wedge.ofCut? first last offset =
    if first = 0 ∧ last = 0 then none
    else if Degrees.le (sectorSweep first last offset) (Degrees.ofNat 0) then none
    else some ⟨beginAngle first offset, sectorEnd first last offset,
      Wedge.stepsFor (sectorSweep first last offset)⟩ := rfl

end Angles

/-! ### Slices of the plane -/

noncomputable section

open Plane

/-- The unit vector at an angle in degrees. -/
def direction (degrees : ℝ) : Plane := (Real.cos (degrees * Real.pi / 180), Real.sin (degrees * Real.pi / 180))

/-- The square that the outlines lie in. -/
def unitSquare : Set Plane := {p | |p.1| ≤ 1 / (2 : ℕ) ∧ |p.2| ≤ 1 / (2 : ℕ)}

variable {a b t r θ : ℝ} {p : Plane}

theorem area_direction (a b r s : ℝ) : area 0 (r • direction a) (s • direction b) =
    r * s * Real.sin ((b - a) * Real.pi / 180) := by
  have hangle : (b - a) * Real.pi / 180 = b * Real.pi / 180 - a * Real.pi / 180 := by ring
  rw [hangle, Real.sin_sub]
  simp only [area, direction, Prod.smul_fst, Prod.smul_snd, Prod.fst_zero, Prod.snd_zero, smul_eq_mul]
  ring

/-- Directions that are 67.5 degrees apart or less have a positive cosine between them, -/
theorem cos_pos_of_le (h₀ : 0 ≤ a - b) (h₁ : a - b ≤ 67.5) : 0 < Real.cos ((a - b) * Real.pi / 180) := by
  have hpi := Real.pi_pos
  refine Real.cos_pos_of_mem_Ioo ⟨?_, ?_⟩ <;> nlinarith

/-- and a sine that is not negative, -/
theorem sin_nonneg_of_le (h₀ : 0 ≤ a - b) (h₁ : a - b ≤ 67.5) : 0 ≤ Real.sin ((a - b) * Real.pi / 180) := by
  have hpi := Real.pi_pos
  refine Real.sin_nonneg_of_nonneg_of_le_pi (by positivity) ?_
  nlinarith

/-- and positive when they differ. -/
theorem sin_pos_of_le (h₀ : 0 < a - b) (h₁ : a - b ≤ 67.5) : 0 < Real.sin ((a - b) * Real.pi / 180) := by
  have hpi := Real.pi_pos
  refine Real.sin_pos_of_pos_of_lt_pi (by positivity) ?_
  nlinarith

/-- **The chord between two directions** stays away from the origin. -/
theorem chord_far (h₀ : 0 ≤ a - b) (h₁ : a - b ≤ 67.5) (hp : p ∈ segment ℝ (direction a) (direction b)) :
    1 / 2 < p.1 ^ 2 + p.2 ^ 2 := by
  obtain ⟨s, t, hs, ht, hst, rfl⟩ := hp
  have hcos := cos_pos_of_le h₀ h₁
  have hangle : (a - b) * Real.pi / 180 = a * Real.pi / 180 - b * Real.pi / 180 := by ring
  have hone := Real.cos_le_one ((a - b) * Real.pi / 180)
  have hsize : (s • direction a + t • direction b).1 ^ 2 + (s • direction a + t • direction b).2 ^ 2 =
      s ^ 2 + t ^ 2 + 2 * s * t * Real.cos ((a - b) * Real.pi / 180) := by
    rw [hangle, Real.cos_sub]
    simp only [direction, Prod.fst_add, Prod.snd_add, Prod.smul_fst, Prod.smul_snd, smul_eq_mul]
    have ha := Real.sin_sq_add_cos_sq (a * Real.pi / 180)
    have hb := Real.sin_sq_add_cos_sq (b * Real.pi / 180)
    linear_combination s ^ 2 * ha + t ^ 2 * hb
  rw [hsize]
  obtain rfl : t = 1 - s := by linarith
  nlinarith [sq_nonneg (s - 1 / 2)]

/-- A direction between two others as their combination. -/
theorem direction_between (a b θ : ℝ) : Real.sin ((a - b) * Real.pi / 180) • direction θ =
    Real.sin ((θ - b) * Real.pi / 180) • direction a + Real.sin ((a - θ) * Real.pi / 180) • direction b := by
  have hangle (x y : ℝ) : (x - y) * Real.pi / 180 = x * Real.pi / 180 - y * Real.pi / 180 := by ring
  rw [hangle a b, hangle θ b, hangle a θ, Real.sin_sub, Real.sin_sub, Real.sin_sub]
  ext
  · simp only [direction, Prod.smul_fst, Prod.fst_add, smul_eq_mul]
    ring
  · simp only [direction, Prod.smul_snd, Prod.snd_add, smul_eq_mul]
    ring

theorem sq_smul_direction (r θ : ℝ) : (r • direction θ).1 ^ 2 + (r • direction θ).2 ^ 2 = r ^ 2 := by
  simp only [direction, Prod.smul_fst, Prod.smul_snd, smul_eq_mul]
  linear_combination r ^ 2 * Real.sin_sq_add_cos_sq (θ * Real.pi / 180)

/-- The corners of the unit square are the farthest from the origin. -/
theorem sq_le_of_mem_unitSquare (hp : p ∈ unitSquare) : p.1 ^ 2 + p.2 ^ 2 ≤ 1 / 2 := by
  have h₁ := sq_le_sq' (abs_le.mp hp.1).1 (abs_le.mp hp.1).2
  have h₂ := sq_le_sq' (abs_le.mp hp.2).1 (abs_le.mp hp.2).2
  push_cast at h₁ h₂
  linarith

/-- **The chord passes beyond** the points between its directions that are in the unit square. -/
theorem chord_left (h₀ : 0 < a - b) (h₁ : a - b ≤ 67.5) (hb : b ≤ θ) (ha : θ ≤ a)
    (hp : r • direction θ ∈ unitSquare) : 0 < area (direction b) (direction a) (r • direction θ) := by
  have hsin := sin_pos_of_le h₀ h₁
  have hleft := sin_nonneg_of_le (a := θ) (b := b) (by linarith) (by linarith)
  have hright := sin_nonneg_of_le (a := a) (b := θ) (by linarith) (by linarith)
  have hbetween := direction_between a b θ
  have harea := area_direction b a 1 1
  have hlower := area_direction b θ 1 r
  have hupper := area_direction θ a r 1
  simp only [one_smul, one_mul, mul_one] at harea hlower hupper
  set S := Real.sin ((a - b) * Real.pi / 180)
  set s₁ := Real.sin ((θ - b) * Real.pi / 180)
  set s₂ := Real.sin ((a - θ) * Real.pi / 180)
  have hsides := area_add 0 (direction b) (direction a) (r • direction θ)
  have hturned : area (direction a) 0 (r • direction θ) = r * s₂ := by
    rw [← hupper, ← area_rotate, ← area_rotate]
  rw [harea, hlower, hturned] at hsides
  by_contra hbeyond
  have hbeyond : S ≤ r * (s₁ + s₂) := by linarith [not_lt.mp hbeyond]
  have hsum : 0 < s₁ + s₂ := by
    refine (add_nonneg hleft hright).lt_of_ne fun hzero => ?_
    rw [← hzero, mul_zero] at hbeyond
    exact hsin.not_ge hbeyond
  -- the chord is crossed on the way to the point, which is too near to the origin for that
  have hcross : (S / (s₁ + s₂)) • direction θ ∈ segment ℝ (direction a) (direction b) := by
    refine ⟨s₁ / (s₁ + s₂), s₂ / (s₁ + s₂), by positivity, by positivity, ?_, ?_⟩
    · rw [← add_div, div_self hsum.ne']
    · rw [div_eq_inv_mul, div_eq_inv_mul, div_eq_inv_mul, mul_smul, mul_smul, mul_smul, hbetween, smul_add]
  have hfar := chord_far h₀.le h₁ hcross
  have hnear := sq_le_of_mem_unitSquare hp
  rw [sq_smul_direction] at hfar hnear
  have hless : S / (s₁ + s₂) ≤ r := (div_le_iff₀ hsum).mpr hbeyond
  have := pow_le_pow_left₀ (by positivity) hless 2
  linarith

/-- Beyond half a turn the sine is negative, and so it is on the way back from there over a smaller angle. -/
theorem sin_neg_of_beyond {δ φ : ℝ} (hδ : 0 < δ) (hφ : δ < φ) (hturn : φ < 360)
    (hsin : 0 ≤ Real.sin (φ * Real.pi / 180)) : Real.sin ((δ - φ) * Real.pi / 180) < 0 := by
  have hpi := Real.pi_pos
  have hhalf : φ ≤ 180 := by
    by_contra hlt
    have hneg : Real.sin (φ * Real.pi / 180 - 2 * Real.pi) < 0 :=
      Real.sin_neg_of_neg_of_neg_pi_lt (by nlinarith) (by nlinarith)
    rw [Real.sin_sub_two_pi] at hneg
    exact hneg.not_ge hsin
  exact Real.sin_neg_of_neg_of_neg_pi_lt (by nlinarith) (by nlinarith)

open Classical in
/-- The direction is ahead of `θ` on the way up, or is at `θ` and leads down to the origin. -/
def ahead (θ x : ℝ) : ℝ := if θ < x ∨ (θ = x ∧ Descends (direction θ) 0) then 1 else 0

theorem ahead_of_lt {x : ℝ} (h : θ < x) : ahead θ x = 1 := if_pos (.inl h)

theorem ahead_of_gt {x : ℝ} (h : x < θ) : ahead θ x = 0 :=
  if_neg fun k => k.elim (fun k => h.not_gt k) fun k => h.ne' k.1

theorem direction_ne_zero (θ : ℝ) : direction θ ≠ 0 := by
  intro h
  have hone := sq_smul_direction 1 θ
  rw [one_smul, h] at hone
  norm_num at hone

theorem descends_or_ascends (θ : ℝ) : Descends (direction θ) 0 ∨ Descends 0 (direction θ) := by
  refine (descends_or_turned (direction_ne_zero θ)).imp id fun h => ?_
  simpa [Descends, eq_comm] using h

/-- **A slice winds about a point** when the point is between its directions, or on the spoke of one of them
that leads down in the slice. -/
theorem winding_slice {start finish : ℝ} (h₀ : 0 < a - b) (h₁ : a - b ≤ 67.5) (hb : finish ≤ b) (ha : a ≤ start)
    (hturn : start - finish ≤ 360) (hfinish : finish < θ) (hstart : θ < start) (hr : 0 < r)
    (hp : r • direction θ ∈ unitSquare) :
    winding (r • direction θ) 0 (direction b) (direction a) = ahead θ a - ahead θ b := by
  have hcounter : 0 < area 0 (direction b) (direction a) := by
    have harea := area_direction b a 1 1
    simp only [one_smul, one_mul] at harea
    exact harea ▸ sin_pos_of_le h₀ h₁
  have hlower : area 0 (direction b) (r • direction θ) = r * Real.sin ((θ - b) * Real.pi / 180) := by
    simpa only [one_smul, one_mul] using area_direction b θ 1 r
  have hupper : area (direction a) 0 (r • direction θ) = r * Real.sin ((a - θ) * Real.pi / 180) := by
    rw [area_rotate, area_rotate]
    simpa only [one_smul, mul_one] using area_direction θ a r 1
  -- outside of the slice one of the spokes has the point on its right
  have houtside (h : ¬(0 ≤ Real.sin ((θ - b) * Real.pi / 180) ∧ 0 ≤ Real.sin ((a - θ) * Real.pi / 180))) :
      winding (r • direction θ) 0 (direction b) (direction a) = 0 := by
    refine (winding_eq_zero_or_one hcounter _).resolve_right fun hone => h ?_
    obtain ⟨hnonneg, -, hnonneg'⟩ := areas_of_winding hcounter hone
    rw [hlower] at hnonneg
    rw [hupper] at hnonneg'
    exact ⟨nonneg_of_mul_nonneg_right hnonneg hr, nonneg_of_mul_nonneg_right hnonneg' hr⟩
  have hsin {x y : ℝ} (hxy : x < y) (hle : y - x ≤ a - b) : 0 < r * Real.sin ((y - x) * Real.pi / 180) :=
    mul_pos hr (sin_pos_of_le (by linarith) (by linarith))
  have hsame : r * Real.sin ((θ - θ) * Real.pi / 180) = 0 := by
    rw [sub_self, zero_mul, zero_div, Real.sin_zero, mul_zero]
  rcases lt_trichotomy θ b with hθb | rfl | hθb
  · rw [ahead_of_lt hθb, ahead_of_lt (by linarith : θ < a), sub_self]
    refine houtside fun ⟨hback, hforth⟩ => ?_
    have hneg := sin_neg_of_beyond h₀ (by linarith : a - b < a - θ) (by linarith) hforth
    rw [show a - b - (a - θ) = θ - b by ring] at hneg
    exact hneg.not_ge hback
  · have hleft := chord_left h₀ h₁ le_rfl (by linarith) hp
    have hzero : area 0 (direction θ) (r • direction θ) = 0 := hlower.trans hsame
    have hpos := hupper ▸ hsin (by linarith : θ < a) le_rfl
    rw [ahead_of_lt (by linarith : θ < a), ahead]
    split
    next h =>
      have hdescends := (h.resolve_left (lt_irrefl θ)).2
      rw [winding_side_eq_zero hcounter hdescends hzero hleft hpos, sub_self]
    next h =>
      have hascends := (descends_or_ascends θ).resolve_left fun k => h (.inr ⟨rfl, k⟩)
      rw [winding_side hcounter hascends hzero hleft hpos, sub_zero]
  · rw [ahead_of_gt hθb, sub_zero]
    rcases lt_trichotomy θ a with hθa | rfl | hθa
    · rw [ahead_of_lt hθa]
      exact winding_of_areas hcounter (hlower ▸ hsin hθb (by linarith)) (chord_left h₀ h₁ hθb.le hθa.le hp)
        (hupper ▸ hsin hθa (by linarith))
    · have hleft := chord_left h₀ h₁ hθb.le le_rfl hp
      have hzero : area (direction θ) 0 (r • direction θ) = 0 := hupper.trans hsame
      have hpos := hlower ▸ hsin hθb le_rfl
      have hcounter' : 0 < area (direction θ) 0 (direction b) := by rwa [← area_rotate]
      rw [← winding_rotate, ← winding_rotate, ahead]
      split
      next h =>
        exact winding_side hcounter' (h.resolve_left (lt_irrefl θ)).2 hzero hpos hleft
      next h =>
        have hascends := (descends_or_ascends θ).resolve_left fun k => h (.inr ⟨rfl, k⟩)
        exact winding_side_eq_zero hcounter' hascends hzero hpos hleft
    · rw [ahead_of_gt hθa]
      refine houtside fun ⟨hback, hforth⟩ => ?_
      have hneg := sin_neg_of_beyond h₀ (by linarith : a - b < θ - b) (by linarith) hback
      rw [show a - b - (θ - b) = a - θ by ring] at hneg
      exact hneg.not_ge hforth

/-! ### Exact sectors -/

variable {first last : UInt16} {offset sweep : ℚ} {w : Wedge ℚ}

theorem beginAngle_eq (first : UInt16) (offset : ℚ) :
    beginAngle first offset = first.toNat * 360 / 50000 - offset := by
  show (first.toNat : ℚ) / (50000 : ℕ) * (360 : ℕ) - offset = _
  push_cast
  ring

theorem endAngle_eq (last : UInt16) (offset : ℚ) :
    endAngle last offset = 360 - last.toNat * 360 / 50000 - offset := by
  show ((360 : ℕ) : ℚ) - last.toNat / (50000 : ℕ) * (360 : ℕ) - offset = _
  push_cast
  ring

theorem sectorEnd_eq (first last : UInt16) (offset : ℚ) : sectorEnd first last offset =
    if beginAngle first offset < endAngle last offset then endAngle last offset - 360
    else endAngle last offset :=
  if_congr decide_eq_true_iff rfl rfl

/-- The sector ends where the cut does, up to a turn. -/
theorem exists_sectorEnd (first last : UInt16) (offset : ℚ) :
    ∃ k : ℤ, sectorEnd first last offset = endAngle last offset - 360 * k := by
  rw [sectorEnd_eq]
  split
  · exact ⟨1, by push_cast; ring⟩
  · exact ⟨0, by push_cast; ring⟩

/-- **A sector is a turn at most.** -/
theorem sectorSweep_le (hfirst : first.toNat ≤ 50000) (hlast : last.toNat ≤ 50000) :
    sectorSweep first last offset ≤ 360 := by
  have hfirst : (first.toNat : ℚ) ≤ 50000 := by exact_mod_cast hfirst
  have hlast : (last.toNat : ℚ) ≤ 50000 := by exact_mod_cast hlast
  rw [sectorSweep, sectorEnd_eq]
  split
  next hlt => linarith
  next hle =>
    rw [beginAngle_eq, endAngle_eq]
    linarith

/-- A wedge is that of its sector, which is not empty. -/
theorem ofCut?_eq_some (hw : Wedge.ofCut? first last offset = some w) : 0 < sectorSweep first last offset ∧
    w = ⟨beginAngle first offset, sectorEnd first last offset,
      Wedge.stepsFor (sectorSweep first last offset)⟩ := by
  rw [ofCut?_eq] at hw
  split at hw
  · cases hw
  · split at hw
    · cases hw
    next hpos => exact ⟨not_le.mp fun h => hpos (decide_eq_true h), (Option.some.inj hw).symm⟩

/-! ### Steps -/

theorem toNat_truncate (h : 0 ≤ sweep) : (Degrees.truncate sweep).toNat = ⌊sweep⌋₊ := by
  show (sweep.num.tdiv sweep.den).toNat = _
  rw [Int.tdiv_eq_ediv_of_nonneg (Rat.num_nonneg.mpr h), ← Rat.floor_def', Int.floor_toNat]

theorem stepsFor_eq (h : 0 ≤ sweep) : Wedge.stepsFor sweep = max 1 ⌊sweep / 45 + 1 / 2⌋₊ := by
  show max 1 (Degrees.truncate (sweep / (45 : ℕ) + (1 : ℕ) / (2 : ℕ))).toNat = _
  push_cast
  rw [toNat_truncate (by positivity)]

theorem one_le_stepsFor (sweep : ℚ) : 1 ≤ Wedge.stepsFor sweep := le_max_left _ _

theorem stepsFor_le (h : 0 ≤ sweep) (hle : sweep ≤ 360) : Wedge.stepsFor sweep ≤ 8 := by
  rw [stepsFor_eq h]
  refine max_le (by decide) (Nat.lt_succ_iff.mp ((Nat.floor_lt (by positivity)).mpr ?_))
  push_cast
  linarith

/-- **No step is longer** than one and a half times 45 degrees. -/
theorem step_le (h : 0 ≤ sweep) : sweep / Wedge.stepsFor sweep ≤ 67.5 := by
  have hone : (1 : ℚ) ≤ Wedge.stepsFor sweep := by exact_mod_cast one_le_stepsFor sweep
  have hfloor : sweep / 45 + 1 / 2 < Wedge.stepsFor sweep + 1 := by
    refine (Nat.lt_floor_add_one _).trans_le (add_le_add_left ?_ 1)
    rw [stepsFor_eq h]
    exact_mod_cast le_max_right _ _
  rw [div_le_iff₀ (by linarith)]
  linarith

/-! ### Directions -/

namespace Wedge

/-- The pairs of consecutive angles. -/
def arcs (w : Wedge ℚ) : List (ℚ × ℚ) := w.angles.zip w.angles.tail

/-- The points in a direction from the finish to the start. -/
def sector (w : Wedge ℚ) : Set Plane :=
  {p | ∃ r θ : ℝ, 0 ≤ r ∧ w.finish ≤ θ ∧ θ ≤ w.start ∧ p = r • direction θ}

/-- The angles are in equal steps. -/
theorem angles_eq (h : w.steps ≠ 0) : w.angles =
    (List.range (w.steps + 1)).map fun i : ℕ => w.start - i * ((w.start - w.finish) / w.steps) := by
  have hne : (w.steps : ℚ) ≠ 0 := by exact_mod_cast h
  rw [List.range_succ, List.map_append]
  refine congrArg₂ (· ++ ·) rfl (congrArg (fun a => [a]) ?_)
  field_simp
  ring

theorem zip_tail_map_range (f : ℕ → ℚ) (n : ℕ) :
    ((List.range (n + 1)).map f).zip ((List.range (n + 1)).map f).tail =
      (List.range n).map fun i => (f i, f (i + 1)) := by
  refine List.ext_getElem (by simp) fun i h₁ h₂ => ?_
  simp

theorem step_of_mem_arcs (h : w.steps ≠ 0) {e : ℚ × ℚ} (he : e ∈ w.arcs) :
    e.1 - e.2 = (w.start - w.finish) / w.steps := by
  rw [arcs, angles_eq h, zip_tail_map_range] at he
  obtain ⟨i, -, rfl⟩ := List.mem_map.mp he
  push_cast
  ring

theorem bounds_of_mem_arcs (h : w.steps ≠ 0) (hle : w.finish ≤ w.start) {e : ℚ × ℚ} (he : e ∈ w.arcs) :
    w.finish ≤ e.2 ∧ e.1 ≤ w.start := by
  have hpos : (0 : ℚ) < w.steps := by exact_mod_cast Nat.pos_of_ne_zero h
  rw [arcs, angles_eq h, zip_tail_map_range] at he
  obtain ⟨i, hi, rfl⟩ := List.mem_map.mp he
  have hcount : ((i + 1 : ℕ) : ℚ) ≤ w.steps := by exact_mod_cast List.mem_range.mp hi
  have hstep : 0 ≤ (w.start - w.finish) / w.steps := div_nonneg (sub_nonneg.mpr hle) hpos.le
  have hall : w.steps * ((w.start - w.finish) / w.steps) = w.start - w.finish := by field_simp
  have hsteps := mul_le_mul_of_nonneg_right hcount hstep
  have hfirst := mul_nonneg (Nat.cast_nonneg (α := ℚ) i) hstep
  constructor <;> linarith

theorem getLast?_angles (w : Wedge ℚ) : w.angles.getLast? = some w.finish := List.getLast?_concat

theorem length_angles (w : Wedge ℚ) : w.angles.length = w.steps + 1 := by
  show (List.map _ _ ++ [w.finish]).length = _
  rw [List.length_append, List.length_map, List.length_range, List.length_singleton]

theorem head?_angles (h : w.steps ≠ 0) : w.angles.head? = some w.start := by
  rw [angles_eq h, List.range_succ_eq_map, List.map_cons, List.head?_cons, Nat.cast_zero, zero_mul, sub_zero]

/-- The angles from the first to the last. -/
theorem exists_angles_eq (h : w.steps ≠ 0) : ∃ l, w.angles = w.start :: l ∧ l.getLastD w.start = w.finish := by
  have hhead := head?_angles h
  have hlast := getLast?_angles w
  cases hangles : w.angles with
  | nil => rw [hangles] at hhead; cases hhead
  | cons a l =>
    rw [hangles] at hhead hlast
    obtain rfl := Option.some.inj hhead
    rw [List.getLast?_cons, ← List.getLastD_eq_getLast?, Option.some.injEq] at hlast
    exact ⟨l, rfl, hlast⟩

/-- What is gained from each angle to the next adds up. -/
theorem sum_zip_sub (f : ℚ → ℝ) (l : List ℚ) (a : ℚ) :
    (((a :: l).zip l).map fun e => f e.1 - f e.2).sum = f a - f (l.getLastD a) := by
  induction l generalizing a with
  | nil => simp
  | cons b l ih =>
    rw [List.zip_cons_cons, List.map_cons, List.sum_cons, ih, List.getLastD_cons]
    ring

/-- The steps of a wedge: some, and none of them too long. -/
structure Steady (w : Wedge ℚ) : Prop where
  steps : w.steps ≠ 0
  pos   : w.finish < w.start
  turn  : w.start - w.finish ≤ 360
  short : (w.start - w.finish) / w.steps ≤ 67.5

namespace Steady

variable (h : w.Steady)

include h

/-- The steps as reals. -/
theorem of_mem_arcs {e : ℚ × ℚ} (he : e ∈ w.arcs) : (0 : ℝ) < e.1 - e.2 ∧ (e.1 - e.2 : ℝ) ≤ 67.5 := by
  have hstep := step_of_mem_arcs h.steps he
  have hcount : (0 : ℚ) < w.steps := by exact_mod_cast Nat.pos_of_ne_zero h.steps
  have h₀ : 0 < e.1 - e.2 := hstep ▸ div_pos (sub_pos.mpr h.pos) hcount
  have h₁ : e.1 - e.2 ≤ 135 / 2 := hstep ▸ h.short.trans (by norm_num)
  constructor
  · exact_mod_cast h₀
  · have : ((e.1 - e.2 : ℚ) : ℝ) ≤ ((135 / 2 : ℚ) : ℝ) := Rat.cast_le.mpr h₁
    push_cast at this
    linarith

/-- **The polygon winds once**, clockwise, about the points strictly between its first and its last direction
that are in the unit square. -/
theorem turns_corners (hfinish : w.finish < θ) (hstart : θ < w.start) (hr : 0 < r)
    (hp : r • direction θ ∈ unitSquare) :
    turns (sides (w.corners 0 fun a => direction a)) (r • direction θ) = -1 := by
  obtain ⟨l, hangles, hlast⟩ := exists_angles_eq h.steps
  have hturn : (w.start - w.finish : ℝ) ≤ 360 := by exact_mod_cast h.turn
  have harc : ∀ e ∈ (w.start :: l).zip l, winding (r • direction θ) 0 (direction e.1) (direction e.2) =
      -ahead θ e.1 - -ahead θ e.2 := by
    intro e he
    have he : e ∈ w.arcs := by rwa [arcs, hangles]
    obtain ⟨h₀, h₁⟩ := h.of_mem_arcs he
    obtain ⟨hb, ha⟩ := bounds_of_mem_arcs h.steps h.pos.le he
    rw [winding_swap, winding_slice h₀ h₁ (Rat.cast_le.mpr hb) (Rat.cast_le.mpr ha) hturn hfinish hstart hr hp]
    ring
  have hzip : (direction w.start :: l.map fun a : ℚ => direction a).zip (l.map fun a : ℚ => direction a) =
      ((w.start :: l).zip l).map (Prod.map (fun a : ℚ => direction a) fun a : ℚ => direction a) := by
    show ((w.start :: l).map fun a : ℚ => direction a).zip (l.map fun a : ℚ => direction a) = _
    exact List.zip_map
  rw [corners, hangles, List.map_cons, turns_fan, hzip, List.map_map]
  refine (congrArg List.sum (List.map_congr_left harc)).trans ?_
  rw [sum_zip_sub fun a => -ahead θ a, hlast, ahead_of_lt hstart, ahead_of_gt hfinish]
  norm_num

/-- **The polygon encloses** what the sector has in common with the unit square. -/
theorem sector_subset : w.sector ∩ unitSquare ⊆ enclosed (w.corners 0 fun a => direction a) := by
  rintro p ⟨⟨r, θ, hr, hfinish, hstart, rfl⟩, hp⟩
  obtain ⟨l, hangles, hlast⟩ := exists_angles_eq h.steps
  have hone : r ≤ 1 := by
    have hnear := sq_le_of_mem_unitSquare hp
    rw [sq_smul_direction] at hnear
    nlinarith
  have hspoke : r • direction θ ∈ segment ℝ 0 (direction θ) :=
    ⟨1 - r, r, sub_nonneg.mpr hone, hr, sub_add_cancel 1 r, by rw [smul_zero, zero_add]⟩
  have hcorners : w.corners (0 : Plane) (fun a => direction a) =
      0 :: direction w.start :: l.map fun a : ℚ => direction a := by
    rw [corners, hangles, List.map_cons]
  rcases hr.eq_or_lt with rfl | hr
  · rw [zero_smul, hcorners]
    exact .inl ⟨_, List.mem_cons_self, left_mem_segment ..⟩
  rcases hstart.eq_or_lt with rfl | hstart
  · rw [hcorners]
    exact .inl ⟨_, List.mem_cons_self, hspoke⟩
  rcases hfinish.eq_or_lt with rfl | hfinish
  · rw [hcorners]
    have hside := mem_sides_last 0 (direction w.start) (l.map fun a : ℚ => direction a)
    rw [List.getLastD_map, hlast] at hside
    exact .inl ⟨_, hside, segment_symm ℝ (0 : Plane) _ ▸ hspoke⟩
  · obtain ⟨k, hk, hodd⟩ := exists_turns (sides (w.corners 0 fun a => direction a)) (r • direction θ)
    rw [h.turns_corners hfinish hstart hr hp] at hk
    have hk : k = -1 := by exact_mod_cast hk.symm
    exact .inr (hodd.mpr (hk ▸ by decide))

end Steady

end Wedge

/-! ### Coverage -/

/-- A cut within the range has a steady wedge. -/
theorem ofCut?_steady (hfirst : first ≤ cutQuanta) (hlast : last ≤ cutQuanta)
    (hw : Wedge.ofCut? first last offset = some w) : w.Steady := by
  obtain ⟨hpos, rfl⟩ := ofCut?_eq_some hw
  exact ⟨Nat.one_le_iff_ne_zero.mp (one_le_stepsFor _), sub_pos.mp hpos,
    sectorSweep_le (UInt16.le_iff_toNat_le.mp hfirst) (UInt16.le_iff_toNat_le.mp hlast), step_le hpos.le⟩

/-- The ring of a cut, in doubles. -/
theorem rings_of_cut? {offset : Float} {h : Hull} (hh : cut? first last offset = some h) :
    ∃ w : Wedge Float, Wedge.ofCut? first last offset = some w ∧
      h.rings = [Ring.unrepeated (w.corners Point.origin Wedge.heading)] := by
  obtain ⟨w, hw, rfl⟩ := Option.map_eq_some_iff.mp hh
  exact ⟨w, hw, (Hull.empty_addRing (List.cons_ne_nil _ _)).1⟩

/-- **The wedge of a cut covers its sector.**  It is one ring, of the origin and the unit vectors along its
angles.  With exact angles the sector begins and ends where the cut does and is a turn at most.  The angles
run clockwise in one to eight equal steps of 67.5 degrees or less; so every chord is farther from the origin
than the corners of the unit square, and the polygon of the origin and the exact unit vectors encloses all of
the square that is in the sector. -/
theorem cut?_covers (hfirst : first ≤ cutQuanta) (hlast : last ≤ cutQuanta) :
    (∀ (offset : Float) (h : Hull), cut? first last offset = some h →
      ∃ w : Wedge Float, Wedge.ofCut? first last offset = some w ∧
        h.rings = [Ring.unrepeated (Point.origin :: w.angles.map fun degrees =>
          let radians := degrees * 3.14159265358979323846 / 180
          ⟨Double.narrow radians.cos, Double.narrow radians.sin, 0⟩)]) ∧
    ∀ (offset : ℚ) (w : Wedge ℚ), Wedge.ofCut? first last offset = some w →
      let cutBegin : ℚ := first.toNat * 360 / 50000
      let cutEnd : ℚ := 360 - last.toNat * 360 / 50000
      let sweep := w.start - w.finish
      (w.start = cutBegin - offset ∧ ∃ k : ℤ, w.finish = cutEnd - offset - 360 * k) ∧
      (0 < sweep ∧ sweep ≤ 360 ∧ ∃ k : ℤ, sweep = cutBegin - cutEnd + 360 * k) ∧
      (1 ≤ w.steps ∧ w.steps ≤ 8) ∧
      (w.angles.length = w.steps + 1 ∧ w.angles.head? = some w.start ∧ w.angles.getLast? = some w.finish ∧
        ∀ e ∈ w.arcs, e.1 - e.2 = sweep / w.steps) ∧
      sweep / w.steps ≤ 67.5 ∧
      (∀ e ∈ w.arcs, ∀ p ∈ segment ℝ (direction e.1) (direction e.2), √2 / 2 < √(p.1 ^ 2 + p.2 ^ 2)) ∧
      w.sector ∩ unitSquare ⊆ enclosed (0 :: w.angles.map fun degrees : ℚ => direction degrees) := by
  refine ⟨fun offset h hh => rings_of_cut? hh, fun offset w hw => ?_⟩
  intro cutBegin cutEnd sweep
  have hsteady := ofCut?_steady hfirst hlast hw
  obtain ⟨hpos, rfl⟩ := ofCut?_eq_some hw
  obtain ⟨k, hk⟩ := exists_sectorEnd first last offset
  have hbegin := beginAngle_eq first offset
  have hend := endAngle_eq last offset
  refine ⟨⟨hbegin, k, hk.trans (by rw [hend])⟩, ⟨hpos, hsteady.turn, k, ?_⟩,
    ⟨one_le_stepsFor _, stepsFor_le hpos.le hsteady.turn⟩,
    ⟨Wedge.length_angles _, Wedge.head?_angles hsteady.steps, Wedge.getLast?_angles _,
      fun e he => Wedge.step_of_mem_arcs hsteady.steps he⟩, hsteady.short, ?_, hsteady.sector_subset⟩
  · show beginAngle first offset - sectorEnd first last offset = _
    rw [hk, hbegin, hend]
    ring
  · intro e he p hp
    obtain ⟨h₀, h₁⟩ := hsteady.of_mem_arcs he
    have hfar := chord_far h₀.le h₁ hp
    refine Real.lt_sqrt_of_sq_lt ?_
    rw [div_pow, Real.sq_sqrt zero_le_two]
    linarith

/-- A wedge across the negative `x` axis, of three steps. -/
theorem cut?_covers_wrapped : (12500 : UInt16) ≤ cutQuanta ∧ (5000 : UInt16) ≤ cutQuanta ∧
    (∃ (h : Hull) (w : Wedge Float), cut? 12500 5000 135 = some h ∧ w.steps = 3 ∧
      h.rings = [Ring.unrepeated (Point.origin :: w.angles.map fun degrees =>
        let radians := degrees * 3.14159265358979323846 / 180
        ⟨Double.narrow radians.cos, Double.narrow radians.sin, 0⟩)]) ∧
    ∃ w : Wedge ℚ, Wedge.ofCut? 12500 5000 (135 : ℚ) = some w ∧ w.start = -45 ∧ w.finish = -171 ∧ w.steps = 3 ∧
      w.sector ∩ unitSquare ⊆ enclosed (0 :: w.angles.map fun degrees : ℚ => direction degrees) := by
  have hfirst : (12500 : UInt16) ≤ cutQuanta := by decide
  have hlast : (5000 : UInt16) ≤ cutQuanta := by decide
  obtain ⟨hring, hexact⟩ := cut?_covers hfirst hlast
  refine ⟨hfirst, hlast, ?_, ?_⟩
  · have hdoubles : (Wedge.ofCut? 12500 5000 (135 : Float)).map (fun w => w.steps) = some 3 := by decide +kernel
    obtain ⟨v, hv, hsteps⟩ := Option.map_eq_some_iff.mp hdoubles
    have hcut : cut? 12500 5000 135 = some v.hull := congrArg (Option.map Wedge.hull) hv
    obtain ⟨w, hw, hrings⟩ := hring 135 _ hcut
    obtain rfl := Option.some.inj (hv.symm.trans hw)
    exact ⟨_, v, hcut, hsteps, hrings⟩
  · have hwedge : (Wedge.ofCut? 12500 5000 (135 : ℚ)).map (fun w => (w.start, w.finish, w.steps)) =
        some (-45, -171, 3) := by decide +kernel
    obtain ⟨w, hw, hparts⟩ := Option.map_eq_some_iff.mp hwedge
    obtain ⟨hstart, hfinish, hsteps⟩ : w.start = -45 ∧ w.finish = -171 ∧ w.steps = 3 := by simpa using hparts
    obtain ⟨-, -, -, -, -, -, hcovers⟩ := hexact 135 w hw
    exact ⟨w, hw, hstart, hfinish, hsteps, hcovers⟩

end

end Prims.Profile
