import Prims.Mesher.Extrusion
import Prims.Proofs.Number.Near
import Prims.Proofs.Profile.Wedge

/-!
# Profile — Cut range

When nothing is cut.  The angles at which a cut begins and ends are doubles that are rounded separately, but
they are within millionths of a degree of the exact ones (`begin_near`, `end_near`), and a quantum is seven
thousandths; so rounding does not disturb their order, unless the cut begins where it ends.  Only there the
roundings decide, and a cut of nothing can come out as a sliver or as a full turn.  Main statement:
`cut?_eq_none_iff`.
-/

noncomputable section

namespace Prims.Profile

open Machine

variable {n : ℕ} {x y : Float} {v w ε δ : ℝ} {first last : UInt16} {offset : Float}

/-! ### Angles -/

/-- A quantum of a cut in degrees. -/
def quantumDegrees : ℝ := 9 / 1250

theorem quanta_bounds (hn : n ≤ 50000) : 0 ≤ n * quantumDegrees ∧ n * quantumDegrees ≤ 360 := by
  have hcast : (n : ℝ) ≤ 50000 := by exact_mod_cast hn
  have hnonneg : (0 : ℝ) ≤ n := Nat.cast_nonneg n
  unfold quantumDegrees
  constructor <;> linarith

theorem ofNat_near (h : n < 2 ^ 23) : Near (Float.ofNat n) n 0 :=
  .exact (Double.real_ofNat h).1 (Double.real_ofNat h).2

/-- A multiple of the quantum, as it is computed. -/
theorem quanta_near (hn : n ≤ 50000) :
    Near (Float.ofNat n / Float.ofNat 50000 * Float.ofNat 360) (n * quantumDegrees) (1 / 10 ^ 6) := by
  have hcast : (n : ℝ) ≤ 50000 := by exact_mod_cast hn
  obtain ⟨hfinite, hreal⟩ := Double.real_ofNat (n := 50000) (by decide)
  push_cast at hreal
  have hη := (underflow_bounds (F := Float)).2
  have htiny : (1 : ℝ) / 2 ^ 150 ≤ 1 / 10 ^ 10 := by norm_num
  have hunit : |(n : ℝ) / 50000| ≤ 1 := by
    rw [abs_of_nonneg (by positivity)]
    linarith
  have hquotient : Near (Float.ofNat n / Float.ofNat 50000) (n / 50000) (2 / 10 ^ 10) := by
    have h := (ofNat_near (n := n) (by omega)).div hfinite (hreal ▸ by norm_num) (V := 1)
      (by rwa [hreal, zero_div, add_zero]) (by norm_num)
    rw [hreal, zero_div, zero_add, Double.roundoff_format] at h
    refine h.mono ?_
    have : (1 : ℝ) / 2 ^ 53 * 1 ≤ 1 / 10 ^ 10 := by norm_num
    linarith
  have hproduct := hquotient.mul (ofNat_near (n := 360) (by decide)) hunit (W := 360) (by norm_num)
    (by norm_num)
  have hvalue : (n : ℝ) / 50000 * (360 : ℕ) = n * quantumDegrees := by
    unfold quantumDegrees
    push_cast
    ring
  rw [hvalue, Double.roundoff_format] at hproduct
  refine hproduct.mono ?_
  have : ((1 : ℝ) + 2 / 10 ^ 10) * 0 + 2 / 10 ^ 10 * 360 + 1 / 2 ^ 53 * ((1 + 2 / 10 ^ 10) * (360 + 0)) ≤
      1 / 10 ^ 6 - 1 / 10 ^ 10 := by norm_num
  linarith

/-- A difference of angles of a few turns adds a millionth of a degree. -/
theorem sub_near (hx : Near x v ε) (hy : Near y w δ) (h : |v - w| ≤ 1500) (hle : ε + δ ≤ 1) :
    Near (x - y) (v - w) (ε + δ + 1 / 10 ^ 6) := by
  refine (hx.sub hy (V := 2000) (by linarith) (by norm_num)).mono ?_
  rw [Double.roundoff_format]
  have : (1 : ℝ) / 2 ^ 53 * 2000 ≤ 1 / 10 ^ 6 := by norm_num
  linarith

/-- The sign of a difference is exact. -/
theorem sub_le_zero_iff (hx : IsFinite x) (hy : IsFinite y) (h : |real x - real y| ≤ 2 ^ 127) :
    x - y ≤ Float.ofNat 0 ↔ x ≤ y := by
  obtain ⟨hzero, hreal⟩ := Double.real_ofNat (n := 0) (by decide)
  have hfinite := (sub_results hx hy).finite (h.trans Precise.le_ceiling)
  have herror := abs_le.mp (sub_error hfinite)
  rw [Double.roundoff_format] at herror
  rw [le_iff hfinite hzero, hreal, Nat.cast_zero, le_iff hx hy]
  rcases le_or_gt (real x) (real y) with hle | hlt
  · rw [abs_of_nonpos (by linarith)] at herror
    exact iff_of_true (by linarith) hle
  · rw [abs_of_pos (by linarith)] at herror
    exact iff_of_false (by linarith) (by linarith)

/-- An offset of a turn at most. -/
structure Offset (offset : Float) : Prop where
  finite : IsFinite offset
  le     : |real offset| ≤ 360

theorem Offset.near (h : Offset offset) : Near offset (real offset) 0 := .exact h.finite rfl

theorem Offset.ofNat (h : n ≤ 360) : Offset (Float.ofNat n) := by
  obtain ⟨hfinite, hreal⟩ := Double.real_ofNat (n := n) (by omega)
  refine ⟨hfinite, ?_⟩
  rw [hreal, abs_of_nonneg (Nat.cast_nonneg n)]
  exact_mod_cast h

section

variable (hfirst : first.toNat ≤ 50000) (hlast : last.toNat ≤ 50000) (ho : Offset offset)
include ho

include hfirst in
theorem begin_near :
    Near (beginAngle first offset) (first.toNat * quantumDegrees - real offset) (2 / 10 ^ 6) := by
  have hbounds := quanta_bounds hfirst
  have hle := abs_le.mp ho.le
  refine (sub_near (quanta_near hfirst) ho.near (abs_le.mpr ?_) (by norm_num)).mono (by norm_num)
  constructor <;> linarith

include hlast in
theorem end_near :
    Near (endAngle last offset) (360 - last.toNat * quantumDegrees - real offset) (3 / 10 ^ 6) := by
  have hbounds := quanta_bounds hlast
  have hle := abs_le.mp ho.le
  have hturn : Near (Quanta.profileEndDegrees last : Float) (360 - last.toNat * quantumDegrees) (2 / 10 ^ 6) := by
    have h360 : Near (Float.ofNat 360) 360 0 := ofNat_near (by decide)
    refine (sub_near h360 (quanta_near hlast) (abs_le.mpr ?_) (by norm_num)).mono (by norm_num)
    constructor <;> linarith
  refine (sub_near hturn ho.near (abs_le.mpr ?_) (by norm_num)).mono (by norm_num)
  constructor <;> linarith

/-! ### Begin and end -/

/-- The begin and the end of a cut come out as one angle. -/
def Meets (first last : UInt16) (offset : Float) : Prop :=
  beginAngle first offset ≤ endAngle last offset ∧ endAngle last offset ≤ beginAngle first offset

instance (first last : UInt16) (offset : Float) : Decidable (Meets first last offset) :=
  inferInstanceAs (Decidable (_ ∧ _))

include hfirst hlast in
/-- **Only what meets exactly can meet.** -/
theorem Meets.sum (h : Meets first last offset) : first.toNat + last.toNat = 50000 := by
  have hbegin := begin_near hfirst ho
  have hend := end_near hlast ho
  have hreal : real (beginAngle first offset) = real (endAngle last offset) :=
    le_antisymm ((le_iff hbegin.finite hend.finite).mp h.1) ((le_iff hend.finite hbegin.finite).mp h.2)
  have hbegin := abs_le.mp hbegin.error
  have hend := abs_le.mp hend.error
  have hquantum : quantumDegrees = 9 / 1250 := rfl
  rw [hquantum] at hbegin hend
  have habove : ((first.toNat + last.toNat : ℕ) : ℝ) < (50001 : ℕ) := by
    push_cast
    linarith
  have hbelow : ((49999 : ℕ) : ℝ) < (first.toNat + last.toNat : ℕ) := by
    push_cast
    linarith
  have habove := Nat.cast_lt.mp habove
  have hbelow := Nat.cast_lt.mp hbelow
  omega

include hfirst hlast in
/-- A sweep to an end that was turned back is positive. -/
theorem turned_pos (hsome : ¬ (first = 0 ∧ last = 0)) :
    ¬ beginAngle first offset - (endAngle last offset - Float.ofNat 360) ≤ Float.ofNat 0 := by
  obtain ⟨hzero, hreal⟩ := Double.real_ofNat (n := 0) (by decide)
  have hbegin := quanta_bounds hfirst
  have hend := quanta_bounds hlast
  have hle := abs_le.mp ho.le
  have h360 : Near (Float.ofNat 360) 360 0 := ofNat_near (by decide)
  have hturned := sub_near (end_near hlast ho) h360 (abs_le.mpr ⟨by linarith, by linarith⟩) (by norm_num)
  have hsweep := sub_near (begin_near hfirst ho) hturned (abs_le.mpr ⟨by linarith, by linarith⟩) (by norm_num)
  have hsum : 1 ≤ first.toNat + last.toNat := by
    by_contra h
    exact hsome ⟨UInt16.toNat_inj.mp (by omega : first.toNat = 0), UInt16.toNat_inj.mp (by omega : last.toNat = 0)⟩
  have hsum : (1 : ℝ) ≤ first.toNat + last.toNat := by exact_mod_cast hsum
  have herror := (abs_le.mp hsweep.error).1
  have hquantum : quantumDegrees = 9 / 1250 := rfl
  rw [le_iff hsweep.finite hzero, hreal, Nat.cast_zero]
  rw [hquantum] at herror
  linarith

include hfirst hlast in
/-- **A sector is empty** when the begin and the end of the cut come out as one angle, and only then. -/
theorem sectorSweep_le_zero_iff (hsome : ¬ (first = 0 ∧ last = 0)) :
    sectorSweep first last offset ≤ Float.ofNat 0 ↔ Meets first last offset := by
  have hbegin := begin_near hfirst ho
  have hend := end_near hlast ho
  by_cases hlt : beginAngle first offset < endAngle last offset
  · have hsweep : sectorSweep first last offset =
        beginAngle first offset - (endAngle last offset - Float.ofNat 360) :=
      congrArg (beginAngle first offset - ·) (if_pos (decide_eq_true hlt))
    rw [hsweep]
    refine iff_of_false (turned_pos hfirst hlast ho hsome) fun h => ?_
    rw [lt_iff hbegin.finite hend.finite] at hlt
    exact hlt.not_ge ((le_iff hend.finite hbegin.finite).mp h.2)
  · have hsweep : sectorSweep first last offset = beginAngle first offset - endAngle last offset :=
      congrArg (beginAngle first offset - ·) (if_neg fun h => hlt (of_decide_eq_true h))
    have hback : endAngle last offset ≤ beginAngle first offset := by
      rw [le_iff hend.finite hbegin.finite]
      rw [lt_iff hbegin.finite hend.finite] at hlt
      exact not_lt.mp hlt
    have hsize : |real (beginAngle first offset) - real (endAngle last offset)| ≤ 2 ^ 127 := by
      have h₁ := quanta_bounds hfirst
      have h₂ := quanta_bounds hlast
      have h₃ := abs_le.mp hbegin.error
      have h₄ := abs_le.mp hend.error
      refine le_trans (abs_le.mpr ⟨by linarith, by linarith⟩ : _ ≤ (800 : ℝ)) (by norm_num)
    rw [hsweep, sub_le_zero_iff hbegin.finite hend.finite hsize]
    exact (and_iff_left hback).symm

end

/-! ### Cuts of nothing -/

/-- **When nothing is cut.**  A cut within the range and turned back by nothing or by the offset of boxes
leaves the outline as it is when it has no quanta, or when its quanta add up to a full turn and its begin and
its end, rounded separately, come out as one angle.  Every other cut has a wedge. -/
theorem cut?_eq_none_iff (hfirst : first ≤ cutQuanta) (hlast : last ≤ cutQuanta)
    (ho : offset = 0 ∨ offset = Family.boxCutOffset) : cut? first last offset = none ↔
      (first = 0 ∧ last = 0) ∨
        (first.toNat + last.toNat = cutQuanta.toNat ∧ Meets first last offset) := by
  have hfirst : first.toNat ≤ 50000 := UInt16.le_iff_toNat_le.mp hfirst
  have hlast : last.toNat ≤ 50000 := UInt16.le_iff_toNat_le.mp hlast
  have ho : Offset offset := by
    rcases ho with rfl | rfl
    · exact Offset.ofNat (n := 0) (by decide)
    · exact Offset.ofNat (n := 135) (by decide)
  rw [cut?, Option.map_eq_none_iff, ofCut?_eq]
  split
  next hzero => exact iff_of_true rfl (.inl hzero)
  next hsome =>
    have hempty := sectorSweep_le_zero_iff hfirst hlast ho hsome
    have hsum : Meets first last offset → first.toNat + last.toNat = cutQuanta.toNat :=
      Meets.sum hfirst hlast ho
    rw [or_iff_right hsome, and_iff_right_of_imp hsum, ← hempty]
    split
    next hle => exact iff_of_true rfl (of_decide_eq_true hle)
    next hle => exact iff_of_false nofun fun h => hle (decide_eq_true h)

/-- A cut of half a turn from either end meets in the middle, for boxes too. -/
theorem cut?_eq_none_iff_halves : (25000 : UInt16) ≤ cutQuanta ∧ cut? 25000 25000 0 = none ∧
    cut? 25000 25000 Family.boxCutOffset = none := by
  refine ⟨by decide, ?_, ?_⟩
  · exact (cut?_eq_none_iff (by decide) (by decide) (.inl rfl)).mpr (.inr ⟨by decide, by decide +kernel⟩)
  · exact (cut?_eq_none_iff (by decide) (by decide) (.inr rfl)).mpr (.inr ⟨by decide, by decide +kernel⟩)

/-- A cut that begins at the first quantum and ends there comes out as a turn less a sliver, of eight steps. -/
theorem cut_meeting_at_one : (1 : UInt16) ≤ cutQuanta ∧ (49999 : UInt16) ≤ cutQuanta ∧
    (1 : UInt16).toNat + (49999 : UInt16).toNat = cutQuanta.toNat ∧
    (Wedge.ofCut? 1 49999 (0 : Float)).map Wedge.steps = some 8 ∧
    ¬ (cut? 1 49999 0 = none ↔ ((1 : UInt16) = 0 ∧ (49999 : UInt16) = 0) ∨
      (1 : UInt16).toNat + (49999 : UInt16).toNat = cutQuanta.toNat) := by
  have hsteps : (Wedge.ofCut? 1 49999 (0 : Float)).map Wedge.steps = some 8 := by decide +kernel
  refine ⟨by decide, by decide, by decide, hsteps, fun h => ?_⟩
  have hnone := h.mpr (.inr (by decide))
  rw [cut?, Option.map_eq_none_iff] at hnone
  rw [hnone] at hsteps
  cases hsteps

end Prims.Profile

end
