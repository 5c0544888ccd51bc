import Prims.Proofs.Plane.Winding

/-!
# Plane — Segment

How the crossings of a ray change when its start moves along a segment.  An edge enters or leaves the
strip between the first and the last ray through one of the two rays, through the segment, or by ending
in it; `meeting p q a b` is what is left for the segment, so that it adds up over closed polygons to the
change of the crossings.  It is zero when the segment does not meet the edge
(`meeting_eq_zero`).
-/

noncomputable section

namespace Prims.Plane

/-- How often the segment from `p` to `q` passes the edge from `a` to `b`, from its left to its right. -/
def meeting (p q a b : Plane) : ℝ :=
  crossing p a b - crossing q a b - crossing (-a) (-p) (-q) + crossing (-b) (-p) (-q)

variable {a b p q x : Plane}

theorem meeting_swap (p q a b : Plane) : meeting p q b a = -meeting p q a b := by
  unfold meeting
  rw [crossing_swap p a b, crossing_swap q a b]
  ring

/-- Segment and edge may change places, after half a turn of the plane. -/
theorem meeting_turned (p q a b : Plane) : meeting (-a) (-b) (-p) (-q) = -meeting p q a b := by
  unfold meeting
  rw [neg_neg, neg_neg, neg_neg, neg_neg]
  ring

/-- About a triangle the segment passes as often as its ends differ in being wound about. -/
theorem meeting_triangle (p q a b c : Plane) : meeting p q a b + meeting p q b c + meeting p q c a =
    winding p a b c - winding q a b c := by
  unfold meeting winding
  ring

theorem crossing_cases (q a b : Plane) :
    crossing q a b = 0 ∨ crossing q a b = 1 ∨ crossing q a b = -1 := by
  unfold crossing
  split_ifs
  · exact .inr (.inl rfl)
  · exact .inr (.inr rfl)
  · exact .inl rfl

/-! ### Segments that do not meet -/

/-- A point `x` of the line, seen from two points beside it. -/
theorem area_beside (a b p q : Plane) (hx : area a b x = 0) : (b.2 - a.2) * area p q x =
    (p.2 - x.2) * area a b q + (x.2 - q.2) * area a b p := by
  unfold area at *
  linear_combination (q.2 - p.2) * hx

open Classical in
/-- Beside a rising line, on its left, the segment has a point of the line on its right whenever it has
it between its ends in height. -/
theorem crossing_rising (hab : a.2 < b.2) (hp : 0 < area a b p) (hq : 0 < area a b q)
    (hx : area a b x = 0) : crossing (-x) (-p) (-q) =
      (if x.2 ≤ p.2 then 1 else 0) - if x.2 ≤ q.2 then 1 else 0 := by
  have hbeside := area_beside a b p q hx
  have hd := sub_pos.mpr hab
  rcases le_or_gt x.2 p.2 with hxp | hxp <;> rcases le_or_gt x.2 q.2 with hxq | hxq
  · rw [crossing_below (neg_le_neg hxp) (neg_le_neg hxq), if_pos hxp, if_pos hxq, sub_self]
  · rw [crossing_up (neg_le_neg hxp) (neg_lt_neg hxq), if_pos hxp, if_neg hxq.not_ge, sub_zero]
    rw [area_neg]
    have := mul_nonneg (sub_nonneg.mpr hxp) hq.le
    have := mul_pos (sub_pos.mpr hxq) hp
    exact pos_of_mul_pos_right (by linarith) hd.le
  · rw [crossing_down (neg_lt_neg hxp) (neg_le_neg hxq), if_neg hxp.not_ge, if_pos hxq, zero_sub]
    rw [area_neg]
    have := mul_neg_of_neg_of_pos (sub_neg.mpr hxp) hq
    have := mul_nonpos_of_nonpos_of_nonneg (sub_nonpos.mpr hxq) hp.le
    exact neg_of_mul_neg_right (by linarith) hd.le
  · rw [crossing_above (neg_lt_neg hxp) (neg_lt_neg hxq), if_neg hxp.not_ge, if_neg hxq.not_ge,
      sub_self]

/-- Beside a falling line, on its left, the segment has no point of the line on its right. -/
theorem crossing_falling (hab : b.2 < a.2) (hp : 0 < area a b p) (hq : 0 < area a b q)
    (hx : area a b x = 0) : crossing (-x) (-p) (-q) = 0 := by
  have hbeside := area_beside a b p q hx
  have hd := sub_neg.mpr hab
  rcases le_or_gt x.2 p.2 with hxp | hxp <;> rcases le_or_gt x.2 q.2 with hxq | hxq
  · exact crossing_below (neg_le_neg hxp) (neg_le_neg hxq)
  · refine crossing_right (neg_lt_neg hxq) ?_
    rw [area_neg]
    have := mul_nonneg (sub_nonneg.mpr hxp) hq.le
    have := mul_pos (sub_pos.mpr hxq) hp
    nlinarith
  · refine crossing_left (neg_lt_neg hxp) ?_
    rw [area_neg]
    have := mul_neg_of_neg_of_pos (sub_neg.mpr hxp) hq
    have := mul_nonpos_of_nonpos_of_nonneg (sub_nonpos.mpr hxq) hp.le
    nlinarith
  · exact crossing_above (neg_lt_neg hxp) (neg_lt_neg hxq)

open Classical in
/-- A point on the left of a rising edge has it on its right whenever it has it between its ends in
height. -/
theorem crossing_left_of_rising (hab : a.2 < b.2) (hx : 0 < area a b x) :
    crossing x a b = (if a.2 ≤ x.2 then 1 else 0) - if b.2 ≤ x.2 then 1 else 0 := by
  rcases le_or_gt a.2 x.2 with hax | hax <;> rcases le_or_gt b.2 x.2 with hbx | hbx
  · rw [crossing_below hax hbx, if_pos hax, if_pos hbx, sub_self]
  · rw [crossing_up hax hbx hx, if_pos hax, if_neg hbx.not_ge, sub_zero]
  · exact absurd (hab.trans_le hbx) hax.le.not_gt
  · rw [crossing_above hax hbx, if_neg hax.not_ge, if_neg hbx.not_ge, sub_self]

theorem crossing_left_of_falling (hab : b.2 < a.2) (hx : 0 < area a b x) : crossing x a b = 0 := by
  rw [crossing, if_neg fun k => (k.1.trans_lt k.2.1).not_gt hab, if_neg fun k => hx.not_gt k.2.2]

theorem crossing_level (hab : a.2 = b.2) : crossing x a b = 0 := by
  rcases le_or_gt a.2 x.2 with hax | hax
  · exact crossing_below hax (hab ▸ hax)
  · exact crossing_above hax (hab ▸ hax)

/-- Beside a level line the segment is above its points or below them. -/
theorem crossing_beside_level (hab : a.2 = b.2) (hp : 0 < area a b p) (hq : 0 < area a b q)
    (hx : x.2 = a.2) : crossing (-x) (-p) (-q) = 0 := by
  unfold area at hp hq
  rw [hab, sub_self, zero_mul, sub_zero] at hp hq
  rw [← hab, ← hx] at hp hq
  rcases lt_trichotomy a.1 b.1 with h | h | h
  · have h₁ := pos_of_mul_pos_right hp (sub_nonneg.mpr h.le)
    have h₂ := pos_of_mul_pos_right hq (sub_nonneg.mpr h.le)
    exact crossing_below (neg_le_neg (by linarith)) (neg_le_neg (by linarith))
  · rw [h, sub_self, zero_mul] at hp
    exact absurd hp (lt_irrefl 0)
  · have h₁ := neg_of_mul_pos_right hp (sub_nonpos.mpr h.le)
    have h₂ := neg_of_mul_pos_right hq (sub_nonpos.mpr h.le)
    exact crossing_above (neg_lt_neg (by linarith)) (neg_lt_neg (by linarith))

theorem meeting_left (hp : 0 < area a b p) (hq : 0 < area a b q) : meeting p q a b = 0 := by
  have ha : area a b a = 0 := by unfold area; ring
  have hb : area a b b = 0 := by unfold area; ring
  unfold meeting
  rcases lt_trichotomy a.2 b.2 with hab | hab | hab
  · rw [crossing_left_of_rising hab hp, crossing_left_of_rising hab hq, crossing_rising hab hp hq ha,
      crossing_rising hab hp hq hb]
    ring
  · rw [crossing_level hab, crossing_level hab, crossing_beside_level hab hp hq rfl,
      crossing_beside_level hab hp hq hab.symm]
    ring
  · rw [crossing_left_of_falling hab hp, crossing_left_of_falling hab hq,
      crossing_falling hab hp hq ha, crossing_falling hab hp hq hb]
    ring

theorem meeting_right (hp : area a b p < 0) (hq : area a b q < 0) : meeting p q a b = 0 := by
  rw [← neg_neg (meeting p q a b), ← meeting_swap, meeting_left, neg_zero]
  · rw [area_swap]; linarith
  · rw [area_swap]; linarith

theorem meeting_flat (hp : area a b p = 0) (hq : area a b q = 0) (ha : area p q a = 0)
    (hb : area p q b = 0) : meeting p q a b = 0 := by
  have hflat : ∀ {x c d : Plane}, area c d x = 0 → crossing x c d = 0 := by
    intro x c d h
    rw [crossing, if_neg fun k => k.2.2.ne' h, if_neg fun k => k.2.2.ne h]
  unfold meeting
  rw [hflat hp, hflat hq, hflat (by rwa [area_neg]), hflat (by rwa [area_neg])]
  ring

/-- Where neither line has the other segment on one side, the two have a point in common. -/
theorem exists_common (h : area a b p ≠ area a b q) (hpq : area a b p * area a b q ≤ 0)
    (hab : area p q a * area p q b ≤ 0) : ∃ x, x ∈ segment ℝ p q ∧ x ∈ segment ℝ a b := by
  have hd := sub_ne_zero.mpr h
  have he : area p q b - area p q a = area a b p - area a b q := by unfold area; ring
  have unit : ∀ {y z : ℝ}, y - z ≠ 0 → y * z ≤ 0 → y / (y - z) ∈ Set.Icc (0 : ℝ) 1 := by
    intro y z hyz hle
    have hsq : 0 < (y - z) ^ 2 := by positivity
    have k₁ : y / (y - z) = (y ^ 2 - y * z) / (y - z) ^ 2 := by field_simp
    have k₂ : 1 - y / (y - z) = (z ^ 2 - y * z) / (y - z) ^ 2 := by field_simp; ring
    refine ⟨k₁ ▸ div_nonneg (by nlinarith) hsq.le, sub_nonneg.mp (k₂ ▸ div_nonneg (by nlinarith) hsq.le)⟩
  refine ⟨AffineMap.lineMap p q (area a b p / (area a b p - area a b q)), ?_, ?_⟩
  · rw [segment_eq_image_lineMap]
    exact Set.mem_image_of_mem _ (unit hd hpq)
  · rw [segment_eq_image_lineMap]
    refine ⟨area p q a / (area p q a - area p q b), unit ?_ hab, ?_⟩
    · rw [← neg_sub, he]
      exact neg_ne_zero.mpr hd
    · rw [← neg_sub, he, div_neg, AffineMap.lineMap_apply_module, AffineMap.lineMap_apply_module]
      have h₁ : (area a b p - area a b q) * (p.1 - a.1) + area a b p * (q.1 - p.1) +
          area p q a * (b.1 - a.1) = 0 := by unfold area; ring
      have h₂ : (area a b p - area a b q) * (p.2 - a.2) + area a b p * (q.2 - p.2) +
          area p q a * (b.2 - a.2) = 0 := by unfold area; ring
      refine Prod.ext ?_ ?_
      · simp only [Prod.fst_add, Prod.smul_fst, smul_eq_mul]
        field_simp
        linear_combination -h₁
      · simp only [Prod.snd_add, Prod.smul_snd, smul_eq_mul]
        field_simp
        linear_combination -h₂

/-- **A segment that does not meet the edge does not pass it.** -/
theorem meeting_eq_zero (h : ∀ x ∈ segment ℝ p q, x ∉ segment ℝ a b) : meeting p q a b = 0 := by
  by_contra hne
  have one_side : ∀ {y z : ℝ}, ¬(0 < y ∧ 0 < z) → ¬(y < 0 ∧ z < 0) → y * z ≤ 0 := by
    intro y z h₁ h₂
    by_contra hpos
    rcases mul_pos_iff.mp (not_le.mp hpos) with k | k
    · exact h₁ k
    · exact h₂ k
  have hpq : area a b p * area a b q ≤ 0 :=
    one_side (fun k => hne (meeting_left k.1 k.2)) fun k => hne (meeting_right k.1 k.2)
  have hab : area p q a * area p q b ≤ 0 := by
    refine one_side (fun k => hne ?_) fun k => hne ?_
    · rw [← neg_neg (meeting p q a b), ← meeting_turned, meeting_left, neg_zero] <;> rw [area_neg]
      exacts [k.1, k.2]
    · rw [← neg_neg (meeting p q a b), ← meeting_turned, meeting_right, neg_zero] <;> rw [area_neg]
      exacts [k.1, k.2]
  by_cases hd : area a b p = area a b q
  · have hzero : ∀ {y z : ℝ}, y = z → y * z ≤ 0 → y = 0 := by
      rintro y _ rfl hle
      nlinarith
    have he : area p q a = area p q b := by unfold area at hd ⊢; linarith
    have hp := hzero hd hpq
    have ha := hzero he hab
    exact hne (meeting_flat hp (hd ▸ hp) ha (he ▸ ha))
  · obtain ⟨x, hx, hx'⟩ := exists_common hd hpq hab
    exact h x hx hx'

end Prims.Plane

end
