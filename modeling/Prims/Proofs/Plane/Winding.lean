import Prims.Proofs.Plane.Circle

/-!
# Plane — Winding

How often a triangle winds about a point.  `crossing q a b` counts the edge from `a` to `b` when it
crosses the ray from `q` to the right, upwards as one and downwards as minus one; an edge reaches from
its lower end, included, to its upper end, and a point on it is not to its left.  With this rule an
edge and its reverse cancel at every point (`crossing_swap`), and a counter-clockwise triangle winds
once or not at all about every point (`winding_cases`): once about its interior and about a part of
its boundary, never about what lies outside.  Which part of the boundary is decided by the direction
of the side alone (`winding_side`), and turning the plane by half a turn exchanges the two parts, so
that `winding (-q) (-a) (-b) (-c)` covers what `winding q a b c` leaves out (`winding_or_turned`).
-/

noncomputable section

namespace Prims.Plane

open Classical in
/-- The crossing of the ray from `q` to the right by the edge from `a` to `b`. -/
def crossing (q a b : Plane) : ℝ :=
  if a.2 ≤ q.2 ∧ q.2 < b.2 ∧ 0 < area a b q then 1
  else if b.2 ≤ q.2 ∧ q.2 < a.2 ∧ area a b q < 0 then -1
  else 0

/-- The number of times the triangle winds about `q`. -/
def winding (q a b c : Plane) : ℝ := crossing q a b + crossing q b c + crossing q c a

variable {a b c q : Plane}

theorem crossing_up (ha : a.2 ≤ q.2) (hb : q.2 < b.2) (h : 0 < area a b q) :
    crossing q a b = 1 := if_pos ⟨ha, hb, h⟩

theorem crossing_right (hb : q.2 < b.2) (h : area a b q ≤ 0) :
    crossing q a b = 0 := by
  rw [crossing, if_neg fun k => h.not_gt k.2.2, if_neg fun k => k.1.not_gt hb]

theorem crossing_down (ha : q.2 < a.2) (hb : b.2 ≤ q.2) (h : area a b q < 0) :
    crossing q a b = -1 := by
  rw [crossing, if_neg fun k => k.1.not_gt ha, if_pos ⟨hb, ha, h⟩]

theorem crossing_left (ha : q.2 < a.2) (h : 0 ≤ area a b q) :
    crossing q a b = 0 := by
  rw [crossing, if_neg fun k => k.1.not_gt ha, if_neg fun k => h.not_gt k.2.2]

/-- An edge above the ray. -/
theorem crossing_above (ha : q.2 < a.2) (hb : q.2 < b.2) : crossing q a b = 0 := by
  rw [crossing, if_neg fun k => k.1.not_gt ha, if_neg fun k => k.1.not_gt hb]

/-- An edge below the ray, or on it. -/
theorem crossing_below (ha : a.2 ≤ q.2) (hb : b.2 ≤ q.2) : crossing q a b = 0 := by
  rw [crossing, if_neg fun k => hb.not_gt k.2.1, if_neg fun k => ha.not_gt k.2.1]

/-- An edge and its reverse cancel. -/
theorem crossing_swap (q a b : Plane) : crossing q b a = -crossing q a b := by
  have h := area_swap a b q
  rcases le_or_gt a.2 q.2 with ha | ha
  · rcases le_or_gt b.2 q.2 with hb | hb
    · rw [crossing_below ha hb, crossing_below hb ha, neg_zero]
    · rcases lt_or_ge 0 (area a b q) with hq | hq
      · rw [crossing_up ha hb hq, crossing_down hb ha (by linarith)]
      · rw [crossing_right hb hq, crossing_left hb (by linarith), neg_zero]
  · rcases le_or_gt b.2 q.2 with hb | hb
    · rcases lt_or_ge (area a b q) 0 with hq | hq
      · rw [crossing_down ha hb hq, crossing_up hb ha (by linarith), neg_neg]
      · rw [crossing_left ha hq, crossing_right ha (by linarith), neg_zero]
    · rw [crossing_above ha hb, crossing_above hb ha, neg_zero]

/-- The other way round. -/
theorem winding_swap (q a b c : Plane) : winding q a c b = -winding q a b c := by
  unfold winding
  rw [crossing_swap q c a, crossing_swap q b c, crossing_swap q a b]
  ring

theorem winding_rotate (q a b c : Plane) : winding q b c a = winding q a b c := by
  unfold winding; ring

/-- The areas over the sides, weighted by the heights of the opposite corners, balance. -/
theorem area_balance (a b c q : Plane) :
    area a b q * (c.2 - q.2) + area b c q * (a.2 - q.2) + area c a q * (b.2 - q.2) = 0 := by
  unfold area; ring

/-- What a triangle does about a point: it winds once and the point is in it, or it does not wind
and the point is not in its interior. -/
def WindsOnce (q a b c : Plane) : Prop :=
  (winding q a b c = 1 ∧ 0 ≤ area a b q ∧ 0 ≤ area b c q ∧ 0 ≤ area c a q) ∨
    (winding q a b c = 0 ∧ ¬(0 < area a b q ∧ 0 < area b c q ∧ 0 < area c a q))

theorem WindsOnce.rotate (h : WindsOnce q b c a) : WindsOnce q a b c := by
  rcases h with ⟨hw, h₁, h₂, h₃⟩ | ⟨hw, hn⟩
  · exact .inl ⟨by rwa [← winding_rotate], h₃, h₁, h₂⟩
  · exact .inr ⟨by rwa [← winding_rotate], fun ⟨h₁, h₂, h₃⟩ => hn ⟨h₂, h₃, h₁⟩⟩

/-- One corner above the ray. -/
theorem windsOnce_above (h : 0 < area a b c) (ha : a.2 ≤ q.2) (hb : b.2 ≤ q.2) (hc : q.2 < c.2) :
    WindsOnce q a b c := by
  have hsum := area_add a b c q
  have hbal := area_balance a b c q
  have hc' : 0 < c.2 - q.2 := sub_pos.mpr hc
  unfold WindsOnce winding
  rw [crossing_below ha hb]
  rcases lt_or_ge 0 (area b c q) with h₁ | h₁
  · rw [crossing_up hb hc h₁]
    rcases lt_or_ge (area c a q) 0 with h₂ | h₂
    · rw [crossing_down hc ha h₂]
      exact .inr ⟨by norm_num, fun k => k.2.2.not_gt h₂⟩
    · rw [crossing_left hc h₂]
      refine .inl ⟨by norm_num, ?_, h₁.le, h₂⟩
      have := mul_nonneg h₁.le (sub_nonneg.mpr ha)
      have := mul_nonneg h₂ (sub_nonneg.mpr hb)
      exact nonneg_of_mul_nonneg_left (by linarith : 0 ≤ area a b q * (c.2 - q.2)) hc'
  · rw [crossing_right hc h₁]
    rcases lt_or_ge (area c a q) 0 with h₂ | h₂
    · exfalso
      have := mul_nonneg_of_nonpos_of_nonpos h₁ (sub_nonpos.mpr ha)
      have := mul_nonneg_of_nonpos_of_nonpos h₂.le (sub_nonpos.mpr hb)
      have := nonpos_of_mul_nonpos_left (by linarith : area a b q * (c.2 - q.2) ≤ 0) hc'
      linarith
    · rw [crossing_left hc h₂]
      exact .inr ⟨by norm_num, fun k => h₁.not_gt k.2.1⟩

/-- One corner on or below the ray. -/
theorem windsOnce_below (h : 0 < area a b c) (ha : q.2 < a.2) (hb : q.2 < b.2) (hc : c.2 ≤ q.2) :
    WindsOnce q a b c := by
  have hsum := area_add a b c q
  have hbal := area_balance a b c q
  have ha' : 0 < a.2 - q.2 := sub_pos.mpr ha
  have hb' : 0 < b.2 - q.2 := sub_pos.mpr hb
  have hc' : c.2 - q.2 ≤ 0 := sub_nonpos.mpr hc
  unfold WindsOnce winding
  rw [crossing_above ha hb]
  rcases lt_or_ge (area b c q) 0 with h₁ | h₁
  · rw [crossing_down hb hc h₁]
    rcases lt_or_ge 0 (area c a q) with h₂ | h₂
    · rw [crossing_up hc ha h₂]
      exact .inr ⟨by norm_num, fun k => k.2.1.not_gt h₁⟩
    · exfalso
      have := mul_neg_of_neg_of_pos h₁ ha'
      have := mul_nonpos_of_nonpos_of_nonneg h₂ hb'.le
      have := neg_of_mul_pos_left (by linarith : 0 < area a b q * (c.2 - q.2)) hc'
      linarith
  · rw [crossing_left hb h₁]
    rcases lt_or_ge 0 (area c a q) with h₂ | h₂
    · rw [crossing_up hc ha h₂]
      refine .inl ⟨by norm_num, ?_, h₁, h₂.le⟩
      have := mul_nonneg h₁ ha'.le
      have := mul_pos h₂ hb'
      by_contra hneg
      have := mul_nonneg_of_nonpos_of_nonpos (not_le.mp hneg).le hc'
      linarith
    · rw [crossing_right ha h₂]
      exact .inr ⟨by norm_num, fun k => h₂.not_gt k.2.2⟩

/-- All corners on one side of the ray. -/
theorem windsOnce_beside (h : 0 < area a b c)
    (hs : (q.2 < a.2 ∧ q.2 < b.2 ∧ q.2 < c.2) ∨ (a.2 ≤ q.2 ∧ b.2 ≤ q.2 ∧ c.2 ≤ q.2)) :
    WindsOnce q a b c := by
  have hbal := area_balance a b c q
  refine .inr ?_
  unfold winding
  rcases hs with ⟨ha, hb, hc⟩ | ⟨ha, hb, hc⟩
  · rw [crossing_above ha hb, crossing_above hb hc, crossing_above hc ha]
    refine ⟨by norm_num, fun ⟨h₁, h₂, h₃⟩ => ?_⟩
    have := mul_pos h₁ (sub_pos.mpr hc)
    have := mul_pos h₂ (sub_pos.mpr ha)
    have := mul_pos h₃ (sub_pos.mpr hb)
    linarith
  · rw [crossing_below ha hb, crossing_below hb hc, crossing_below hc ha]
    refine ⟨by norm_num, fun ⟨h₁, h₂, h₃⟩ => ?_⟩
    have k₁ := mul_nonpos_of_nonneg_of_nonpos h₁.le (sub_nonpos.mpr hc)
    have k₂ := mul_nonpos_of_nonneg_of_nonpos h₂.le (sub_nonpos.mpr ha)
    have k₃ := mul_nonpos_of_nonneg_of_nonpos h₃.le (sub_nonpos.mpr hb)
    -- all three corners are on the ray's line
    have e₁ := (mul_eq_zero.mp (by linarith : area a b q * (c.2 - q.2) = 0)).resolve_left h₁.ne'
    have e₂ := (mul_eq_zero.mp (by linarith : area b c q * (a.2 - q.2) = 0)).resolve_left h₂.ne'
    have e₃ := (mul_eq_zero.mp (by linarith : area c a q * (b.2 - q.2) = 0)).resolve_left h₃.ne'
    have : area a b c = 0 := by
      unfold area
      rw [show c.2 - a.2 = 0 by linarith, show b.2 - a.2 = 0 by linarith]
      ring
    exact h.ne' this

/-- **A triangle winds once or not at all.** -/
theorem winding_cases (h : 0 < area a b c) (q : Plane) : WindsOnce q a b c := by
  have hbc : 0 < area b c a := by rwa [area_rotate]
  have hca : 0 < area c a b := by rwa [← area_rotate]
  rcases le_or_gt a.2 q.2 with ha | ha <;> rcases le_or_gt b.2 q.2 with hb | hb <;>
    rcases le_or_gt c.2 q.2 with hc | hc
  · exact windsOnce_beside h (.inr ⟨ha, hb, hc⟩)
  · exact windsOnce_above h ha hb hc
  · exact (windsOnce_above hca hc ha hb).rotate.rotate
  · exact (windsOnce_below hbc hb hc ha).rotate
  · exact (windsOnce_above hbc hb hc ha).rotate
  · exact (windsOnce_below hca hc ha hb).rotate.rotate
  · exact windsOnce_below h ha hb hc
  · exact windsOnce_beside h (.inl ⟨ha, hb, hc⟩)

theorem winding_eq_zero_or_one (h : 0 < area a b c) (q : Plane) :
    winding q a b c = 0 ∨ winding q a b c = 1 :=
  (winding_cases h q).elim (fun k => .inr k.1) fun k => .inl k.1

theorem areas_of_winding (h : 0 < area a b c) (hw : winding q a b c = 1) :
    0 ≤ area a b q ∧ 0 ≤ area b c q ∧ 0 ≤ area c a q := by
  rcases winding_cases h q with k | k
  · exact k.2
  · exact absurd (hw.symm.trans k.1) one_ne_zero

theorem winding_of_areas (h : 0 < area a b c) (h₁ : 0 < area a b q) (h₂ : 0 < area b c q)
    (h₃ : 0 < area c a q) : winding q a b c = 1 :=
  (winding_cases h q).elim (fun k => k.1) fun k => absurd ⟨h₁, h₂, h₃⟩ k.2

/-! ### Points on sides -/

/-- The side leads down, or to the right along the horizontal. -/
def Descends (a b : Plane) : Prop := b.2 < a.2 ∨ (b.2 = a.2 ∧ a.1 < b.1)

theorem descends_or_turned (h : a ≠ b) : Descends a b ∨ Descends (-a) (-b) := by
  simp only [Descends, Prod.fst_neg, Prod.snd_neg, neg_lt_neg_iff, neg_inj]
  rcases lt_trichotomy a.2 b.2 with h₂ | h₂ | h₂
  · exact .inr (.inl h₂)
  · rcases lt_trichotomy a.1 b.1 with h₁ | h₁ | h₁
    · exact .inl (.inr ⟨h₂.symm, h₁⟩)
    · exact absurd (Prod.ext h₁ h₂) h
    · exact .inr (.inr ⟨h₂.symm, h₁⟩)
  · exact .inl (.inl h₂)

/-- A triangle winds about the inner points of its descending sides. -/
theorem winding_side (h : 0 < area a b c) (hd : Descends a b) (h₁ : area a b q = 0)
    (h₂ : 0 < area b c q) (h₃ : 0 < area c a q) : winding q a b c = 1 := by
  have hbal := area_balance a b c q
  rw [h₁, zero_mul, zero_add] at hbal
  unfold winding
  rcases hd with hd | ⟨hd, hx⟩
  · -- the point is strictly between the ends of the side in height
    have hqa : q.2 < a.2 := by
      by_contra hle
      have := mul_nonpos_of_nonneg_of_nonpos h₂.le (sub_nonpos.mpr (not_lt.mp hle))
      have := mul_neg_of_pos_of_neg h₃ (by linarith : b.2 - q.2 < 0)
      linarith
    have hbq : b.2 ≤ q.2 := by
      by_contra hlt
      have := mul_pos h₂ (sub_pos.mpr hqa)
      have := mul_pos h₃ (sub_pos.mpr (not_le.mp hlt))
      linarith
    rw [crossing_left hqa h₁.ge]
    rcases le_or_gt c.2 q.2 with hc | hc
    · rw [crossing_below hbq hc, crossing_up hc hqa h₃]; norm_num
    · rw [crossing_up hbq hc h₂, crossing_above hc hqa]; norm_num
  · have hq : q.2 = a.2 := by
      rw [hd] at hbal
      have : (area b c q + area c a q) * (a.2 - q.2) = 0 := by linarith
      linarith [(mul_eq_zero.mp this).resolve_left (by linarith)]
    have hc : q.2 < c.2 := by
      unfold area at h
      rw [hd, sub_self, zero_mul, sub_zero] at h
      linarith [pos_of_mul_pos_right h (sub_nonneg.mpr hx.le)]
    rw [crossing_below hq.ge (hd.trans hq.symm).le, crossing_up (hd.trans hq.symm).le hc h₂,
      crossing_left hc h₃.le]
    norm_num

/-- It does not wind about those of the others. -/
theorem winding_side_eq_zero (h : 0 < area a b c) (hd : Descends b a) (h₁ : area a b q = 0)
    (h₂ : 0 < area b c q) (h₃ : 0 < area c a q) : winding q a b c = 0 := by
  have hbal := area_balance a b c q
  rw [h₁, zero_mul, zero_add] at hbal
  unfold winding
  rcases hd with hd | ⟨hd, hx⟩
  · have hqb : q.2 < b.2 := by
      by_contra hle
      have := mul_nonpos_of_nonneg_of_nonpos h₃.le (sub_nonpos.mpr (not_lt.mp hle))
      have := mul_neg_of_pos_of_neg h₂ (by linarith : a.2 - q.2 < 0)
      linarith
    have haq : a.2 ≤ q.2 := by
      by_contra hlt
      have := mul_pos h₃ (sub_pos.mpr hqb)
      have := mul_pos h₂ (sub_pos.mpr (not_le.mp hlt))
      linarith
    rw [crossing_right hqb h₁.le]
    rcases le_or_gt c.2 q.2 with hc | hc
    · rw [crossing_left hqb h₂.le, crossing_below hc haq]; norm_num
    · rw [crossing_above hqb hc, crossing_left hc h₃.le]; norm_num
  · have hq : q.2 = a.2 := by
      rw [← hd] at hbal
      have : (area b c q + area c a q) * (a.2 - q.2) = 0 := by linarith
      linarith [(mul_eq_zero.mp this).resolve_left (by linarith)]
    have hc : c.2 < q.2 := by
      unfold area at h
      rw [← hd, sub_self, zero_mul, sub_zero] at h
      by_contra hle
      have := mul_nonpos_of_nonpos_of_nonneg (sub_nonpos.mpr hx.le) (by linarith : 0 ≤ c.2 - a.2)
      linarith
    have hb : b.2 ≤ q.2 := (hd.symm.trans hq.symm).le
    rw [crossing_below hq.ge hb, crossing_below hb hc.le, crossing_below hc.le hq.ge]
    norm_num

/-- **The two halves of the boundary.**  About a point of a triangle that is no corner, the triangle
winds, or it does after half a turn of the plane. -/
theorem winding_or_turned (h : 0 < area a b c) (h₁ : 0 ≤ area a b q) (h₂ : 0 ≤ area b c q)
    (h₃ : 0 ≤ area c a q) (ha : q ≠ a) (hb : q ≠ b) (hc : q ≠ c) :
    winding q a b c = 1 ∨ winding (-q) (-a) (-b) (-c) = 1 := by
  have hbc : 0 < area b c a := by rwa [area_rotate]
  have hca : 0 < area c a b := by rwa [← area_rotate]
  -- the sides, each with both neighbours at a positive area
  have side : ∀ {a b c : Plane}, 0 < area a b c → area a b q = 0 → 0 < area b c q →
      0 < area c a q → winding q a b c = 1 ∨ winding (-q) (-a) (-b) (-c) = 1 := by
    intro a b c h h₁ h₂ h₃
    rcases descends_or_turned (ne_of_area_pos h) with hd | hd
    · exact .inl (winding_side h hd h₁ h₂ h₃)
    · refine .inr (winding_side ?_ hd ?_ ?_ ?_) <;> rwa [area_neg]
  rcases h₁.eq_or_lt' with z₁ | p₁
  · have p₂ := h₂.lt_of_ne fun z₂ => hb (eq_of_areas_zero hbc z₂.symm z₁)
    have p₃ := h₃.lt_of_ne fun z₃ => ha (eq_of_areas_zero h z₁ z₃.symm)
    exact side h z₁ p₂ p₃
  · rcases h₂.eq_or_lt' with z₂ | p₂
    · have p₃ := h₃.lt_of_ne fun z₃ => hc (eq_of_areas_zero hca z₃.symm z₂)
      have k := side hbc z₂ p₃ p₁
      rwa [winding_rotate q a b c, winding_rotate (-q) (-a) (-b) (-c)] at k
    · rcases h₃.eq_or_lt' with z₃ | p₃
      · have k := side hca z₃ p₁ p₂
        rwa [← winding_rotate q c a b, ← winding_rotate (-q) (-c) (-a) (-b)] at k
      · exact .inl (winding_of_areas h p₁ p₂ p₃)

/-! ### Corners -/

open Classical in
/-- A triangle winds about a corner when the corner is between the others in height, with the higher
one to the left of the descent. -/
theorem winding_corner (h : 0 < area a b c) :
    winding a a b c = if b.2 ≤ a.2 ∧ a.2 < c.2 then 1 else 0 := by
  have hbc : 0 < area b c a := by rwa [area_rotate]
  have hab : area a b a = 0 := by unfold area; ring
  have hca : area c a a = 0 := by unfold area; ring
  have e₁ : crossing a a b = 0 := by
    rw [crossing, if_neg fun k => k.2.2.ne' hab, if_neg fun k => k.2.2.ne hab]
  have e₃ : crossing a c a = 0 := by
    rw [crossing, if_neg fun k => k.2.2.ne' hca, if_neg fun k => k.2.2.ne hca]
  rw [winding, e₁, e₃, zero_add, add_zero, crossing]
  by_cases hk : b.2 ≤ a.2 ∧ a.2 < c.2
  · rw [if_pos ⟨hk.1, hk.2, hbc⟩, if_pos hk]
  · rw [if_neg fun k => hk ⟨k.1, k.2.1⟩, if_neg fun k => k.2.2.not_gt hbc, if_neg hk]

open Classical in
/-- Of three heights, not all equal, exactly one is between the others, ties going one way around. -/
theorem between_once {x y z : ℝ} (h : ¬(x = y ∧ y = z)) :
    ((if y ≤ x ∧ x < z then (1 : ℝ) else 0) + if z < x ∧ x ≤ y then 1 else 0) +
      ((if z ≤ y ∧ y < x then 1 else 0) + if x < y ∧ y ≤ z then 1 else 0) +
      ((if x ≤ z ∧ z < y then 1 else 0) + if y < z ∧ z ≤ x then 1 else 0) = 1 := by
  rcases lt_trichotomy x y with h₁ | h₁ | h₁ <;> rcases lt_trichotomy y z with h₂ | h₂ | h₂ <;>
    grind

/-- **The corner in the middle.**  Of the corners of a triangle exactly one is wound about, with the
turned plane taken into account: the one between the others in height. -/
theorem winding_corners (h : 0 < area a b c) :
    (winding a a b c + winding (-a) (-a) (-b) (-c)) +
      (winding b a b c + winding (-b) (-a) (-b) (-c)) +
      (winding c a b c + winding (-c) (-a) (-b) (-c)) = 1 := by
  have hn : 0 < area (-a) (-b) (-c) := by rwa [area_neg]
  have hbc : 0 < area b c a := by rwa [area_rotate]
  have hca : 0 < area c a b := by rwa [← area_rotate]
  have nbc : 0 < area (-b) (-c) (-a) := by rwa [area_neg]
  have nca : 0 < area (-c) (-a) (-b) := by rwa [area_neg]
  have hne : ¬(a.2 = b.2 ∧ b.2 = c.2) := by
    rintro ⟨h₁, h₂⟩
    unfold area at h
    rw [← h₂, ← h₁, sub_self] at h
    linarith
  rw [← between_once hne, ← winding_rotate b a b c, ← winding_rotate (-b) (-a) (-b) (-c),
    winding_rotate c c a b, winding_rotate (-c) (-c) (-a) (-b), winding_corner h,
    winding_corner hn, winding_corner hbc, winding_corner nbc, winding_corner hca,
    winding_corner nca]
  simp only [Prod.snd_neg, neg_le_neg_iff, neg_lt_neg_iff, and_comm]

end Prims.Plane

end
