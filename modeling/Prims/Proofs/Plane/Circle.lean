import Prims.Proofs.Plane.Basic

/-!
# Plane — Circle

Circles through three points.  `InsideCircle a b c q` is the geometric statement: some point is
equally far from `a`, `b` and `c` and nearer to `q`.  The circles through two points `u` and `v` form
a pencil: with `thales u v x` the dot product of the directions from `x` to `u` and `v`, each is the
zero set of `thales u v x - k * area u v x` for one `k`, so that questions about two circles over a
common chord are linear in two numbers for each point.  Main statements:

* `insideCircle_iff`: for corners off a line, inside the circle is a sign of `inCircle`;
* `inside_across`: a point beyond a side and inside the circle lies inside the circle on the other
  side of it;
* `outside_left`, `outside_right`: what is outside both circles over a side is outside every circle
  over it through a point inside the first and outside the second;
* `outside_both`: of two points outside the empty circles on the two sides of a chord, one on each side,
  neither is inside the circle of the other;
* `corner_of_outside`: a triangle meets the outside of its circle in its corners only.
-/

noncomputable section

namespace Prims.Plane

/-- The squared distance. -/
def distSq (p q : Plane) : ℝ := (p.1 - q.1) ^ 2 + (p.2 - q.2) ^ 2

/-- The point lies strictly inside the circle through `a`, `b` and `c`. -/
def InsideCircle (a b c q : Plane) : Prop :=
  ∃ o : Plane, distSq o a = distSq o b ∧ distSq o a = distSq o c ∧ distSq o q < distSq o a

/-- The dot product of the directions from `x` to `u` and `v`; it is negative inside the circle with
diameter `u v`. -/
def thales (u v x : Plane) : ℝ := (x.1 - u.1) * (x.1 - v.1) + (x.2 - u.2) * (x.2 - v.2)

theorem thales_comm (u v x : Plane) : thales v u x = thales u v x := by
  unfold thales; ring

/-- For a counter-clockwise triangle this is positive exactly inside its circle. -/
def inCircle (a b c d : Plane) : ℝ := thales a b c * area a b d - thales a b d * area a b c

theorem inCircle_rotate (a b c d : Plane) : inCircle b c a d = inCircle a b c d := by
  unfold inCircle thales area; ring

theorem inCircle_swap (a b c d : Plane) : inCircle b a c d = -inCircle a b c d := by
  unfold inCircle thales area; ring

theorem inCircle_swap_last (a b c d : Plane) : inCircle a b d c = -inCircle a b c d := by
  unfold inCircle; ring

theorem inCircle_last (a b c : Plane) : inCircle a b c c = 0 := by
  unfold inCircle; ring

/-- The power of a point with respect to the circle, as a determinant. -/
theorem power_eq {a b c o : Plane} (hb : distSq o a = distSq o b) (hc : distSq o a = distSq o c)
    (q : Plane) : (distSq o a - distSq o q) * area a b c = inCircle a b c q := by
  unfold distSq at *
  unfold inCircle thales area
  linear_combination ((q.1 - a.1) * (c.2 - a.2) - (q.2 - a.2) * (c.1 - a.1)) * hb +
    ((b.1 - a.1) * (q.2 - a.2) - (b.2 - a.2) * (q.1 - a.1)) * hc

/-- Corners off a line have a circle. -/
theorem exists_centre {a b c : Plane} (h : area a b c ≠ 0) :
    ∃ o : Plane, distSq o a = distSq o b ∧ distSq o a = distSq o c := by
  refine ⟨(a.1 + ((c.2 - a.2) * distSq b a - (b.2 - a.2) * distSq c a) / (2 * area a b c),
    a.2 + ((b.1 - a.1) * distSq c a - (c.1 - a.1) * distSq b a) / (2 * area a b c)), ?_, ?_⟩
  · simp only [distSq]
    field_simp
    unfold area; ring
  · simp only [distSq]
    field_simp
    unfold area; ring

/-- Nearer to a centre than the corners, by signs. -/
theorem nearer_centre_iff {a b c o : Plane} (h : area a b c ≠ 0) (hb : distSq o a = distSq o b)
    (hc : distSq o a = distSq o c) (q : Plane) :
    0 < area a b c * inCircle a b c q ↔ distSq o q < distSq o a := by
  have hpower : area a b c * inCircle a b c q = area a b c ^ 2 * (distSq o a - distSq o q) := by
    rw [← power_eq hb hc q]
    ring
  rw [hpower, mul_pos_iff_of_pos_left (by positivity), sub_pos]

/-- **Inside the circle, by signs.** -/
theorem insideCircle_iff {a b c : Plane} (h : area a b c ≠ 0) (q : Plane) :
    InsideCircle a b c q ↔ 0 < area a b c * inCircle a b c q := by
  constructor
  · rintro ⟨o, hb, hc, hq⟩
    exact (nearer_centre_iff h hb hc q).mpr hq
  · intro hpos
    obtain ⟨o, hb, hc⟩ := exists_centre h
    exact ⟨o, hb, hc, (nearer_centre_iff h hb hc q).mp hpos⟩

/-! ### Two circles over a chord -/

variable {u v w x p y : Plane}

theorem inCircle_reverse (u v x y : Plane) :
    inCircle v u x y = thales u v y * area u v x - thales u v x * area u v y := by
  unfold inCircle thales area; ring

/-- A point inside the circle of `u v w` that is not on the side of `w` lies inside the circle of
`v u x`, for `x` beyond `u v` and outside the first circle. -/
theorem inside_across (hw : 0 < area u v w) (hx : area u v x < 0) (hout : inCircle u v w x ≤ 0)
    (hp : area u v p ≤ 0) (hin : 0 < inCircle u v w p) : 0 < inCircle v u x p := by
  rw [inCircle_reverse]
  unfold inCircle at hout hin
  have h₁ := mul_pos_of_neg_of_neg hx (neg_neg_of_pos hin)
  have h₂ := mul_nonneg_of_nonpos_of_nonpos hp hout
  refine pos_of_mul_pos_right (a := area u v w) ?_ hw.le
  nlinarith

/-- On the side of `w`, what is outside the circle of `u v w` is outside that of `u v p`, for `p`
inside the first. -/
theorem outside_left (hw : 0 < area u v w) (hp : 0 < area u v p) (hin : 0 < inCircle u v w p)
    (hy : 0 ≤ area u v y) (hout : inCircle u v w y ≤ 0) : inCircle u v p y ≤ 0 := by
  unfold inCircle at *
  have h₁ := mul_nonneg hy hin.le
  have h₂ := mul_nonpos_of_nonneg_of_nonpos hp.le hout
  by_contra hpos
  have := mul_pos hw (not_le.mp hpos)
  nlinarith

/-- Beyond `u v`, what is outside the circle of `v u x` is outside that of `u v p`, for `p` outside
the first. -/
theorem outside_right (hx : area u v x < 0) (hp : 0 < area u v p) (hpx : inCircle v u x p ≤ 0)
    (hy : area u v y ≤ 0) (hyx : inCircle v u x y ≤ 0) : inCircle u v p y ≤ 0 := by
  rw [inCircle_reverse] at hpx hyx
  unfold inCircle
  have h₁ := mul_nonneg_of_nonpos_of_nonpos hy hpx
  have h₂ := mul_nonpos_of_nonneg_of_nonpos hp.le hyx
  by_contra hpos
  have := mul_pos_of_neg_of_neg hx (neg_neg_of_pos (not_le.mp hpos))
  nlinarith

/-! ### The pencil of a chord -/

/-- The place of the circle through `u`, `v` and `x` in the pencil. -/
def pencil (u v x : Plane) : ℝ := thales u v x / area u v x

theorem inCircle_eq_pencil (hw : area u v w ≠ 0) (hx : area u v x ≠ 0) :
    inCircle u v w x = area u v w * area u v x * (pencil u v w - pencil u v x) := by
  unfold inCircle pencil
  field_simp

/-- On one side, to be outside the circle is to be later in the pencil. -/
theorem inCircle_nonpos_iff (h : 0 < area u v w * area u v x) :
    inCircle u v w x ≤ 0 ↔ pencil u v w ≤ pencil u v x := by
  rw [inCircle_eq_pencil (left_ne_zero_of_mul h.ne') (right_ne_zero_of_mul h.ne'),
    mul_nonpos_iff, or_iff_left fun k => h.not_ge k.1, and_iff_right h.le, sub_nonpos]

/-- Across the chord it is the other way around. -/
theorem inCircle_nonpos_iff_across (h : area u v w * area u v x < 0) :
    inCircle u v w x ≤ 0 ↔ pencil u v x ≤ pencil u v w := by
  rw [inCircle_eq_pencil (left_ne_zero_of_mul h.ne) (right_ne_zero_of_mul h.ne),
    mul_nonpos_iff, or_iff_right fun k => h.not_ge k.1, and_iff_right h.le, sub_nonneg]

theorem inCircle_eq_zero_iff (h : area u v w * area u v x ≠ 0) :
    inCircle u v w x = 0 ↔ pencil u v w = pencil u v x := by
  rw [inCircle_eq_pencil (left_ne_zero_of_mul h) (right_ne_zero_of_mul h),
    mul_eq_zero, or_iff_right h, sub_eq_zero]


/-- The circle over a side through a point inside another one leaves out what the other does. -/
theorem outside_left_lt (hw : 0 < area u v w) (hp : 0 < area u v p) (hin : 0 < inCircle u v w p)
    (hy : 0 < area u v y) (hout : inCircle u v w y ≤ 0) : inCircle u v p y < 0 := by
  rw [← not_le, inCircle_nonpos_iff (mul_pos hw hp), not_le] at hin
  rw [inCircle_nonpos_iff (mul_pos hw hy)] at hout
  rw [inCircle_eq_pencil hp.ne' hy.ne']
  exact mul_neg_of_pos_of_neg (mul_pos hp hy) (by linarith)

/-- Circles over a chord that are empty on either side: two points outside them, one on each side, are
outside each other's circle or all four are on one. -/
theorem outside_both (hw : 0 < area u v w) (hx : area u v x < 0) (hp : 0 < area u v p)
    (hy : area u v y < 0) (hwx : inCircle u v w x ≤ 0) (hwp : inCircle u v w p ≤ 0)
    (hxy : inCircle v u x y ≤ 0) :
    inCircle u v p y < 0 ∨ inCircle u v w p = 0 ∧ inCircle u v w y = 0 ∧ inCircle u v p y = 0 := by
  have hx' : 0 < area v u x := by rw [area_swap]; linarith
  have hy' : 0 < area v u y := by rw [area_swap]; linarith
  have k : ∀ z, pencil v u z = -pencil u v z := by
    intro z
    rw [pencil, pencil, area_swap, thales_comm, div_neg]
  rw [inCircle_nonpos_iff_across (mul_neg_of_pos_of_neg hw hx)] at hwx
  rw [inCircle_nonpos_iff (mul_pos hw hp)] at hwp
  rw [inCircle_nonpos_iff (mul_pos hx' hy'), k, k, neg_le_neg_iff] at hxy
  rcases (hxy.trans (hwx.trans hwp)).lt_or_eq with hlt | heq
  · left
    rw [inCircle_eq_pencil hp.ne' hy.ne]
    exact mul_neg_of_neg_of_pos (mul_neg_of_pos_of_neg hp hy) (by linarith)
  · right
    rw [inCircle_eq_zero_iff (mul_pos hw hp).ne', inCircle_eq_zero_iff (mul_neg_of_pos_of_neg hw hy).ne,
      inCircle_eq_zero_iff (mul_neg_of_pos_of_neg hp hy).ne]
    exact ⟨by linarith, by linarith, heq.symm⟩

/-! ### Triangles and their circles -/

/-- The power of a point by the areas it cuts off. -/
theorem inCircle_mul_area (a b c q : Plane) :
    inCircle a b c q * area a b c =
      area b c q * area c a q * distSq a b + area c a q * area a b q * distSq b c +
        area a b q * area b c q * distSq c a := by
  unfold inCircle thales area distSq; ring

theorem distSq_pos {a b : Plane} (h : a ≠ b) : 0 < distSq a b := by
  unfold distSq
  by_contra hle
  refine h (Prod.ext ?_ ?_)
  · nlinarith [sq_nonneg (a.1 - b.1), sq_nonneg (a.2 - b.2)]
  · nlinarith [sq_nonneg (a.1 - b.1), sq_nonneg (a.2 - b.2)]

/-- A point on two sides of a triangle is their common corner. -/
theorem eq_of_areas_zero {a b c q : Plane} (h : 0 < area a b c) (h₁ : area a b q = 0)
    (h₂ : area c a q = 0) : q = a := by
  have hx : area a b c * (q.1 - a.1) = 0 := by
    unfold area at *
    linear_combination (c.1 - a.1) * h₁ + (b.1 - a.1) * h₂
  have hy : area a b c * (q.2 - a.2) = 0 := by
    unfold area at *
    linear_combination (c.2 - a.2) * h₁ + (b.2 - a.2) * h₂
  refine Prod.ext ?_ ?_
  · linarith [(mul_eq_zero.mp hx).resolve_left h.ne']
  · linarith [(mul_eq_zero.mp hy).resolve_left h.ne']

/-- Of two points on a ray from `u`, the nearer one is between; neither is when they are equal. -/
theorem eq_of_not_between (h : area u a b ≠ 0) (h₀ : area u a v = 0) (hv : v ≠ u)
    (hside : 0 ≤ area u v b * area u a b) (ha : 0 ≤ thales u v a) (hva : 0 ≤ thales u a v) : v = a := by
  have hx : area u a b * (v.1 - u.1) = area u v b * (a.1 - u.1) := by
    unfold area at *
    linear_combination (b.1 - u.1) * h₀
  have hy : area u a b * (v.2 - u.2) = area u v b * (a.2 - u.2) := by
    unfold area at *
    linear_combination (b.2 - u.2) * h₀
  have hb : area u v b ≠ 0 := by
    intro hb
    rw [hb, zero_mul] at hx hy
    exact hv (Prod.ext (sub_eq_zero.mp ((mul_eq_zero.mp hx).resolve_left h))
      (sub_eq_zero.mp ((mul_eq_zero.mp hy).resolve_left h)))
  have hpos : 0 < area u v b * area u a b := hside.lt_of_ne (mul_ne_zero hb h).symm
  have hd : 0 < distSq a u := by
    refine distSq_pos fun e => h ?_
    rw [e]
    exact area_self_left u b
  have k₁ : area u a b ^ 2 * thales u v a = area u a b * (area u a b - area u v b) * distSq a u := by
    unfold thales distSq
    linear_combination (-area u a b * (a.1 - u.1)) * hx + (-area u a b * (a.2 - u.2)) * hy
  have k₂ : area u a b ^ 2 * thales u a v = area u v b * (area u v b - area u a b) * distSq a u := by
    unfold thales distSq
    linear_combination (area u a b * (v.1 - a.1) + area u v b * (a.1 - u.1)) * hx +
      (area u a b * (v.2 - a.2) + area u v b * (a.2 - u.2)) * hy
  have l₁ : 0 ≤ area u a b * (area u a b - area u v b) := by
    refine nonneg_of_mul_nonneg_left (k₁ ▸ ?_) hd
    positivity
  have l₂ : 0 ≤ area u v b * (area u v b - area u a b) := by
    refine nonneg_of_mul_nonneg_left (k₂ ▸ ?_) hd
    positivity
  have heq : area u v b = area u a b := by
    by_contra hne
    have hsq : 0 < (area u a b - area u v b) ^ 2 := by
      have := sub_ne_zero.mpr (Ne.symm hne)
      positivity
    have := mul_nonneg l₁ l₂
    have := mul_pos hpos hsq
    nlinarith
  rw [heq] at hx hy
  exact Prod.ext (sub_left_injective (mul_left_cancel₀ h hx))
    (sub_left_injective (mul_left_cancel₀ h hy))

/-- **A triangle meets the outside of its circle in its corners only.** -/
theorem corner_of_outside {a b c q : Plane} (h : 0 < area a b c) (hc : 0 ≤ area a b q)
    (ha : 0 ≤ area b c q) (hb : 0 ≤ area c a q) (hout : inCircle a b c q ≤ 0) :
    q = a ∨ q = b ∨ q = c := by
  have hbc : 0 < area b c a := by rwa [area_rotate]
  have hca : 0 < area c a b := by rwa [← area_rotate]
  have dab := distSq_pos (ne_of_area_pos h)
  have dbc := distSq_pos (ne_of_area_pos hbc)
  have dca := distSq_pos (ne_of_area_pos hca)
  have hle := mul_nonpos_of_nonpos_of_nonneg hout h.le
  rw [inCircle_mul_area] at hle
  -- none of the three terms is positive, so each pair of areas has a zero
  have t₁ := mul_nonneg (mul_nonneg ha hb) dab.le
  have t₂ := mul_nonneg (mul_nonneg hb hc) dbc.le
  have t₃ := mul_nonneg (mul_nonneg hc ha) dca.le
  have z₁ : area b c q * area c a q = 0 :=
    (mul_eq_zero.mp (by linarith : area b c q * area c a q * distSq a b = 0)).resolve_right dab.ne'
  have z₂ : area c a q * area a b q = 0 :=
    (mul_eq_zero.mp (by linarith : area c a q * area a b q * distSq b c = 0)).resolve_right dbc.ne'
  have z₃ : area a b q * area b c q = 0 :=
    (mul_eq_zero.mp (by linarith : area a b q * area b c q * distSq c a = 0)).resolve_right dca.ne'
  rcases mul_eq_zero.mp z₁ with h₁ | h₁
  · rcases mul_eq_zero.mp z₂ with h₂ | h₂
    · exact .inr (.inr (eq_of_areas_zero hca h₂ h₁))
    · exact .inr (.inl (eq_of_areas_zero hbc h₁ h₂))
  · rcases mul_eq_zero.mp z₃ with h₃ | h₃
    · exact .inl (eq_of_areas_zero h h₃ h₁)
    · exact .inr (.inr (eq_of_areas_zero hca h₁ h₃))

/-- Of four points on a circle, the ends of a chord that separates the other two see these in one
order. -/
theorem area_pos_of_inCircle_eq_zero (hw : 0 < area u v w) (hy : area u v y < 0)
    (h : inCircle u v w y = 0) : 0 < area v w y ∧ 0 < area w u y := by
  have hsum := area_add u v w y
  have huv : u ≠ v := ne_of_area_pos hw
  have hvw : v ≠ w := ne_of_area_pos (c := u) (by rwa [area_rotate])
  have hwu : w ≠ u := ne_of_area_pos (c := v) (by rwa [← area_rotate])
  have hyu : u ≠ y := by
    rintro rfl
    exact hy.ne (by unfold area; ring)
  have hyv : v ≠ y := by
    rintro rfl
    exact hy.ne (by unfold area; ring)
  -- otherwise an end of the chord is in the triangle of the others, on its circle and no corner of it
  constructor
  · by_contra hle
    have h₁ : 0 ≤ area w u v := by rw [← area_rotate]; exact hw.le
    have h₂ : 0 ≤ area u y v := by unfold area at hy ⊢; linarith
    have h₃ : 0 ≤ area y w v := by unfold area at hle ⊢; linarith
    have h₀ : inCircle w u y v = 0 := by
      rw [inCircle_swap_last, ← inCircle_rotate, h, neg_zero]
    rcases corner_of_outside (by linarith) h₁ h₂ h₃ h₀.le with e | e | e
    · exact hvw e
    · exact huv e.symm
    · exact hyv e
  · by_contra hle
    have h₁ : 0 ≤ area v w u := by rw [area_rotate]; exact hw.le
    have h₂ : 0 ≤ area w y u := by unfold area at hle ⊢; linarith
    have h₃ : 0 ≤ area y v u := by unfold area at hy ⊢; linarith
    have h₀ : inCircle v w y u = 0 := by
      rw [inCircle_swap_last, inCircle_rotate, h, neg_zero]
    rcases corner_of_outside (by linarith) h₁ h₂ h₃ h₀.le with e | e | e
    · exact huv e
    · exact hwu e.symm
    · exact hyu e

end Prims.Plane

/-! ### The in-circle test of sites -/

namespace Prims

/-- The test of sites is that of their points, in units. -/
theorem Site.inCircle_spot (a b c d : Site) :
    Plane.inCircle a.spot b.spot c.spot d.spot =
      Site.inCircle a b c d / (Single.unitsPerOne : ℝ) ^ 4 := by
  have h := unitsPerOne_pos.ne'
  simp only [Plane.inCircle, Plane.thales, Plane.area, Site.spot, Site.inCircle, Site.distSq]
  push_cast
  field_simp
  ring

end Prims

end
