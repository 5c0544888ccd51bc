import Prims.Proofs.Geometry.Direction
import Prims.Proofs.Number.Widening

/-!
# Geometry — Normal

Whether corners are flat is decided in doubles, against the longest edge, and the normal is computed in
singles.  With edges of moderate length both are close to the exact cross product, and corners that are not
flat have a normal of length one (`measurable_of_not_isFlat`): flat are all whose exact cross product is small
against the longest edge (`isFlat_of_thin`), and what is left is larger than the rounding errors in singles.
-/

namespace Prims.Corners

open Float.Model Machine

variable {k : Corners}

/-! ### Exact measures -/

/-- All positions are finite. -/
def IsFinite (k : Corners) : Prop := k.a.IsFinite ∧ k.b.IsFinite ∧ k.c.IsFinite

/-- The squared length of the longest edge, exactly. -/
noncomputable def span (k : Corners) : ℝ :=
  max (max (k.b.exact - k.a.exact).normSq (k.c.exact - k.b.exact).normSq) (k.a.exact - k.c.exact).normSq

/-- Finite corners of a moderate size: the longest edge has a length from `2⁻²⁰` to `2³⁰`. -/
structure Moderate (k : Corners) : Prop where
  finite : k.IsFinite
  least : 1 / 2 ^ 40 ≤ k.span
  largest : k.span ≤ 2 ^ 60

/-- The cross product of which the normal is the direction, -/
def normalCross (k : Corners) : Point := (k.a - k.b).cross (k.a - k.c)

/-- and exactly. -/
noncomputable def exactCross (k : Corners) : Vec ℝ := (k.a.exact - k.b.exact).cross (k.a.exact - k.c.exact)

theorem edges_le (k : Corners) : (k.b.exact - k.a.exact).normSq ≤ k.span ∧
    (k.c.exact - k.b.exact).normSq ≤ k.span ∧ (k.a.exact - k.c.exact).normSq ≤ k.span :=
  ⟨(le_max_left _ _).trans (le_max_left _ _), (le_max_right _ _).trans (le_max_left _ _), le_max_right _ _⟩

/-- The same cross product from the edges that leave the first corner the other way. -/
theorem exactCross_eq (k : Corners) :
    (k.b.exact - k.a.exact).cross (k.c.exact - k.a.exact) = k.exactCross := by
  obtain ⟨⟨ax, ay, az⟩, ⟨bx, by', bz⟩, ⟨cx, cy, cz⟩⟩ := k
  show (⟨_, _, _⟩ : Vec ℝ) = ⟨_, _, _⟩
  congr 1 <;>
  · show (_ - _) * (_ - _) - (_ - _) * (_ - _) = (_ - _) * (_ - _) - (_ - _) * (_ - _)
    ring

/-- A cross product is no longer than its factors allow. -/
theorem normSq_cross_le (D E : Vec ℝ) : (D.cross E).normSq ≤ D.normSq * E.normSq := by
  have hdot := sq_nonneg (D.x * E.x + D.y * E.y + D.z * E.z)
  unfold Vec.cross Vec.normSq
  dsimp only
  linarith

theorem normSq_exactCross_le (k : Corners) : k.exactCross.normSq ≤ k.span ^ 2 := by
  obtain ⟨hab, -, hca⟩ := k.edges_le
  rw [Vec.normSq_sub_swap] at hab
  calc k.exactCross.normSq ≤ _ := normSq_cross_le _ _
    _ ≤ k.span * k.span := mul_le_mul hab hca (Vec.normSq_nonneg _) ((Vec.normSq_nonneg _).trans hab)
    _ = k.span ^ 2 := (sq _).symm

/-! ### Flatness in doubles -/

theorem widen_exact {p : Point} (hp : p.IsFinite) : p.widen.IsFinite ∧ p.widen.exact = p.exact := by
  obtain ⟨hx, hy, hz⟩ := hp
  obtain ⟨hxf, hx⟩ := Single.real_widen hx
  obtain ⟨hyf, hy⟩ := Single.real_widen hy
  obtain ⟨hzf, hz⟩ := Single.real_widen hz
  refine ⟨⟨hxf, hyf, hzf⟩, ?_⟩
  show (⟨real (Single.widen p.x), real (Single.widen p.y), real (Single.widen p.z)⟩ : Vec ℝ) = ⟨_, _, _⟩
  rw [hx, hy, hz]

theorem flatness_bounds : Machine.IsFinite flatness ∧ 999 / 10 ^ 9 ≤ real flatness ∧ real flatness ≤ 1 := by
  have hparts : parts flatness = .finite .positive 4722366482869645 (-72) (by decide) := rfl
  obtain ⟨hfinite, hreal⟩ : Machine.IsFinite flatness ∧ real flatness = 4722366482869645 / 2 ^ 72 :=
    exact_of_parts hparts (by norm_num [unit])
  rw [hreal]
  exact ⟨hfinite, by norm_num, by norm_num⟩

theorem double_roundoff : roundoff (format Float) = 1 / 2 ^ 53 := by
  show (2 : ℝ) ^ (-53 : ℤ) = _
  norm_num

/-- An edge in doubles. -/
theorem edge_tracks {p q : Point} (hp : p.IsFinite) (hq : q.IsFinite)
    (h : (p.exact - q.exact).normSq ≤ 2 ^ 60) : (p.widen - q.widen).Tracks (p.exact - q.exact) := by
  obtain ⟨hpf, hpe⟩ := widen_exact hp
  obtain ⟨hqf, hqe⟩ := widen_exact hq
  have := Vec.sub_tracks hpf hqf (by rwa [hpe, hqe])
  rwa [hpe, hqe] at this

/-- **The longest edge** in doubles. -/
theorem longestSq_bounds (h : k.Moderate) : Machine.IsFinite k.longestSq ∧
    999 / 1000 * k.span ≤ real k.longestSq ∧ real k.longestSq ≤ 2 * k.span := by
  obtain ⟨⟨ha, hb, hc⟩, hleast, hlargest⟩ := h
  obtain ⟨hab, hbc, hca⟩ := k.edges_le
  have hη := underflow_bounds (F := Float)
  have hedge {p q : Point} (hp : p.IsFinite) (hq : q.IsFinite) (hle : (p.exact - q.exact).normSq ≤ k.span) :
      Machine.IsFinite (p.widen - q.widen).normSq ∧
        (p.exact - q.exact).normSq ≤ real (p.widen - q.widen).normSq + 1 / 1000 * k.span ∧
        real (p.widen - q.widen).normSq ≤ 2 * k.span := by
    obtain ⟨hfinite, herror⟩ := (edge_tracks hp hq (hle.trans hlargest)).normSq (hle.trans hlargest)
    rw [double_roundoff] at herror
    have hnonneg := (p.exact - q.exact).normSq_nonneg
    obtain ⟨hlow, hhigh⟩ := abs_le.mp herror
    exact ⟨hfinite, by linarith, by linarith⟩
  obtain ⟨habf, hab, hab'⟩ := hedge hb ha hab
  obtain ⟨hbcf, hbc, hbc'⟩ := hedge hc hb hbc
  obtain ⟨hcaf, hca, hca'⟩ := hedge ha hc hca
  have hu := (k.b.widen - k.a.widen).normSq_isUnsigned
  have hu' := (k.c.widen - k.b.widen).normSq_isUnsigned
  obtain ⟨hfinite, hreal⟩ := Double.greatest_real hu hu' habf hbcf
  obtain ⟨hfinite', hreal'⟩ := Double.greatest_real (Double.rank_greatest hu hu').2
    (k.a.widen - k.c.widen).normSq_isUnsigned hfinite hcaf
  rw [hreal] at hreal'
  replace hreal' : real k.longestSq = _ := hreal'
  refine ⟨hfinite', ?_, ?_⟩
  · have hspan : k.span ≤ real k.longestSq + 1 / 1000 * k.span := by
      rw [hreal']
      refine max_le (max_le (hab.trans ?_) (hbc.trans ?_)) (hca.trans ?_)
      · gcongr
        exact (le_max_left _ _).trans (le_max_left _ _)
      · gcongr
        exact (le_max_right _ _).trans (le_max_left _ _)
      · gcongr
        exact le_max_right _ _
    linarith
  · rw [hreal']
    exact max_le (max_le hab' hbc') hca'

/-- The exact cross product is small against the longest edge. -/
def Thin (k : Corners) : Prop := k.exactCross.Within (57 / 10 ^ 8 * k.span) ⟨0, 0, 0⟩

theorem mul_self_le {X r : ℝ} (h : |X| ≤ r) : X * X ≤ r ^ 2 := by
  rw [← sq, ← sq_abs]
  exact pow_le_pow_left₀ (abs_nonneg X) h 2

theorem le_mul_self {X r : ℝ} (hr : 0 ≤ r) (h : r ≤ |X|) : r ^ 2 ≤ X * X := by
  rw [← sq, ← sq_abs X]
  exact pow_le_pow_left₀ hr h 2

theorem Moderate.sq_span_bounds (h : k.Moderate) : 1 / 2 ^ 80 ≤ k.span ^ 2 ∧ k.span ^ 2 ≤ 2 ^ 120 := by
  obtain ⟨-, hleast, hlargest⟩ := h
  constructor <;> nlinarith

/-- The squared length, in doubles, of a cross product of thin corners. -/
theorem crossSq_of_thin (h : k.Moderate) (hthin : k.Thin) :
    let v := (k.b.widen - k.a.widen).cross (k.c.widen - k.a.widen)
    Machine.IsFinite v.normSq ∧ real v.normSq ≤ (99 / 10 ^ 8 * k.span) ^ 2 := by
  intro v
  obtain ⟨hspan, hspan'⟩ := h.sq_span_bounds
  obtain ⟨⟨ha, hb, hc⟩, hleast, hlargest⟩ := h
  obtain ⟨hab, -, hca⟩ := k.edges_le
  rw [Vec.normSq_sub_swap k.a.exact] at hca
  have hη := (underflow_bounds (F := Float)).2
  obtain ⟨hcrossf, hx, hy, hz⟩ := (edge_tracks hb ha (hab.trans hlargest)).cross
    (edge_tracks hc ha (hca.trans hlargest)) hab hca hlargest
  rw [exactCross_eq, double_roundoff] at hx hy hz
  obtain ⟨hx', hy', hz'⟩ := hthin
  simp only [sub_zero] at hx' hy' hz'
  have hcomponent {X Y : ℝ} (hXY : |X - Y| ≤ 9 / 2 * (1 / 2 ^ 53) * k.span + 3 * underflow (format Float))
      (hY : |Y| ≤ 57 / 10 ^ 8 * k.span) : X * X ≤ (571 / 10 ^ 9 * k.span) ^ 2 :=
    mul_self_le (by linarith [abs_sub_abs_le_abs_sub X Y])
  have hexact : v.exact.normSq ≤ 3 * (571 / 10 ^ 9 * k.span) ^ 2 := by
    have hx := hcomponent hx hx'
    have hy := hcomponent hy hy'
    have hz := hcomponent hz hz'
    show v.exact.x * v.exact.x + v.exact.y * v.exact.y + v.exact.z * v.exact.z ≤ _
    linarith
  rw [mul_pow] at hexact
  have hfinite := Vec.normSq_finite hcrossf (by linarith)
  have herror := Vec.normSq_error hfinite
  rw [double_roundoff] at herror
  refine ⟨hfinite, ?_⟩
  rw [mul_pow]
  linarith [(abs_le.mp herror).2]

theorem doubleArea_of_thin (h : k.Moderate) (hthin : k.Thin) :
    Machine.IsFinite k.doubleArea ∧ real k.doubleArea ≤ 991 / 10 ^ 9 * k.span := by
  obtain ⟨hsquaref, hsquare⟩ := crossSq_of_thin h hthin
  obtain ⟨-, hleast, hlargest⟩ := h
  have hη := (underflow_bounds (F := Float)).2
  have hroot : √(real _) ≤ 99 / 10 ^ 8 * k.span := Real.sqrt_le_iff.mpr ⟨by linarith, hsquare⟩
  have hresults : Results √(real _) k.doubleArea :=
    sqrt_results hsquaref (real_nonneg hsquaref (Vec.normSq_isUnsigned _))
  have hfinite : Machine.IsFinite k.doubleArea := by
    refine hresults.finite ?_
    rw [abs_of_nonneg (Real.sqrt_nonneg _)]
    linarith [Precise.le_ceiling (F := Float)]
  have herror := hresults.error hfinite
  rw [abs_of_nonneg (Real.sqrt_nonneg _), double_roundoff] at herror
  exact ⟨hfinite, by linarith [(abs_le.mp herror).2]⟩

/-- The area at which the corners count as flat. -/
theorem flatness_mul_longestSq (h : k.Moderate) : Machine.IsFinite (flatness * k.longestSq) ∧
    997 / 10 ^ 9 * k.span ≤ real (flatness * k.longestSq) := by
  obtain ⟨hlongestf, hlongest, hlongest'⟩ := longestSq_bounds h
  obtain ⟨hflatf, hflat, hflat'⟩ := flatness_bounds
  obtain ⟨-, hleast, hlargest⟩ := h
  have hη := (underflow_bounds (F := Float)).2
  have hceiling := Precise.le_ceiling (F := Float)
  have hlow : 999 / 10 ^ 9 * (999 / 1000 * k.span) ≤ real flatness * real k.longestSq := by gcongr
  have hhigh : real flatness * real k.longestSq ≤ 1 * (2 * k.span) := by
    gcongr
    linarith
  have hfinite : Machine.IsFinite (flatness * k.longestSq) := by
    refine (mul_results hflatf hlongestf).finite ?_
    rw [abs_of_nonneg (by linarith)]
    linarith
  have herror := mul_error hfinite
  rw [abs_of_nonneg (show 0 ≤ real flatness * real k.longestSq by linarith), double_roundoff] at herror
  exact ⟨hfinite, by linarith [(abs_le.mp herror).1]⟩

/-- **Thin corners are flat**: the error of doubles is too small to save them. -/
theorem isFlat_of_thin (h : k.Moderate) (hthin : k.Thin) : k.isFlat = true := by
  obtain ⟨hareaf, harea⟩ := doubleArea_of_thin h hthin
  obtain ⟨hboundf, hbound⟩ := flatness_mul_longestSq h
  have hle : k.doubleArea ≤ flatness * k.longestSq := by
    rw [le_iff hareaf hboundf]
    linarith [h.least]
  show (_ || decide _) = true
  rw [decide_eq_true hle, Bool.or_true]

/-! ### The normal in singles -/

/-- The error of the cross product in singles. -/
theorem normalCross_error (h : k.Moderate) : k.normalCross.IsFinite ∧
    k.normalCross.exact.Within (3 / 10 ^ 7 * k.span) k.exactCross := by
  obtain ⟨⟨ha, hb, hc⟩, hleast, hlargest⟩ := h
  obtain ⟨hab, -, hca⟩ := k.edges_le
  rw [Vec.normSq_sub_swap] at hab
  obtain ⟨hfinite, hx, hy, hz⟩ := (Vec.sub_tracks ha hb (hab.trans hlargest)).cross
    (Vec.sub_tracks ha hc (hca.trans hlargest)) hab hca hlargest
  rw [Single.roundoff_format, Single.underflow_format] at hx hy hz
  exact ⟨hfinite, hx.trans (by linarith), hy.trans (by linarith), hz.trans (by linarith)⟩

/-- The squared length of the cross product in singles is within the range, -/
theorem normSq_normalCross_le (h : k.Moderate) : k.normalCross.exact.normSq ≤ 12 * k.span ^ 2 := by
  obtain ⟨-, hx, hy, hz⟩ := normalCross_error h
  have hspan : 0 ≤ k.span := le_trans (by positivity) h.least
  have hlength := k.normSq_exactCross_le
  unfold Vec.normSq at hlength ⊢
  have hX := mul_self_nonneg k.exactCross.x
  have hY := mul_self_nonneg k.exactCross.y
  have hZ := mul_self_nonneg k.exactCross.z
  have hcomponent {X Y : ℝ} (hXY : |X - Y| ≤ 3 / 10 ^ 7 * k.span) (hY : Y * Y ≤ k.span ^ 2) :
      X * X ≤ (2 * k.span) ^ 2 := by
    have hY : |Y| ≤ k.span := abs_le_of_sq_le_sq (by rwa [sq]) hspan
    exact mul_self_le (by linarith [abs_sub_abs_le_abs_sub X Y])
  linarith [hcomponent hx (by linarith), hcomponent hy (by linarith), hcomponent hz (by linarith)]

/-- and not lost unless the corners are thin. -/
theorem le_normSq_normalCross (h : k.Moderate) (hthin : ¬ k.Thin) :
    1 / 2 ^ 44 * k.span ^ 2 ≤ k.normalCross.exact.normSq := by
  obtain ⟨-, hx, hy, hz⟩ := normalCross_error h
  have hspan : 0 ≤ k.span := le_trans (by positivity) h.least
  unfold Vec.normSq
  have hX := mul_self_nonneg k.normalCross.exact.x
  have hY := mul_self_nonneg k.normalCross.exact.y
  have hZ := mul_self_nonneg k.normalCross.exact.z
  have hcomponent {X Y : ℝ} (hXY : |X - Y| ≤ 3 / 10 ^ 7 * k.span) (hY : 57 / 10 ^ 8 * k.span < |Y|) :
      (1 / 2 ^ 22 * k.span) ^ 2 ≤ X * X := by
    rw [abs_sub_comm] at hXY
    exact le_mul_self (by positivity) (by linarith [abs_sub_abs_le_abs_sub Y X])
  simp only [Thin, Vec.Within, sub_zero, not_and_or, not_le] at hthin
  rcases hthin with hthin | hthin | hthin
  · linarith [hcomponent hx hthin]
  · linarith [hcomponent hy hthin]
  · linarith [hcomponent hz hthin]

/-- **Corners that are not flat can be measured** in singles, when they are of moderate size. -/
theorem measurable_of_not_isFlat (h : k.Moderate) (hflat : k.isFlat = false) :
    k.normalCross.Measurable ∧ 1 / 2 ^ 125 ≤ real k.normalCross.normSq := by
  have hthin : ¬ k.Thin := fun hthin => Bool.false_ne_true (hflat.symm.trans (isFlat_of_thin h hthin))
  obtain ⟨hspan, hspan'⟩ := h.sq_span_bounds
  have hlow := le_normSq_normalCross h hthin
  have hfinite := Vec.normSq_finite (normalCross_error h).1 (by linarith [normSq_normalCross_le h])
  have herror := Vec.normSq_error hfinite
  rw [Single.roundoff_format, Single.underflow_format] at herror
  have hsize : 1 / 2 ^ 125 ≤ real k.normalCross.normSq := by linarith [(abs_le.mp herror).1]
  exact ⟨Point.measurable_iff.mpr ⟨hfinite, by linarith⟩, hsize⟩

/-- **A normal is of use** when its cross product can be measured. -/
theorem usable_normal_iff (k : Corners) : k.normal.Usable ↔ k.normalCross.Measurable :=
  Point.direction_usable_iff

/-- **Corners that are not flat have a normal of length one**, when they are of moderate size. -/
theorem normal_unit (h : k.Moderate) (hflat : k.isFlat = false) :
    k.normal.Usable ∧ |k.normal.exact.normSq - 1| ≤ 1 / 2 ^ 19 := by
  obtain ⟨hmeasurable, hsize⟩ := measurable_of_not_isFlat h hflat
  refine ⟨k.usable_normal_iff.mpr hmeasurable, ?_⟩
  rw [show k.normal = _ from congrArg (Option.getD · Point.origin) hmeasurable.direction_eq]
  exact hmeasurable.unit hsize

end Prims.Corners
