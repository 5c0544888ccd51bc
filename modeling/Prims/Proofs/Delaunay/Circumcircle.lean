import Mathlib.Geometry.Euclidean.Circumcenter
import Prims.Proofs.Delaunay.Mesh
import Prims.Proofs.Hull.Area

/-!
# Delaunay — Circumcircle

What the in-circle test means.  The profile plane is put into the Euclidean plane (`Plane.euclidean`), where
corners without area are on a line (`collinear_euclidean_iff`).  For corners that are not, a point is in the
circle when it is nearer to the centre than they are, whichever centre that is said of
(`circumcircleContains_iff_of_centre`); the rest follows, since centre and radius do not depend on the order
of the corners.  Main statement: `circumcircleContains_geometric`.
-/

noncomputable section

namespace Prims

open Machine Plane EuclideanGeometry

/-! ### The Euclidean plane -/

namespace Plane

variable {a b c o p q : Plane}

/-- The plane with the Euclidean metric. -/
def euclidean (q : Plane) : EuclideanSpace ℝ (Fin 2) := .toLp _ ![q.1, q.2]

theorem exists_euclidean (o : EuclideanSpace ℝ (Fin 2)) : ∃ q, euclidean q = o := by
  refine ⟨(o 0, o 1), ?_⟩
  ext i
  fin_cases i
  · rfl
  · rfl

theorem dist_euclidean (p q : Plane) : dist (euclidean p) (euclidean q) = √(distSq p q) := by
  rw [EuclideanSpace.dist_eq, Fin.sum_univ_two, Real.dist_eq, Real.dist_eq, sq_abs, sq_abs]
  rfl

theorem distSq_nonneg (p q : Plane) : 0 ≤ distSq p q := add_nonneg (sq_nonneg _) (sq_nonneg _)

theorem dist_euclidean_lt_iff :
    dist (euclidean o) (euclidean p) < dist (euclidean o) (euclidean q) ↔ distSq o p < distSq o q := by
  rw [dist_euclidean, dist_euclidean, Real.sqrt_lt_sqrt_iff (distSq_nonneg o p)]

theorem dist_euclidean_eq_iff :
    dist (euclidean o) (euclidean p) = dist (euclidean o) (euclidean q) ↔ distSq o p = distSq o q := by
  rw [dist_euclidean, dist_euclidean, Real.sqrt_inj (distSq_nonneg o p) (distSq_nonneg o q)]

theorem euclidean_eq_iff {v : EuclideanSpace ℝ (Fin 2)} {r : ℝ} :
    euclidean q = r • v +ᵥ euclidean a ↔ q.1 = r * v 0 + a.1 ∧ q.2 = r * v 1 + a.2 := by
  constructor
  · intro h
    exact ⟨congrArg (· 0) h, congrArg (· 1) h⟩
  · rintro ⟨h₀, h₁⟩
    ext i
    fin_cases i
    · exact h₀
    · exact h₁

/-- **Corners are on a line when they have no area.** -/
theorem collinear_euclidean_iff : Collinear ℝ {euclidean a, euclidean b, euclidean c} ↔ area a b c = 0 := by
  rw [collinear_iff_of_mem (Set.mem_insert (euclidean a) _)]
  simp only [Set.forall_mem_insert, Set.mem_singleton_iff, forall_eq, euclidean_eq_iff]
  constructor
  · rintro ⟨v, -, ⟨r, hb₁, hb₂⟩, s, hc₁, hc₂⟩
    rw [area, hb₁, hb₂, hc₁, hc₂]
    ring
  · intro h
    rcases eq_or_ne a b with rfl | hne
    · exact ⟨euclidean (c - a), ⟨0, by simp, by simp⟩, ⟨0, by simp, by simp⟩, 1, by simp [euclidean],
        by simp [euclidean]⟩
    · -- along the side, by the share of it that the third corner projects to
      have hd := (distSq_pos hne).ne'
      refine ⟨euclidean (b - a), ⟨0, by simp, by simp⟩, ⟨1, by simp [euclidean], by simp [euclidean]⟩,
        ((c.1 - a.1) * (b.1 - a.1) + (c.2 - a.2) * (b.2 - a.2)) / distSq a b, ?_, ?_⟩
      · show c.1 = _ * (b.1 - a.1) + a.1
        field_simp
        unfold distSq area at *
        linear_combination -(b.2 - a.2) * h
      · show c.2 = _ * (b.2 - a.2) + a.2
        field_simp
        unfold distSq area at *
        linear_combination (b.1 - a.1) * h

end Plane

/-! ### Finite points -/

namespace Point

/-- The place of a point in the profile plane. -/
def planar (p : Point) : EuclideanSpace ℝ (Fin 2) := euclidean (real p.x, real p.y)

/-- The planar coordinates are finite. -/
def IsPlanar (p : Point) : Prop := IsFinite p.x ∧ IsFinite p.y

instance (p : Point) : Decidable p.IsPlanar :=
  inferInstanceAs (Decidable ((parts p.x).isFinite = true ∧ (parts p.y).isFinite = true))

theorem IsPlanar.exists_spot {p : Point} (h : p.IsPlanar) :
    ∃ s, p.site? = some s ∧ p.planar = euclidean s.spot := by
  obtain ⟨s, hs⟩ := exists_site h.1 h.2
  obtain ⟨⟨-, hx⟩, -, hy⟩ := spot_of_site? hs
  exact ⟨s, hs, congrArg euclidean (Prod.ext hx.symm hy.symm)⟩

end Point

namespace Corners

open Point (planar)

variable {k : Corners} {p : Point}

/-- The planar coordinates of the corners are finite. -/
def IsPlanar (k : Corners) : Prop := ∀ q ∈ k.points, q.IsPlanar

instance (k : Corners) : Decidable k.IsPlanar := inferInstanceAs (Decidable (∀ q ∈ k.points, q.IsPlanar))

/-- The places of the corners. -/
def spots (k : Corners) : Set (EuclideanSpace ℝ (Fin 2)) := {v | ∃ q ∈ k.points, q.planar = v}

theorem spots_eq (k : Corners) : k.spots = {k.a.planar, k.b.planar, k.c.planar} := by
  ext v
  simp [spots, points, eq_comm]

/-- The area of the corners and the place of a point in their circle, as the test sees them. -/
theorem exists_spots (hk : k.IsPlanar) (hp : p.IsPlanar) : ∃ a b c d : Plane,
    k.a.planar = euclidean a ∧ k.b.planar = euclidean b ∧ k.c.planar = euclidean c ∧
    p.planar = euclidean d ∧ (k.circumcircleContains p = true ↔ 0 < area a b c * inCircle a b c d) := by
  obtain ⟨a, ha, ha'⟩ := (hk k.a (by simp [points])).exists_spot
  obtain ⟨b, hb, hb'⟩ := (hk k.b (by simp [points])).exists_spot
  obtain ⟨c, hc, hc'⟩ := (hk k.c (by simp [points])).exists_spot
  obtain ⟨d, hd, hd'⟩ := hp.exists_spot
  exact ⟨_, _, _, _, ha', hb', hc', hd', circumcircleContains_iff ha hb hc hd⟩

/-- Corners on a line have no circle. -/
theorem circumcircleContains_of_collinear (hk : k.IsPlanar) (hp : p.IsPlanar) (h : Collinear ℝ k.spots) :
    k.circumcircleContains p = false := by
  obtain ⟨a, b, c, d, ha, hb, hc, -, hiff⟩ := exists_spots hk hp
  rw [spots_eq, ha, hb, hc, collinear_euclidean_iff] at h
  rw [← Bool.not_eq_true, hiff, h, zero_mul]
  exact lt_irrefl 0

/-- **A point is in the circle when it is nearer to its centre**: to any place that the corners, which are
not on a line, are equally far from. -/
theorem circumcircleContains_iff_of_centre (hk : k.IsPlanar) (hp : p.IsPlanar) (h : ¬ Collinear ℝ k.spots)
    {o : EuclideanSpace ℝ (Fin 2)} {r : ℝ} (ho : ∀ v ∈ k.spots, dist v o = r) :
    k.circumcircleContains p = true ↔ dist p.planar o < r := by
  obtain ⟨a, b, c, d, ha, hb, hc, hd, hiff⟩ := exists_spots hk hp
  obtain ⟨o, rfl⟩ := exists_euclidean o
  rw [spots_eq, ha, hb, hc, collinear_euclidean_iff] at h
  simp only [spots_eq, ha, hb, hc, Set.forall_mem_insert, Set.mem_singleton_iff, forall_eq,
    dist_comm _ (euclidean o)] at ho
  obtain ⟨rfl, hob, hoc⟩ := ho
  rw [hiff, hd, dist_comm, dist_euclidean_lt_iff]
  exact nearer_centre_iff h (dist_euclidean_eq_iff.mp hob.symm) (dist_euclidean_eq_iff.mp hoc.symm) d

/-- The triangle of corners that are not on a line. -/
theorem exists_triangle (h : ¬ Collinear ℝ k.spots) :
    ∃ t : Affine.Triangle ℝ (EuclideanSpace ℝ (Fin 2)), t.points = ![k.a.planar, k.b.planar, k.c.planar] :=
  ⟨⟨_, affineIndependent_iff_not_collinear_set.mpr (spots_eq k ▸ h)⟩, rfl⟩

/-- The corners are a radius away from the centre of their triangle. -/
theorem dist_circumcenter {t : Affine.Triangle ℝ (EuclideanSpace ℝ (Fin 2))}
    (ht : t.points = ![k.a.planar, k.b.planar, k.c.planar]) :
    ∀ v ∈ k.spots, dist v t.circumcenter = t.circumradius := by
  have h (i : Fin 3) := t.dist_circumcenter_eq_circumradius i
  rw [ht] at h
  rw [spots_eq]
  rintro v (rfl | rfl | rfl)
  · exact h 0
  · exact h 1
  · exact h 2

/-- What is as far from some centre as the corners is not in their circle. -/
theorem circumcircleContains_of_cospherical (hk : k.IsPlanar) (hp : p.IsPlanar)
    (h : Cospherical (insert p.planar k.spots)) : k.circumcircleContains p = false := by
  by_cases hline : Collinear ℝ k.spots
  · exact circumcircleContains_of_collinear hk hp hline
  · obtain ⟨o, r, ho⟩ := h
    rw [← Bool.not_eq_true, circumcircleContains_iff_of_centre hk hp hline
      fun v hv => ho v (Set.mem_insert_of_mem _ hv)]
    exact (ho _ (Set.mem_insert _ _)).not_lt

/-- The corners are on their own circle. -/
theorem circumcircleContains_corner (hk : k.IsPlanar) (hp : p ∈ k.points) :
    k.circumcircleContains p = false := by
  by_cases hline : Collinear ℝ k.spots
  · exact circumcircleContains_of_collinear hk (hk p hp) hline
  · obtain ⟨t, ht⟩ := exists_triangle hline
    refine circumcircleContains_of_cospherical hk (hk p hp) ⟨t.circumcenter, t.circumradius, ?_⟩
    rw [Set.insert_eq_of_mem (show p.planar ∈ k.spots from ⟨p, hp, rfl⟩)]
    exact dist_circumcenter ht

/-- The order of the corners does not matter. -/
theorem circumcircleContains_perm {k' : Corners} (hk : k.IsPlanar) (hp : p.IsPlanar)
    (h : k'.points.Perm k.points) : k'.circumcircleContains p = k.circumcircleContains p := by
  have hk' : k'.IsPlanar := fun q hq => hk q (h.mem_iff.mp hq)
  have hspots : k'.spots = k.spots := by
    ext v
    exact exists_congr fun q => and_congr_left' h.mem_iff
  by_cases hline : Collinear ℝ k.spots
  · rw [circumcircleContains_of_collinear hk hp hline,
      circumcircleContains_of_collinear hk' hp (hspots ▸ hline)]
  · obtain ⟨t, ht⟩ := exists_triangle hline
    have ho := dist_circumcenter ht
    rw [Bool.eq_iff_iff, circumcircleContains_iff_of_centre hk hp hline ho,
      circumcircleContains_iff_of_centre hk' hp (hspots ▸ hline) (hspots ▸ ho)]

/-- **The in-circle test is geometric.**  A finite point passes it exactly when the finite corners are not on
a line and it is nearer to their circumcentre than the circumradius.  The order of the corners does not
matter, and neither a corner nor any other point on a circle with the corners passes. -/
theorem circumcircleContains_geometric (k : Corners) (p : Point) (hk : k.IsPlanar) (hp : p.IsPlanar) :
    (k.circumcircleContains p = true ↔ ¬ Collinear ℝ {k.a.planar, k.b.planar, k.c.planar} ∧
      ∃ t : Affine.Triangle ℝ (EuclideanSpace ℝ (Fin 2)),
        t.points = ![k.a.planar, k.b.planar, k.c.planar] ∧
        dist p.planar t.circumcenter ^ 2 < t.circumradius ^ 2) ∧
    (∀ k' : Corners, k'.points.Perm k.points → k'.circumcircleContains p = k.circumcircleContains p) ∧
    (∀ q ∈ k.points, k.circumcircleContains q = false) ∧
    (Cospherical {p.planar, k.a.planar, k.b.planar, k.c.planar} → k.circumcircleContains p = false) := by
  rw [← spots_eq]
  refine ⟨⟨fun h => ?_, fun ⟨hline, t, ht, hlt⟩ => ?_⟩, fun k' => circumcircleContains_perm hk hp,
    fun q => circumcircleContains_corner hk, circumcircleContains_of_cospherical hk hp⟩
  · have hline : ¬ Collinear ℝ k.spots := fun hline =>
      Bool.false_ne_true ((circumcircleContains_of_collinear hk hp hline).symm.trans h)
    obtain ⟨t, ht⟩ := exists_triangle hline
    have hlt := (circumcircleContains_iff_of_centre hk hp hline (dist_circumcenter ht)).mp h
    exact ⟨hline, t, ht, pow_lt_pow_left₀ hlt dist_nonneg two_ne_zero⟩
  · rw [circumcircleContains_iff_of_centre hk hp hline (dist_circumcenter ht)]
    exact lt_of_pow_lt_pow_left₀ 2 t.circumradius_nonneg hlt

/-- Half of the unit square. -/
def half : Corners := ⟨.flat 0 0, .flat 1 0, .flat 0 1⟩

/-- A point beyond the long side is in the circle of the half square, whichever way this is wound; the
fourth corner of the square is on the circle. -/
theorem circumcircleContains_geometric_half :
    half.IsPlanar ∧ (Point.flat 0.875 0.875).IsPlanar ∧ (Point.flat 1 1).IsPlanar ∧
    (∃ t : Affine.Triangle ℝ (EuclideanSpace ℝ (Fin 2)),
      t.points = ![half.a.planar, half.b.planar, half.c.planar] ∧
      dist (Point.flat 0.875 0.875).planar t.circumcenter ^ 2 < t.circumradius ^ 2) ∧
    Corners.circumcircleContains ⟨half.a, half.c, half.b⟩ (.flat 0.875 0.875) = true ∧
    half.circumcircleContains (.flat 1 1) = false := by
  have hhalf : half.IsPlanar := by decide +kernel
  have hin : (Point.flat 0.875 0.875).IsPlanar := by decide +kernel
  have hon : (Point.flat 1 1).IsPlanar := by decide +kernel
  have hcontains : half.circumcircleContains (.flat 0.875 0.875) = true := by decide +kernel
  obtain ⟨hiff, hperm, -, -⟩ := circumcircleContains_geometric half _ hhalf hin
  obtain ⟨-, -, -, hcircle⟩ := circumcircleContains_geometric half _ hhalf hon
  refine ⟨hhalf, hin, hon, (hiff.mp hcontains).2, ?_, hcircle ⟨euclidean (1 / 2, 1 / 2), √(1 / 2), ?_⟩⟩
  · rw [hperm ⟨half.a, half.c, half.b⟩ ((List.Perm.swap _ _ _).cons _)]
    exact hcontains
  · have h₀ : real (0 : Float32) = 0 := value_zero .positive
    have h₁ := Single.real_one.2
    simp only [Set.forall_mem_insert, Set.mem_singleton_iff, forall_eq, Point.planar, half, Point.flat,
      dist_euclidean, distSq, h₀, h₁]
    norm_num

end Corners

end Prims

end
