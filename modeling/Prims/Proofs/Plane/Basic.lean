import Mathlib.Analysis.Convex.Combination
import Mathlib.Analysis.Convex.Topology
import Mathlib.Analysis.Normed.Group.AddTorsor
import Mathlib.Analysis.Normed.Ring.Basic
import Mathlib.Topology.Instances.Real.Lemmas
import Mathlib.Tactic.Linarith
import Mathlib.Tactic.Ring
import Mathlib.Tactic.LinearCombination
import Mathlib.Tactic.FieldSimp
import Prims.Geometry.Corners

/-!
# Plane — Basic

The plane of the profiles over the real numbers.  A site stands for a point of it (`Site.spot`), and
the signed area of sites is that of their points up to a positive factor.  Triangles are convex hulls
of three points; `mem_triangle_iff` and `mem_interior_iff` read them and their interiors as three
signs of areas.
-/

noncomputable section

namespace Prims

/-- The plane of the profiles. -/
abbrev Plane := ℝ × ℝ

namespace Plane

/-- Twice the signed area of the triangle `a b c`, positive when counter-clockwise. -/
def area (a b c : Plane) : ℝ := (b.1 - a.1) * (c.2 - a.2) - (b.2 - a.2) * (c.1 - a.1)

theorem area_rotate (a b c : Plane) : area b c a = area a b c := by
  unfold area; ring

theorem area_swap (a b c : Plane) : area b a c = -area a b c := by
  unfold area; ring

theorem area_swap_last (a b c : Plane) : area a c b = -area a b c := by
  unfold area; ring

theorem area_self_left (a c : Plane) : area a a c = 0 := by
  unfold area; ring

theorem area_neg (a b c : Plane) : area (-a) (-b) (-c) = area a b c := by
  simp only [area, Prod.fst_neg, Prod.snd_neg]; ring

/-- The areas a point cuts off the three sides add up to the triangle's. -/
theorem area_add (a b c q : Plane) : area a b q + area b c q + area c a q = area a b c := by
  unfold area; ring

theorem ne_of_area_pos {a b c : Plane} (h : 0 < area a b c) : a ≠ b := by
  rintro rfl
  exact h.ne' (area_self_left a c)

/-- The area over a side is affine in the third corner. -/
theorem area_lineMap (a b p q : Plane) (s : ℝ) :
    area a b (AffineMap.lineMap p q s) = (1 - s) * area a b p + s * area a b q := by
  simp only [area, AffineMap.lineMap_apply_module, Prod.fst_add, Prod.snd_add, Prod.smul_fst,
    Prod.smul_snd, smul_eq_mul]
  ring

/-- The closed triangle with three given corners. -/
def triangle (a b c : Plane) : Set Plane := convexHull ℝ {a, b, c}

theorem triangle_rotate (a b c : Plane) : triangle b c a = triangle a b c := by
  unfold triangle
  congr 1
  ext x
  simp only [Set.mem_insert_iff, Set.mem_singleton_iff]
  tauto

theorem triangle_swap (a b c : Plane) : triangle b a c = triangle a b c := by
  unfold triangle
  rw [Set.insert_comm]

theorem triangle_flip (a b c : Plane) : triangle a c b = triangle a b c := by
  rw [← triangle_rotate, triangle_swap, triangle_rotate]

/-- The points on or to the left of the line `a b` form a half-plane. -/
theorem convex_left (a b : Plane) : Convex ℝ {q | 0 ≤ area a b q} := by
  intro p hp q hq s t hs ht hst
  have key : area a b (s • p + t • q) = s * area a b p + t * area a b q := by
    obtain rfl : s = 1 - t := by linarith
    rw [← AffineMap.lineMap_apply_module, area_lineMap]
  show 0 ≤ area a b (s • p + t • q)
  rw [key]
  exact add_nonneg (mul_nonneg hs hp) (mul_nonneg ht hq)

/-- A point of a counter-clockwise triangle lies to the left of no side's right. -/
theorem area_nonneg_of_mem {a b c q : Plane} (h : 0 < area a b c) (hq : q ∈ triangle a b c) :
    0 ≤ area a b q := by
  refine convexHull_min ?_ (convex_left a b) hq
  rintro x (rfl | rfl | rfl)
  · simp [area]
  · show (0 : ℝ) ≤ area a x x
    rw [← area_rotate, area_self_left]
  · exact h.le

/-- **Membership by signs.**  A point lies in a counter-clockwise triangle when it lies to the right
of no side. -/
theorem mem_triangle_iff {a b c q : Plane} (h : 0 < area a b c) :
    q ∈ triangle a b c ↔ 0 ≤ area a b q ∧ 0 ≤ area b c q ∧ 0 ≤ area c a q := by
  refine ⟨fun hq => ⟨area_nonneg_of_mem h hq, ?_, ?_⟩, fun ⟨hc, ha, hb⟩ => ?_⟩
  · exact area_nonneg_of_mem (by rwa [area_rotate]) (by rwa [triangle_rotate])
  · exact area_nonneg_of_mem (by rwa [← area_rotate]) (by rwa [← triangle_rotate])
  · -- the areas over the sides are barycentric coordinates
    have hsum := area_add a b c q
    have key : ∑ i : Fin 3, (![area b c q, area c a q, area a b q] i / area a b c) • ![a, b, c] i ∈
        convexHull ℝ {a, b, c} := by
      refine (convex_convexHull ℝ _).sum_mem (fun i _ => ?_) ?_ (fun i _ => ?_)
      · refine div_nonneg ?_ h.le
        fin_cases i
        · exact ha
        · exact hb
        · exact hc
      · rw [Fin.sum_univ_three]
        show area b c q / area a b c + area c a q / area a b c + area a b q / area a b c = 1
        rw [← add_div, ← add_div, div_eq_one_iff_eq h.ne']
        linarith
      · refine subset_convexHull ℝ _ ?_
        fin_cases i <;> simp
    suffices hq : q = ∑ i : Fin 3,
        (![area b c q, area c a q, area a b q] i / area a b c) • ![a, b, c] i by
      rw [hq]; exact key
    rw [Fin.sum_univ_three]
    have hne := h.ne'
    ext
    · show q.1 = area b c q / area a b c * a.1 + area c a q / area a b c * b.1 +
        area a b q / area a b c * c.1
      field_simp
      unfold area; ring
    · show q.2 = area b c q / area a b c * a.2 + area c a q / area a b c * b.2 +
        area a b q / area a b c * c.2
      field_simp
      unfold area; ring

theorem continuous_area (a b : Plane) : Continuous fun q => area a b q := by
  unfold area; fun_prop

/-- An interior point of a set to the left of a line does not lie on the line. -/
theorem area_pos_of_mem_interior {a b q : Plane} {s : Set Plane} (hab : a ≠ b)
    (hs : ∀ x ∈ s, 0 ≤ area a b x) (hq : q ∈ interior s) : 0 < area a b q := by
  refine (hs q (interior_subset hq)).lt_of_ne fun h0 => ?_
  -- a short step to the right of the line stays in the set
  have hstep : Filter.Tendsto (fun t : ℝ => q + t • (b.2 - a.2, a.1 - b.1))
      (nhdsWithin 0 (Set.Ioi 0)) (nhds q) := by
    refine (Continuous.tendsto' ?_ 0 q (by simp)).mono_left nhdsWithin_le_nhds
    fun_prop
  have hmem := hstep.eventually (mem_interior_iff_mem_nhds.mp hq)
  obtain ⟨t, hts, ht⟩ := (hmem.and self_mem_nhdsWithin).exists
  have ht : 0 < t := ht
  have hx := hs _ hts
  have hdown : area a b (q + t • (b.2 - a.2, a.1 - b.1)) =
      area a b q - t * ((b.1 - a.1) ^ 2 + (b.2 - a.2) ^ 2) := by
    simp only [area, Prod.fst_add, Prod.snd_add, Prod.smul_fst, Prod.smul_snd, smul_eq_mul]
    ring
  have hlen : 0 < (b.1 - a.1) ^ 2 + (b.2 - a.2) ^ 2 := by
    by_contra hle
    refine hab (Prod.ext ?_ ?_)
    · nlinarith [sq_nonneg (b.1 - a.1), sq_nonneg (b.2 - a.2)]
    · nlinarith [sq_nonneg (b.1 - a.1), sq_nonneg (b.2 - a.2)]
  rw [hdown, ← h0] at hx
  linarith [mul_pos ht hlen]

/-- **The interior by signs.**  An interior point of a counter-clockwise triangle lies to the left of
every side. -/
theorem mem_interior_iff {a b c q : Plane} (h : 0 < area a b c) :
    q ∈ interior (triangle a b c) ↔ 0 < area a b q ∧ 0 < area b c q ∧ 0 < area c a q := by
  constructor
  · intro hq
    have hbc : 0 < area b c a := by rwa [area_rotate]
    have hca : 0 < area c a b := by rwa [← area_rotate]
    refine ⟨area_pos_of_mem_interior (ne_of_area_pos h) (fun x hx => ?_) hq,
      area_pos_of_mem_interior (ne_of_area_pos hbc) (fun x hx => ?_) hq,
      area_pos_of_mem_interior (ne_of_area_pos hca) (fun x hx => ?_) hq⟩
    · exact ((mem_triangle_iff h).mp hx).1
    · exact ((mem_triangle_iff h).mp hx).2.1
    · exact ((mem_triangle_iff h).mp hx).2.2
  · rintro ⟨hc, ha, hb⟩
    have hopen : IsOpen {x | 0 < area a b x ∧ 0 < area b c x ∧ 0 < area c a x} :=
      (isOpen_lt continuous_const (continuous_area a b)).inter
        ((isOpen_lt continuous_const (continuous_area b c)).inter
          (isOpen_lt continuous_const (continuous_area c a)))
    refine interior_maximal (fun x hx => ?_) hopen ⟨hc, ha, hb⟩
    exact (mem_triangle_iff h).mpr ⟨hx.1.le, hx.2.1.le, hx.2.2.le⟩

end Plane

/-! ### Sites as points -/

/-- The point a site stands for. -/
def Site.spot (s : Site) : Plane := (s.x / Single.unitsPerOne, s.y / Single.unitsPerOne)

theorem unitsPerOne_pos : (0 : ℝ) < Single.unitsPerOne := by
  have : 0 < Single.unitsPerOne := Nat.pow_pos (by decide)
  exact_mod_cast this

/-- Areas of sites are areas of their points, in squared units. -/
theorem Site.area_spot (a b c : Site) :
    Plane.area a.spot b.spot c.spot = Site.area a b c / (Single.unitsPerOne : ℝ) ^ 2 := by
  have h := unitsPerOne_pos.ne'
  simp only [Plane.area, Site.spot, Site.area]
  push_cast
  field_simp
  ring

end Prims

end
