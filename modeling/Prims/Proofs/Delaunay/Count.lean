import Mathlib.Algebra.BigOperators.Ring.Finset
import Prims.Proofs.Delaunay.Insertion

/-!
# Delaunay — Count

How many triangles there are.  Every triangle winds about exactly one of its corners, with the turned
plane taken into account, and about no other vertex, since it contains no other.  So the triangles
are counted by summing, vertex by vertex, how often all of them wind about it: twice for a vertex
inside the hull, and once for the three corners of the hull together.
-/

noncomputable section

namespace Prims

open Plane Triangle Classical

variable {pos : UInt32 → Plane} {hull : Triangle} {is : List UInt32} {ts : List Triangle}

/-- How often a triangle winds about a point, before and after half a turn of the plane. -/
def windingBoth (pos : UInt32 → Plane) (q : Plane) (t : Triangle) : ℝ :=
  t.windingAt pos q + t.windingAt (fun i => -pos i) (-q)

/-- The positions of a triangle's corners. -/
def Triangle.spots (pos : UInt32 → Plane) (t : Triangle) : Finset Plane :=
  {pos t.v1, pos t.v2, pos t.v3}

theorem Triangle.mem_spots {t : Triangle} {i : UInt32} (hi : i ∈ t.indices) : pos i ∈ t.spots pos := by
  rcases mem_indices.mp hi with rfl | rfl | rfl <;> simp [spots]

/-- About its corners together a triangle winds once. -/
theorem sum_windingBoth_spots {t : Triangle} (h : 0 < t.areaAt pos) :
    ∑ q ∈ t.spots pos, windingBoth pos q t = 1 := by
  have h₁₂ : pos t.v1 ≠ pos t.v2 := ne_of_area_pos h
  have h₂₃ : pos t.v2 ≠ pos t.v3 := ne_of_area_pos (c := pos t.v1) (by rwa [area_rotate])
  have h₃₁ : pos t.v3 ≠ pos t.v1 := ne_of_area_pos (c := pos t.v2) (by rwa [← area_rotate])
  rw [spots, Finset.sum_insert (by simp [h₁₂, h₃₁.symm]), Finset.sum_insert (by simpa using h₂₃),
    Finset.sum_singleton, ← add_assoc]
  exact winding_corners h

theorem Tiles.sum_windingBoth (h : Tiles pos hull ts) (q : Plane) :
    (ts.map (windingBoth pos q)).sum = windingBoth pos q hull := by
  have hsplit : ∀ l : List Triangle, (l.map (windingBoth pos q)).sum =
      (l.map (windingAt pos q)).sum + (l.map (windingAt (fun i => -pos i) (-q))).sum := by
    intro l
    induction l with
    | nil => simp
    | cons t l ih =>
      simp only [List.map_cons, List.sum_cons, ih, windingBoth]
      ring
  rw [hsplit, h.sum_winding, h.turned.sum_winding, windingBoth]

/-- A triangle winds about no vertex but its corners. -/
theorem Delaunay.windingBoth_eq_zero (h : Delaunay pos hull is ts) {t : Triangle} (ht : t ∈ ts)
    {i : UInt32} (hi : i ∈ is) (hc : pos i ∉ t.spots pos) : windingBoth pos (pos i) t = 0 := by
  have hout : pos i ∉ t.region pos := by
    intro hm
    obtain ⟨j, hj, e⟩ := h.eq_corner ht hi hm
    exact hc (e ▸ mem_spots hj)
  have h₁ : t.windingAt pos (pos i) = 0 :=
    (h.winding_zero_or_one _ t ht).resolve_right fun hw =>
      hout (h.toTiles.mem_region_of_winding ht hw)
  have h₂ : t.windingAt (fun i => -pos i) (-pos i) = 0 := by
    refine (h.turned.winding_zero_or_one _ t ht).resolve_right fun hw => hout ?_
    obtain ⟨k₁, k₂, k₃⟩ := areas_of_winding (h.turned.left t ht) hw
    rw [area_neg] at k₁ k₂ k₃
    exact (mem_triangle_iff (h.left t ht)).mpr ⟨k₁, k₂, k₃⟩
  rw [windingBoth, h₁, h₂, add_zero]

/-- About all vertices together every triangle winds once. -/
theorem Delaunay.sum_windingBoth_vertices (h : Delaunay pos hull is ts) {t : Triangle}
    (ht : t ∈ ts) : ∑ q ∈ (is.map pos).toFinset, windingBoth pos q t = 1 := by
  rw [← sum_windingBoth_spots (h.left t ht)]
  refine (Finset.sum_subset (fun q hq => ?_) fun q hq hc => ?_).symm
  · simp only [List.mem_toFinset, List.mem_map]
    simp only [spots, Finset.mem_insert, Finset.mem_singleton] at hq
    rcases hq with rfl | rfl | rfl
    · exact ⟨_, h.corner_mem ht (i := t.v1) (by simp [indices]), rfl⟩
    · exact ⟨_, h.corner_mem ht (i := t.v2) (by simp [indices]), rfl⟩
    · exact ⟨_, h.corner_mem ht (i := t.v3) (by simp [indices]), rfl⟩
  · simp only [List.mem_toFinset, List.mem_map] at hq
    obtain ⟨i, hi, rfl⟩ := hq
    exact h.windingBoth_eq_zero ht hi hc

/-- A corner of a triangle is not inside it. -/
theorem spots_not_interior {t : Triangle} (h : 0 < t.areaAt pos) {q : Plane}
    (hq : q ∈ t.spots pos) : q ∉ interior (t.region pos) := by
  intro hin
  obtain ⟨h₁, h₂, h₃⟩ := (mem_interior_iff h).mp hin
  simp only [spots, Finset.mem_insert, Finset.mem_singleton] at hq
  rcases hq with rfl | rfl | rfl
  · exact h₁.ne' (by unfold area; ring)
  · exact h₂.ne' (by unfold area; ring)
  · exact h₃.ne' (by unfold area; ring)

/-- **The number of triangles** is twice the number of distinct positions inside the hull, plus one. -/
theorem Delaunay.length_eq (h : Delaunay pos hull is ts) {inner : Finset Plane}
    (hinner : ∀ q, q ∈ inner ↔ (∃ i ∈ is, pos i = q) ∧ q ∈ interior (hull.region pos)) :
    ts.length = 2 * inner.card + 1 := by
  have hparts : (is.map pos).toFinset = inner ∪ hull.spots pos := by
    ext q
    simp only [List.mem_toFinset, List.mem_map, Finset.mem_union, hinner]
    constructor
    · rintro ⟨i, hi, rfl⟩
      rcases h.inside i hi with hc | hin
      · exact .inr (mem_spots hc)
      · exact .inl ⟨⟨i, hi, rfl⟩, hin⟩
    · rintro (⟨hi, -⟩ | hc)
      · exact hi
      · simp only [spots, Finset.mem_insert, Finset.mem_singleton] at hc
        rcases hc with rfl | rfl | rfl
        · exact ⟨_, h.hull_mem hull.v1 (by simp [indices]), rfl⟩
        · exact ⟨_, h.hull_mem hull.v2 (by simp [indices]), rfl⟩
        · exact ⟨_, h.hull_mem hull.v3 (by simp [indices]), rfl⟩
  have hdisj : Disjoint inner (hull.spots pos) :=
    Finset.disjoint_left.mpr fun q hq hc => spots_not_interior h.hull_left hc ((hinner q).mp hq).2
  have htwo : ∀ q ∈ inner, windingBoth pos q hull = 2 := by
    intro q hq
    obtain ⟨h₁, h₂, h₃⟩ := (mem_interior_iff h.hull_left).mp ((hinner q).mp hq).2
    have w₁ : hull.windingAt pos q = 1 := winding_of_areas h.hull_left h₁ h₂ h₃
    have w₂ : hull.windingAt (fun i => -pos i) (-q) = 1 := by
      refine winding_of_areas h.turned.hull_left ?_ ?_ ?_ <;> rwa [area_neg]
    rw [windingBoth, w₁, w₂]
    norm_num
  have swap : ∀ l : List Triangle, (∀ t ∈ l, t ∈ ts) →
      (l.length : ℝ) = ∑ q ∈ (is.map pos).toFinset, (l.map (windingBoth pos q)).sum := by
    intro l hl
    induction l with
    | nil => simp
    | cons t l ih =>
      simp only [List.map_cons, List.sum_cons, Finset.sum_add_distrib]
      rw [h.sum_windingBoth_vertices (hl t List.mem_cons_self),
        ← ih fun s hs => hl s (List.mem_cons_of_mem _ hs), List.length_cons]
      push_cast
      ring
  have hcount : (ts.length : ℝ) = 2 * inner.card + 1 := by
    rw [swap ts fun _ ht => ht, hparts, Finset.sum_congr rfl fun q _ => h.sum_windingBoth q,
      Finset.sum_union hdisj, sum_windingBoth_spots h.hull_left, Finset.sum_congr rfl htwo]
    simp [mul_comm]
  exact_mod_cast hcount

end Prims

end
