import Mathlib.Algebra.Order.BigOperators.Group.List
import Prims.Proofs.Plane.Winding
import Prims.Proofs.Tiling.Boundary

/-!
# Tiling — Basic

Counter-clockwise triangles with the boundary of one triangle, the hull.  That the boundaries agree is
all that is asked (`Tiles`); that the triangles tile the hull follows, since the winding about a point
is a sum over directed edges.  About every point the triangles wind as often as the hull does, so:

* `disjoint_interiors`: the interiors are pairwise disjoint, `iUnion_region` the union is the hull,
  and `sum_area` the areas add up to its area;
* `arcs_nodup`: no directed side is used twice;
* `reverse_mem`: a side not on the hull is used in both directions.
-/

noncomputable section

namespace Prims

open Plane

/-! ### Triangles at positions -/

namespace Triangle

variable (pos : UInt32 → Plane)

/-- Twice the signed area of a triangle whose vertices are at `pos`. -/
def areaAt (t : Triangle) : ℝ := area (pos t.v1) (pos t.v2) (pos t.v3)

/-- The points a triangle covers. -/
def region (t : Triangle) : Set Plane := Plane.triangle (pos t.v1) (pos t.v2) (pos t.v3)

/-- How often a triangle winds about a point. -/
def windingAt (q : Plane) (t : Triangle) : ℝ := winding q (pos t.v1) (pos t.v2) (pos t.v3)

variable {pos} {t : Triangle}

theorem areaAt_turned (t : Triangle) : t.areaAt (fun i => -pos i) = t.areaAt pos := area_neg _ _ _

/-- The corners are in the region. -/
theorem corner_mem_region {i : UInt32} (hi : i ∈ t.indices) : pos i ∈ t.region pos := by
  refine subset_convexHull ℝ _ ?_
  rcases mem_indices.mp hi with rfl | rfl | rfl <;> simp

/-- The same triangle, read from some corner on. -/
structure Reads (s t : Triangle) : Prop where
  arcs    : ∀ a, a ∈ s.arcs ↔ a ∈ t.arcs
  indices : ∀ i, i ∈ s.indices ↔ i ∈ t.indices
  area    : ∀ pos : UInt32 → Plane, s.areaAt pos = t.areaAt pos
  region  : ∀ pos : UInt32 → Plane, s.region pos = t.region pos
  winding : ∀ (pos : UInt32 → Plane) q, s.windingAt pos q = t.windingAt pos q
  circle  : ∀ (pos : UInt32 → Plane) q, inCircle (pos s.v1) (pos s.v2) (pos s.v3) q =
    inCircle (pos t.v1) (pos t.v2) (pos t.v3) q

theorem reads_rotate (t : Triangle) : Reads ⟨t.v2, t.v3, t.v1⟩ t where
  arcs a := by simp only [mem_arcs]; tauto
  indices i := by simp only [mem_indices]; tauto
  area _ := area_rotate _ _ _
  region _ := triangle_rotate _ _ _
  winding _ q := winding_rotate q _ _ _
  circle _ q := inCircle_rotate _ _ _ q

theorem Reads.trans {r s t : Triangle} (h : Reads r s) (k : Reads s t) : Reads r t where
  arcs a := (h.arcs a).trans (k.arcs a)
  indices i := (h.indices i).trans (k.indices i)
  area pos := (h.area pos).trans (k.area pos)
  region pos := (h.region pos).trans (k.region pos)
  winding pos q := (h.winding pos q).trans (k.winding pos q)
  circle pos q := (h.circle pos q).trans (k.circle pos q)

/-- A triangle reads as any of its sides with the vertex opposite to it. -/
theorem reads_of_arc {t : Triangle} {u v : UInt32} (h : (u, v) ∈ t.arcs) : ∃ w, Reads ⟨u, v, w⟩ t := by
  rcases mem_arcs.mp h with e | e | e <;> obtain ⟨rfl, rfl⟩ := Prod.mk.inj e
  · exact ⟨t.v3, fun _ => .rfl, fun _ => .rfl, fun _ => rfl, fun _ => rfl, fun _ _ => rfl, fun _ _ => rfl⟩
  · exact ⟨t.v1, reads_rotate t⟩
  · exact ⟨t.v2, (reads_rotate ⟨t.v2, t.v3, t.v1⟩).trans (reads_rotate t)⟩

theorem Reads.rotate {t : Triangle} {u v w : UInt32} (h : Reads ⟨u, v, w⟩ t) : Reads ⟨v, w, u⟩ t :=
  (reads_rotate ⟨u, v, w⟩).trans h

theorem Reads.left {t : Triangle} {u v w : UInt32} {pos : UInt32 → Plane} (h : Reads ⟨u, v, w⟩ t)
    (ht : 0 < t.areaAt pos) : 0 < Plane.area (pos u) (pos v) (pos w) := by
  rwa [← h.area pos] at ht

/-- A triangle reads from any of its corners. -/
theorem reads_of_corner {t : Triangle} {u : UInt32} (h : u ∈ t.indices) :
    ∃ v w, Reads ⟨u, v, w⟩ t := by
  rcases mem_indices.mp h with rfl | rfl | rfl
  · exact ⟨t.v2, reads_of_arc (by simp [arcs])⟩
  · exact ⟨t.v3, reads_of_arc (by simp [arcs])⟩
  · exact ⟨t.v1, reads_of_arc (by simp [arcs])⟩

/-- A triangle off a line has three corners. -/
theorem corners_ne (h : t.areaAt pos ≠ 0) : t.v1 ≠ t.v2 ∧ t.v2 ≠ t.v3 ∧ t.v3 ≠ t.v1 := by
  unfold areaAt area at h
  refine ⟨fun e => h ?_, fun e => h ?_, fun e => h ?_⟩ <;> rw [e] <;> ring

/-- A counter-clockwise triangle has no side in both directions. -/
theorem swap_not_mem_arcs (h : 0 < t.areaAt pos) {a : UInt32 × UInt32} (ha : a ∈ t.arcs) :
    a.swap ∉ t.arcs := by
  intro hs
  obtain ⟨h₁₂, h₂₃, h₃₁⟩ := corners_ne h.ne'
  rcases mem_arcs.mp ha with rfl | rfl | rfl <;> rcases mem_arcs.mp hs with e | e | e <;>
    simp only [Prod.swap_prod_mk, Prod.mk.injEq] at e <;> grind

end Triangle

open Triangle

/-! ### Sums of zeros and ones -/

section Sums

variable {α : Type} {g : α → ℝ} {l : List α}

theorem pairwise_of_sum_le_one (hg : ∀ x ∈ l, g x = 0 ∨ g x = 1) (hs : (l.map g).sum ≤ 1) :
    l.Pairwise fun x y => ¬(g x = 1 ∧ g y = 1) := by
  induction l with
  | nil => exact .nil
  | cons a l ih =>
    have hnn : ∀ y ∈ l.map g, 0 ≤ y := by
      intro y hy
      obtain ⟨x, hx, rfl⟩ := List.mem_map.mp hy
      rcases hg x (List.mem_cons_of_mem _ hx) with h | h <;> rw [h]
      exact zero_le_one
    rw [List.map_cons, List.sum_cons] at hs
    refine List.pairwise_cons.mpr ⟨fun y hy ⟨ha, h1⟩ => ?_, ih (fun x hx => ?_) ?_⟩
    · have := List.single_le_sum hnn _ (List.mem_map_of_mem hy)
      linarith
    · exact hg x (List.mem_cons_of_mem _ hx)
    · rcases hg a List.mem_cons_self with h | h <;> linarith

theorem exists_eq_one_of_sum (hg : ∀ x ∈ l, g x = 0 ∨ g x = 1) (hs : (l.map g).sum ≠ 0) :
    ∃ x ∈ l, g x = 1 := by
  by_contra hno
  refine hs (List.sum_eq_zero fun y hy => ?_)
  obtain ⟨x, hx, rfl⟩ := List.mem_map.mp hy
  exact (hg x hx).resolve_right fun h => hno ⟨x, hx, h⟩

end Sums

/-! ### Tilings -/

/-- Counter-clockwise triangles with the boundary of a counter-clockwise hull. -/
structure Tiles (pos : UInt32 → Plane) (hull : Triangle) (ts : List Triangle) : Prop where
  hull_left : 0 < hull.areaAt pos
  left : ∀ t ∈ ts, 0 < t.areaAt pos
  boundary : ∀ f, Alternating f → (ts.map (circulation f)).sum = hull.circulation f

variable {pos : UInt32 → Plane} {hull : Triangle} {ts : List Triangle}

namespace Tiles

/-- Half a turn of the plane keeps a tiling. -/
theorem turned (h : Tiles pos hull ts) : Tiles (fun i => -pos i) hull ts where
  hull_left := by rw [areaAt_turned]; exact h.hull_left
  left t ht := by rw [areaAt_turned]; exact h.left t ht
  boundary := h.boundary

/-- About every point the triangles wind as often as the hull. -/
theorem sum_winding (h : Tiles pos hull ts) (q : Plane) :
    (ts.map (windingAt pos q)).sum = hull.windingAt pos q :=
  h.boundary (fun i j => crossing q (pos i) (pos j)) fun _ _ => crossing_swap _ _ _

/-- The areas add up to the hull's. -/
theorem sum_area (h : Tiles pos hull ts) : (ts.map (areaAt pos)).sum = hull.areaAt pos := by
  have key : ∀ t : Triangle,
      t.areaAt pos = t.circulation fun i j => (pos i).1 * (pos j).2 - (pos i).2 * (pos j).1 :=
    fun t => by unfold areaAt area circulation; ring
  rw [key, ← h.boundary _ fun i j => by ring, List.map_congr_left fun t _ => key t]

theorem winding_zero_or_one (h : Tiles pos hull ts) (q : Plane) :
    ∀ t ∈ ts, t.windingAt pos q = 0 ∨ t.windingAt pos q = 1 :=
  fun t ht => winding_eq_zero_or_one (h.left t ht) q

/-- No two triangles wind about one point. -/
theorem winds_once (h : Tiles pos hull ts) (q : Plane) :
    ts.Pairwise fun s t => ¬(s.windingAt pos q = 1 ∧ t.windingAt pos q = 1) := by
  refine pairwise_of_sum_le_one (h.winding_zero_or_one q) ?_
  rw [h.sum_winding q]
  rcases winding_eq_zero_or_one h.hull_left q with k | k
  · exact k.le.trans zero_le_one
  · exact k.le

/-- A triangle winds about every point the hull winds about. -/
theorem exists_winding (h : Tiles pos hull ts) {q : Plane} (hq : hull.windingAt pos q = 1) :
    ∃ t ∈ ts, t.windingAt pos q = 1 := by
  refine exists_eq_one_of_sum (h.winding_zero_or_one q) ?_
  rw [h.sum_winding q, hq]
  exact one_ne_zero

theorem mem_region_of_winding (h : Tiles pos hull ts) {t : Triangle} (ht : t ∈ ts) {q : Plane}
    (hw : t.windingAt pos q = 1) : q ∈ t.region pos :=
  (mem_triangle_iff (h.left t ht)).mpr (areas_of_winding (h.left t ht) hw)

/-- **The interiors are pairwise disjoint.** -/
theorem disjoint_interiors (h : Tiles pos hull ts) :
    ts.Pairwise fun s t => interior (s.region pos) ∩ interior (t.region pos) = ∅ := by
  have winds : ∀ t ∈ ts, ∀ q ∈ interior (t.region pos), t.windingAt pos q = 1 := by
    intro t ht q hq
    obtain ⟨h₁, h₂, h₃⟩ := (mem_interior_iff (h.left t ht)).mp hq
    exact winding_of_areas (h.left t ht) h₁ h₂ h₃
  rw [List.pairwise_iff_getElem]
  intro i j hi hj hij
  refine Set.eq_empty_iff_forall_notMem.mpr fun q ⟨hs, ht⟩ => ?_
  exact List.pairwise_iff_getElem.mp (h.winds_once q) i j hi hj hij
    ⟨winds _ (List.getElem_mem hi) q hs, winds _ (List.getElem_mem hj) q ht⟩

/-! ### Directed sides -/

/-- The difference between the uses of a side in its two directions is the hull's. -/
theorem count_sub_count (h : Tiles pos hull ts) (a : UInt32 × UInt32) :
    ((arcsOf ts).count a : ℝ) - (arcsOf ts).count a.swap =
      (hull.arcs.count a : ℝ) - hull.arcs.count a.swap := by
  have hsum : ∀ f, Alternating f → ((arcsOf ts).map fun b => f b.1 b.2).sum =
      (hull.arcs.map fun b => f b.1 b.2).sum := by
    intro f hf
    have hb := h.boundary f hf
    rw [sum_circulation] at hb
    rw [hb]
    simp only [arcs, circulation, List.map_cons, List.map_nil, List.sum_cons, List.sum_nil]
    ring
  exact sum_eq_iff_count.mp hsum a

/-- **A side not on the hull is used in both directions.** -/
theorem reverse_mem (h : Tiles pos hull ts) {a : UInt32 × UInt32} (ha : a ∈ arcsOf ts)
    (hh : a ∉ hull.arcs) : a.swap ∈ arcsOf ts := by
  have hc := h.count_sub_count a
  rw [List.count_eq_zero_of_not_mem hh] at hc
  have h₁ : (1 : ℝ) ≤ (arcsOf ts).count a := by exact_mod_cast List.count_pos_iff.mpr ha
  have h₂ : (0 : ℝ) ≤ hull.arcs.count a.swap := Nat.cast_nonneg _
  refine List.count_pos_iff.mp ?_
  have : (0 : ℝ) < (arcsOf ts).count a.swap := by push_cast at hc; linarith
  exact_mod_cast this

/-- The sides of the hull are sides of triangles. -/
theorem hull_arcs_mem (h : Tiles pos hull ts) {a : UInt32 × UInt32} (ha : a ∈ hull.arcs) :
    a ∈ arcsOf ts := by
  have hc := h.count_sub_count a
  rw [List.count_eq_zero_of_not_mem (swap_not_mem_arcs h.hull_left ha)] at hc
  have h₁ : (1 : ℝ) ≤ hull.arcs.count a := by exact_mod_cast List.count_pos_iff.mpr ha
  have h₂ : (0 : ℝ) ≤ (arcsOf ts).count a.swap := Nat.cast_nonneg _
  refine List.count_pos_iff.mp ?_
  have : (0 : ℝ) < (arcsOf ts).count a := by push_cast at hc; linarith
  exact_mod_cast this

/-- A triangle winds about the middle of its descending sides. -/
theorem winding_middle (h : Tiles pos hull ts) {t : Triangle} (ht : t ∈ ts)
    {a : UInt32 × UInt32} (ha : a ∈ t.arcs) (hd : Descends (pos a.1) (pos a.2)) :
    t.windingAt pos (((pos a.1).1 + (pos a.2).1) / 2, ((pos a.1).2 + (pos a.2).2) / 2) = 1 := by
  obtain ⟨w, hr⟩ : ∃ w, Reads ⟨a.1, a.2, w⟩ t := reads_of_arc ha
  have hpos := hr.left (h.left t ht)
  refine (hr.winding pos _).symm.trans (winding_side hpos hd ?_ ?_ ?_)
  · unfold area; ring
  · unfold area at *; linarith
  · unfold area at *; linarith

/-- **No directed side is used twice.** -/
theorem arcs_nodup (h : Tiles pos hull ts) : (arcsOf ts).Nodup := by
  refine List.nodup_flatMap.mpr ⟨fun t ht => ?_, ?_⟩
  · obtain ⟨h₁₂, h₂₃, h₃₁⟩ := corners_ne (h.left t ht).ne'
    simp only [arcs, List.nodup_cons, List.mem_cons, Prod.mk.injEq, List.not_mem_nil, or_false]
    grind
  · rw [List.pairwise_iff_getElem]
    intro i j hi hj hij a hs ht
    have hmi := List.getElem_mem hi
    have hmj := List.getElem_mem hj
    -- both triangles wind about the middle of the side, or do after half a turn
    obtain ⟨w, hr⟩ : ∃ w, Reads ⟨a.1, a.2, w⟩ _ := reads_of_arc hs
    rcases descends_or_turned (ne_of_area_pos (hr.left (h.left _ hmi))) with hd | hd
    · exact List.pairwise_iff_getElem.mp (h.winds_once _) i j hi hj hij
        ⟨h.winding_middle hmi hs hd, h.winding_middle hmj ht hd⟩
    · exact List.pairwise_iff_getElem.mp (h.turned.winds_once _) i j hi hj hij
        ⟨h.turned.winding_middle hmi hs hd, h.turned.winding_middle hmj ht hd⟩

/-- No triangle is there twice. -/
theorem nodup (h : Tiles pos hull ts) : ts.Nodup := by
  refine (List.nodup_flatMap.mp h.arcs_nodup).2.imp fun {s t} hdis e => ?_
  exact hdis (a := (s.v1, s.v2)) (by simp [arcs]) (by simp [e, arcs])

/-! ### The union -/

/-- **The union is the hull**, when no vertex is outside it. -/
theorem iUnion_region (h : Tiles pos hull ts)
    (hin : ∀ t ∈ ts, ∀ i ∈ t.indices, pos i ∈ hull.region pos) :
    ⋃ t ∈ ts, t.region pos = hull.region pos := by
  refine Set.Subset.antisymm (Set.iUnion₂_subset fun t ht => ?_) fun q hq => ?_
  · refine convexHull_min ?_ (convex_convexHull ℝ _)
    rintro x (rfl | rfl | rfl)
    · exact hin t ht _ (by simp [indices])
    · exact hin t ht _ (by simp [indices])
    · exact hin t ht _ (by simp [indices])
  · -- a corner of the hull is an end of one of its sides, which triangles use
    have corner : ∀ i ∈ hull.indices, ∃ t ∈ ts, pos i ∈ t.region pos := by
      intro i hi
      obtain ⟨j, hj⟩ : ∃ j, (i, j) ∈ hull.arcs := by
        rcases mem_indices.mp hi with rfl | rfl | rfl
        · exact ⟨hull.v2, by simp [arcs]⟩
        · exact ⟨hull.v3, by simp [arcs]⟩
        · exact ⟨hull.v1, by simp [arcs]⟩
      obtain ⟨t, ht, ha⟩ := mem_arcsOf.mp (h.hull_arcs_mem hj)
      exact ⟨t, ht, corner_mem_region (ends_mem ha).1⟩
    have hmem : ∃ t ∈ ts, q ∈ t.region pos := by
      obtain ⟨h₁, h₂, h₃⟩ := (mem_triangle_iff h.hull_left).mp hq
      by_cases e₁ : q = pos hull.v1
      · rw [e₁]; exact corner _ (by simp [indices])
      by_cases e₂ : q = pos hull.v2
      · rw [e₂]; exact corner _ (by simp [indices])
      by_cases e₃ : q = pos hull.v3
      · rw [e₃]; exact corner _ (by simp [indices])
      rcases winding_or_turned h.hull_left h₁ h₂ h₃ e₁ e₂ e₃ with hw | hw
      · obtain ⟨t, ht, hwt⟩ := h.exists_winding hw
        exact ⟨t, ht, h.mem_region_of_winding ht hwt⟩
      · obtain ⟨t, ht, hwt⟩ := h.turned.exists_winding (q := -q) hw
        obtain ⟨k₁, k₂, k₃⟩ := areas_of_winding (h.turned.left t ht) hwt
        rw [area_neg] at k₁ k₂ k₃
        exact ⟨t, ht, (mem_triangle_iff (h.left t ht)).mpr ⟨k₁, k₂, k₃⟩⟩
    obtain ⟨t, ht, hqt⟩ := hmem
    exact Set.mem_biUnion ht hqt

end Tiles

end Prims

end
