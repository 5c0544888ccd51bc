import Prims.Proofs.Delaunay.Count
import Prims.Proofs.Delaunay.Edge
import Prims.Proofs.Plane.Polygon
import Prims.Proofs.Tiling.Rim

/-!
# Delaunay — Parity

The even-odd rule on a Delaunay tiling.  Closed polygons whose edges are edges of the tiling do not
enter triangles, so all inner points of a triangle are inside them or none is; on the way over an edge
between two triangles the number of polygons about a point changes by how often the polygons run along
the edge (`crossings_across`).  So a choice of triangles has the polygons for its boundary exactly when
it is the choice of the triangles inside them (`inside_of_once`, `once_of_inside`).
-/

noncomputable section

namespace Prims

open Plane Triangle

variable {pos : UInt32 → Plane} {hull : Triangle} {is : List UInt32} {ts : List Triangle}

/-! ### Edges and inner points -/

/-- The middle between two vertices. -/
def middle (pos : UInt32 → Plane) (u v : UInt32) : Plane :=
  (((pos u).1 + (pos v).1) / 2, ((pos u).2 + (pos v).2) / 2)

/-- One triangle only winds about a point. -/
theorem Tiles.eq_of_winding (h : Tiles pos hull ts) {s t : Triangle} (hs : s ∈ ts) (ht : t ∈ ts)
    {q : Plane} (hqs : s.windingAt pos q = 1) (hqt : t.windingAt pos q = 1) : s = t := by
  by_contra hne
  have : Std.Symm fun s t : Triangle => ¬(s.windingAt pos q = 1 ∧ t.windingAt pos q = 1) :=
    ⟨fun _ _ k e => k e.symm⟩
  exact (h.winds_once q).forall hs ht hne ⟨hqs, hqt⟩

/-- A point of a side lies on its line and in its triangle. -/
theorem Triangle.mem_side {t : Triangle} {a : UInt32 × UInt32} (ha : a ∈ t.arcs) {q : Plane}
    (hq : q ∈ segment ℝ (pos a.1) (pos a.2)) : area (pos a.1) (pos a.2) q = 0 ∧ q ∈ t.region pos := by
  refine ⟨?_, (convex_convexHull ℝ _).segment_subset (corner_mem_region (ends_mem ha).1)
    (corner_mem_region (ends_mem ha).2) hq⟩
  rw [segment_eq_image_lineMap] at hq
  obtain ⟨s, -, rfl⟩ := hq
  rw [area_lineMap]
  unfold area
  ring

namespace Delaunay

/-- A triangle through a point that `s` and `t` wind about, before and after half a turn of the plane,
is one of them. -/
theorem eq_of_mem_region (h : Delaunay pos hull is ts) {r s t : Triangle} (hr : r ∈ ts) (hs : s ∈ ts)
    (ht : t ∈ ts) {q : Plane} (hqs : s.windingAt pos q = 1)
    (hqt : t.windingAt (fun i => -pos i) (-q) = 1) (hne : ∀ i ∈ is, q ≠ pos i)
    (hq : q ∈ r.region pos) : r = s ∨ r = t := by
  obtain ⟨h₁, h₂, h₃⟩ := (mem_triangle_iff (h.left r hr)).mp hq
  have corner : ∀ i ∈ r.indices, q ≠ pos i := fun i hi => hne i (h.corner_mem hr hi)
  rcases winding_or_turned (h.left r hr) h₁ h₂ h₃ (corner _ (by simp [indices]))
    (corner _ (by simp [indices])) (corner _ (by simp [indices])) with hw | hw
  · exact .inl (h.eq_of_winding hr hs hw hqs)
  · exact .inr (h.turned.eq_of_winding hr ht hw hqt)

/-- No vertex is inside a triangle. -/
theorem ne_of_mem_interior (h : Delaunay pos hull is ts) {t : Triangle} (ht : t ∈ ts) {q : Plane}
    (hq : q ∈ interior (t.region pos)) : ∀ i ∈ is, q ≠ pos i := by
  rintro i hi rfl
  obtain ⟨j, hj, e⟩ := h.eq_corner ht hi (interior_subset hq)
  exact spots_not_interior (h.left t ht) (e ▸ mem_spots hj) hq

/-- About its inner points a triangle winds, before and after half a turn of the plane. -/
theorem winding_interior (h : Delaunay pos hull is ts) {t : Triangle} (ht : t ∈ ts) {q : Plane}
    (hq : q ∈ interior (t.region pos)) :
    t.windingAt pos q = 1 ∧ t.windingAt (fun i => -pos i) (-q) = 1 := by
  obtain ⟨h₁, h₂, h₃⟩ := (mem_interior_iff (h.left t ht)).mp hq
  refine ⟨winding_of_areas (h.left t ht) h₁ h₂ h₃, winding_of_areas (h.turned.left t ht) ?_ ?_ ?_⟩ <;>
    rwa [area_neg]

/-- **No edge enters a triangle.** -/
theorem not_mem_edge (h : Delaunay pos hull is ts) {t : Triangle} (ht : t ∈ ts) {q : Plane}
    (hq : q ∈ interior (t.region pos)) {a : UInt32 × UInt32} (ha : a ∈ arcsOf ts) :
    q ∉ segment ℝ (pos a.1) (pos a.2) := by
  intro hm
  obtain ⟨s, hs, has⟩ := mem_arcsOf.mp ha
  obtain ⟨hline, hmem⟩ := mem_side has hm
  obtain ⟨hw, hw'⟩ := h.winding_interior ht hq
  obtain rfl : s = t :=
    (h.eq_of_mem_region hs ht ht hw hw' (h.ne_of_mem_interior ht hq) hmem).elim id id
  obtain ⟨h₁, h₂, h₃⟩ := (mem_interior_iff (h.left s hs)).mp hq
  rcases mem_arcs.mp has with rfl | rfl | rfl
  · exact h₁.ne' hline
  · exact h₂.ne' hline
  · exact h₃.ne' hline

end Delaunay

/-! ### The way over an edge -/

/-- What the middle of a side cuts off the sides. -/
theorem middle_areas (pos : UInt32 → Plane) (u v w : UInt32) :
    area (pos u) (pos v) (middle pos u v) = 0 ∧
      area (pos v) (pos w) (middle pos u v) = area (pos u) (pos v) (pos w) / 2 ∧
      area (pos w) (pos u) (middle pos u v) = area (pos u) (pos v) (pos w) / 2 := by
  unfold area middle
  refine ⟨by ring, by ring, by ring⟩

theorem middle_comm (pos : UInt32 → Plane) (u v : UInt32) : middle pos v u = middle pos u v := by
  unfold middle
  rw [add_comm, add_comm (pos v).2]

section Across

variable {s t : Triangle} {u v : UInt32}

/-- From the middle of a side on, the way to the opposite corner is inside the triangle. -/
theorem toward_apex_mem {w : UInt32} (h : 0 < area (pos u) (pos v) (pos w)) {τ : ℝ} (h0 : 0 < τ)
    (h1 : τ < 1) : AffineMap.lineMap (middle pos u v) (pos w) τ ∈
      interior (Plane.triangle (pos u) (pos v) (pos w)) := by
  obtain ⟨h₁, h₂, h₃⟩ := middle_areas pos u v w
  have hvww : area (pos v) (pos w) (pos w) = 0 := by unfold area; ring
  have hwuw : area (pos w) (pos u) (pos w) = 0 := by unfold area; ring
  refine (mem_interior_iff h).mpr ⟨?_, ?_, ?_⟩ <;> rw [area_lineMap]
  · rw [h₁, mul_zero, zero_add]
    exact mul_pos h0 h
  · rw [h₂, hvww, mul_zero, add_zero]
    exact mul_pos (sub_pos.mpr h1) (half_pos h)
  · rw [h₃, hwuw, mul_zero, add_zero]
    exact mul_pos (sub_pos.mpr h1) (half_pos h)

/-- Extended a little over the middle of the side, a way is inside the triangle beyond it. -/
theorem exists_beyond_middle {x : UInt32} {q : Plane} (hB : 0 < area (pos v) (pos u) (pos x))
    (hq : 0 < area (pos u) (pos v) q) : ∃ δ : ℝ, 0 < δ ∧ δ < 1 ∧ ∀ τ, 0 < τ → τ ≤ δ →
      AffineMap.lineMap (middle pos u v) q (-τ) ∈
        interior (Plane.triangle (pos v) (pos u) (pos x)) := by
  obtain ⟨k₁, k₂, k₃⟩ := middle_areas pos v u x
  rw [middle_comm] at k₁ k₂ k₃
  set B := area (pos v) (pos u) (pos x)
  set C₁ := area (pos u) (pos x) q
  set C₂ := area (pos x) (pos v) q
  -- short of the other two sides
  obtain ⟨δ, hδ0, hδ1, hδ₁, hδ₂⟩ : ∃ δ : ℝ, 0 < δ ∧ δ < 1 ∧ δ * C₁ < B / 2 ∧ δ * C₂ < B / 2 := by
    have hsum : 0 < 2 * (|C₁| + |C₂| + B) := by positivity
    refine ⟨B / (2 * (|C₁| + |C₂| + B)), div_pos hB hsum, ?_, ?_, ?_⟩
    · rw [div_lt_one hsum]
      linarith [abs_nonneg C₁, abs_nonneg C₂]
    · rw [div_mul_eq_mul_div, div_lt_div_iff₀ hsum two_pos]
      nlinarith [abs_nonneg C₂, le_abs_self C₁, hB]
    · rw [div_mul_eq_mul_div, div_lt_div_iff₀ hsum two_pos]
      nlinarith [abs_nonneg C₁, le_abs_self C₂, hB]
  refine ⟨δ, hδ0, hδ1, fun τ h0 h1 => ?_⟩
  have hle : ∀ {C : ℝ}, δ * C < B / 2 → τ * C < (1 + τ) * (B / 2) := by
    intro C hC
    rcases le_or_gt C 0 with hneg | hpos
    · have := mul_nonpos_of_nonneg_of_nonpos h0.le hneg
      have : 0 < (1 + τ) * (B / 2) := by positivity
      linarith
    · have := mul_le_mul_of_nonneg_right h1 hpos.le
      have : 0 < τ * (B / 2) := by positivity
      linarith
  have l₁ := hle hδ₁
  have l₂ := hle hδ₂
  refine (mem_interior_iff hB).mpr ⟨?_, ?_, ?_⟩ <;> rw [area_lineMap]
  · rw [k₁, mul_zero, zero_add, area_swap, neg_mul_neg]
    exact mul_pos h0 hq
  · rw [k₂]
    linarith
  · rw [k₃]
    linarith

namespace Delaunay

/-- The triangles on the two sides of an edge wind about its middle, one of them after half a turn of
the plane. -/
theorem winding_middle_both (h : Delaunay pos hull is ts) (hs : s ∈ ts) (ht : t ∈ ts)
    (hus : (u, v) ∈ s.arcs) (hut : (v, u) ∈ t.arcs) :
    (s.windingAt pos (middle pos u v) = 1 ∧
      t.windingAt (fun i => -pos i) (-middle pos u v) = 1) ∨
    (t.windingAt pos (middle pos u v) = 1 ∧
      s.windingAt (fun i => -pos i) (-middle pos u v) = 1) := by
  have hneg : ∀ a b, middle (fun i => -pos i) a b = -middle pos a b := by
    intro a b
    unfold middle
    refine Prod.ext ?_ ?_ <;> simp only [Prod.fst_neg, Prod.snd_neg] <;> ring
  obtain ⟨w, hr⟩ := reads_of_arc hus
  rcases descends_or_turned (ne_of_area_pos (hr.left (h.left s hs))) with hd | hd
  · left
    refine ⟨h.winding_middle hs hus hd, ?_⟩
    rw [← middle_comm, ← hneg]
    refine h.turned.winding_middle ht hut ?_
    simp only [Descends, Prod.fst_neg, Prod.snd_neg, neg_lt_neg_iff, neg_inj] at hd ⊢
    exact hd.imp_right fun k => ⟨k.1.symm, k.2⟩
  · right
    rw [← hneg]
    refine ⟨?_, h.turned.winding_middle hs hus hd⟩
    rw [← middle_comm]
    refine h.winding_middle ht hut ?_
    simp only [Descends, Prod.fst_neg, Prod.snd_neg, neg_lt_neg_iff, neg_inj] at hd ⊢
    exact hd.imp_right fun k => ⟨k.1.symm, k.2⟩

/-- The middle of an edge is at no vertex. -/
theorem middle_ne (h : Delaunay pos hull is ts) (hs : s ∈ ts) (hus : (u, v) ∈ s.arcs) :
    ∀ i ∈ is, middle pos u v ≠ pos i := by
  intro i hi he
  obtain ⟨w, hw⟩ := reads_of_arc hus
  have hleft := hw.left (h.left s hs)
  obtain ⟨h₁, h₂, h₃⟩ := middle_areas pos u v w
  have hmem : pos i ∈ s.region pos := by
    rw [← he, ← hw.region pos]
    exact (mem_triangle_iff hleft).mpr ⟨h₁.ge, by linarith, by linarith⟩
  obtain ⟨j, hj, e⟩ := h.eq_corner hs hi hmem
  rw [he, ← e] at h₁ h₂ h₃
  rcases mem_indices.mp ((hw.indices j).mpr hj) with rfl | rfl | rfl
  · rw [area_rotate] at h₂
    linarith
  · rw [← area_rotate] at h₃
    linarith
  · linarith

/-- The middle of an edge is on no other edge. -/
theorem eq_of_middle_mem (h : Delaunay pos hull is ts) (hs : s ∈ ts) (ht : t ∈ ts)
    (hus : (u, v) ∈ s.arcs) (hut : (v, u) ∈ t.arcs) {a : UInt32 × UInt32} (ha : a ∈ arcsOf ts)
    (hm : middle pos u v ∈ segment ℝ (pos a.1) (pos a.2)) : a = (u, v) ∨ a = (v, u) := by
  -- on the sides of a triangle at the edge
  have side : ∀ {r : Triangle} {u v : UInt32}, r ∈ ts → (u, v) ∈ r.arcs → a ∈ r.arcs →
      area (pos a.1) (pos a.2) (middle pos u v) = 0 → a = (u, v) := by
    intro r u v hr hur har hline
    obtain ⟨w, hw⟩ := reads_of_arc hur
    have hleft := hw.left (h.left r hr)
    obtain ⟨-, h₂, h₃⟩ := middle_areas pos u v w
    rcases mem_arcs.mp ((hw.arcs a).mpr har) with rfl | rfl | rfl
    · rfl
    · rw [h₂] at hline
      linarith
    · rw [h₃] at hline
      linarith
  have hne := h.middle_ne hs hus
  obtain ⟨r, hr, har⟩ := mem_arcsOf.mp ha
  obtain ⟨hline, hmem⟩ := mem_side har hm
  have hrst : r = s ∨ r = t := by
    rcases h.winding_middle_both hs ht hus hut with ⟨hw, hw'⟩ | ⟨hw, hw'⟩
    · exact h.eq_of_mem_region hr hs ht hw hw' hne hmem
    · exact (h.eq_of_mem_region hr ht hs hw hw' hne hmem).symm
  rcases hrst with rfl | rfl
  · exact .inl (side hr hus har hline)
  · refine .inr (side hr hut har ?_)
    rwa [middle_comm]

/-- A short way over the middle of an edge stays in the triangles on its two sides. -/
theorem exists_across (h : Delaunay pos hull is ts) (hs : s ∈ ts) (ht : t ∈ ts)
    (hus : (u, v) ∈ s.arcs) (hut : (v, u) ∈ t.arcs) :
    ∃ p ∈ interior (s.region pos), ∃ q ∈ interior (t.region pos), ∀ x ∈ segment ℝ p q,
      x ∈ interior (s.region pos) ∨ x = middle pos u v ∨ x ∈ interior (t.region pos) := by
  obtain ⟨w, hw⟩ := reads_of_arc hus
  obtain ⟨x, hx⟩ := reads_of_arc hut
  have hA := hw.left (h.left s hs)
  obtain ⟨δ, hδ0, hδ1, hbeyond⟩ := exists_beyond_middle (hx.left (h.left t ht)) hA
  have hinS : ∀ τ : ℝ, 0 < τ → τ < 1 →
      AffineMap.lineMap (middle pos u v) (pos w) τ ∈ interior (s.region pos) := by
    intro τ h0 h1
    rw [← hw.region pos]
    exact toward_apex_mem hA h0 h1
  have hinT : ∀ τ : ℝ, 0 < τ → τ ≤ δ →
      AffineMap.lineMap (middle pos u v) (pos w) (-τ) ∈ interior (t.region pos) := by
    intro τ h0 h1
    rw [← hx.region pos]
    exact hbeyond τ h0 h1
  refine ⟨_, hinS δ hδ0 hδ1, _, hinT δ hδ0 le_rfl, fun y hy => ?_⟩
  rw [← image_segment, segment_symm, segment_eq_Icc (by linarith)] at hy
  obtain ⟨τ, ⟨h0, h1⟩, rfl⟩ := hy
  rcases lt_trichotomy τ 0 with hneg | rfl | hpos
  · have := hinT (-τ) (by linarith) (by linarith)
    rw [neg_neg] at this
    exact .inr (.inr this)
  · exact .inr (.inl (AffineMap.lineMap_apply_zero _ _))
  · exact .inl (hinS τ hpos (by linarith))

end Delaunay

end Across

/-! ### Closed polygons -/

/-- How often the edges wind about a point. -/
def crossings (pos : UInt32 → Plane) (z : List (UInt32 × UInt32)) (q : Plane) : ℝ :=
  (z.map fun a => crossing q (pos a.1) (pos a.2)).sum

open Classical in
/-- The point is inside the polygons, by the even-odd rule. -/
def Inside (pos : UInt32 → Plane) (z : List (UInt32 × UInt32)) (q : Plane) : Prop :=
  Odd (z.countP fun a => crossing q (pos a.1) (pos a.2) ≠ 0)

/-- Inside is where the polygons wind an odd number of times. -/
theorem exists_crossings (pos : UInt32 → Plane) (z : List (UInt32 × UInt32)) (q : Plane) :
    ∃ k : ℤ, crossings pos z q = k ∧ (Inside pos z q ↔ Odd k) := by
  obtain ⟨k, hk, hodd⟩ := exists_turns (z.map (Prod.map pos pos)) q
  rw [turns, List.map_map] at hk
  rw [OddlyCrossed, List.countP_map] at hodd
  exact ⟨k, hk, hodd⟩

/-- **The crossings change where the way passes an edge**, when as many edges start at a vertex as end
there. -/
theorem crossings_sub {z : List (UInt32 × UInt32)} (hz : List.Perm (z.map Prod.fst) (z.map Prod.snd)) (p q : Plane) :
    crossings pos z p - crossings pos z q =
      (z.map fun a => meeting p q (pos a.1) (pos a.2)).sum := by
  have hends := (hz.map fun i => crossing (-pos i) (-p) (-q)).sum_eq
  rw [List.map_map, List.map_map] at hends
  have hsplit : ∀ l : List (UInt32 × UInt32), (l.map fun a => meeting p q (pos a.1) (pos a.2)).sum =
      crossings pos l p - crossings pos l q -
        (l.map ((fun i => crossing (-pos i) (-p) (-q)) ∘ Prod.fst)).sum +
        (l.map ((fun i => crossing (-pos i) (-p) (-q)) ∘ Prod.snd)).sum := by
    intro l
    induction l with
    | nil => simp [crossings]
    | cons a l ih =>
      rw [List.map_cons, List.sum_cons, ih]
      simp only [List.map_cons, List.sum_cons, crossings, meeting, Function.comp_apply]
      ring
  rw [hsplit, hends]
  ring

section Polygons

variable {s t : Triangle} {u v : UInt32} {z : List (UInt32 × UInt32)}

namespace Delaunay

/-- Inside a triangle the crossings do not change. -/
theorem crossings_interior (h : Delaunay pos hull is ts) (ht : t ∈ ts)
    (hz : List.Perm (z.map Prod.fst) (z.map Prod.snd))
    (hedge : ∀ a ∈ z, a ∈ arcsOf ts ∨ a.swap ∈ arcsOf ts) {p q : Plane}
    (hp : p ∈ interior (t.region pos)) (hq : q ∈ interior (t.region pos)) :
    crossings pos z p = crossings pos z q := by
  rw [← sub_eq_zero, crossings_sub hz]
  refine List.sum_eq_zero fun y hy => ?_
  obtain ⟨a, ha, rfl⟩ := List.mem_map.mp hy
  refine meeting_eq_zero fun x hx => ?_
  have hin := (convex_convexHull ℝ _).interior.segment_subset hp hq hx
  rcases hedge a ha with ha | ha
  · exact h.not_mem_edge ht hin ha
  · rw [segment_symm]
    exact h.not_mem_edge ht hin ha

/-- There is a way over an edge that meets this edge once and no other. -/
theorem exists_way (h : Delaunay pos hull is ts) (hs : s ∈ ts) (ht : t ∈ ts)
    (hus : (u, v) ∈ s.arcs) (hut : (v, u) ∈ t.arcs) :
    ∃ p ∈ interior (s.region pos), ∃ q ∈ interior (t.region pos),
      meeting p q (pos u) (pos v) = 1 ∧ ∀ a ∈ arcsOf ts, a ≠ (u, v) → a ≠ (v, u) →
        meeting p q (pos a.1) (pos a.2) = 0 := by
  obtain ⟨p, hp, q, hq, hway⟩ := h.exists_across hs ht hus hut
  have hother : ∀ a ∈ arcsOf ts, a ≠ (u, v) → a ≠ (v, u) → meeting p q (pos a.1) (pos a.2) = 0 := by
    intro a ha h₁ h₂
    refine meeting_eq_zero fun x hx hxa => ?_
    rcases hway x hx with hin | rfl | hin
    · exact h.not_mem_edge hs hin ha hxa
    · exact (h.eq_of_middle_mem hs ht hus hut ha hxa).elim h₁ h₂
    · exact h.not_mem_edge ht hin ha hxa
  refine ⟨p, hp, q, hq, ?_, hother⟩
  -- the triangle is left over this side, as it is not over the other two
  obtain ⟨w, hw⟩ := reads_of_arc hus
  have hne : u ≠ v ∧ v ≠ w ∧ w ≠ u :=
    corners_ne (t := ⟨u, v, w⟩) (hw.left (h.left s hs)).ne'
  have hside : ∀ a ∈ (⟨u, v, w⟩ : Triangle).arcs, a ∈ arcsOf ts :=
    fun a ha => mem_arcsOf.mpr ⟨s, hs, (hw.arcs a).mp ha⟩
  have h₁ := hother (v, w) (hside _ (by simp [arcs])) (by simp; grind) (by simp; grind)
  have h₂ := hother (w, u) (hside _ (by simp [arcs])) (by simp; grind) (by simp; grind)
  have hsum := meeting_triangle p q (pos u) (pos v) (pos w)
  have hwp : winding p (pos u) (pos v) (pos w) = 1 :=
    (hw.winding pos p).trans (h.winding_interior hs hp).1
  have hwq : winding q (pos u) (pos v) (pos w) = 0 := by
    refine (winding_eq_zero_or_one (hw.left (h.left s hs)) q).resolve_right fun k => ?_
    obtain rfl := h.eq_of_winding hs ht ((hw.winding pos q).symm.trans k) (h.winding_interior ht hq).1
    exact swap_not_mem_arcs (h.left s hs) hus hut
  dsimp only at h₁ h₂
  linarith

/-- **The crossings over an edge** change by how often the polygons run along it. -/
theorem crossings_across (h : Delaunay pos hull is ts) (hs : s ∈ ts) (ht : t ∈ ts)
    (hus : (u, v) ∈ s.arcs) (hut : (v, u) ∈ t.arcs)
    (hz : List.Perm (z.map Prod.fst) (z.map Prod.snd))
    (hedge : ∀ a ∈ z, a ∈ arcsOf ts ∨ a.swap ∈ arcsOf ts) {p q : Plane}
    (hp : p ∈ interior (s.region pos)) (hq : q ∈ interior (t.region pos)) :
    crossings pos z p - crossings pos z q = z.count (u, v) - z.count (v, u) := by
  obtain ⟨p', hp', q', hq', hthis, hother⟩ := h.exists_way hs ht hus hut
  rw [h.crossings_interior hs hz hedge hp hp', h.crossings_interior ht hz hedge hq hq',
    crossings_sub hz]
  have hmeet : ∀ a ∈ z, meeting p' q' (pos a.1) (pos a.2) = direction (u, v) a.1 a.2 := by
    intro a ha
    show _ = (if a = (u, v) then (1 : ℝ) else 0) - if a = (v, u) then 1 else 0
    by_cases h₁ : a = (u, v)
    · have h₂ : (u, v) ≠ (v, u) := by
        intro e
        exact swap_not_mem_arcs (h.left s hs) hus (e ▸ hus)
      rw [h₁, hthis, if_pos rfl, if_neg h₂, sub_zero]
    · by_cases h₂ : a = (v, u)
      · rw [if_neg h₁, h₂, meeting_swap, hthis, if_pos rfl, zero_sub]
      · rw [if_neg h₁, if_neg h₂, sub_zero]
        rcases hedge a ha with hm | hm
        · exact hother a hm h₁ h₂
        · rw [← neg_neg (meeting _ _ _ _), ← meeting_swap, neg_eq_zero]
          exact hother a.swap hm (fun e => h₂ (Prod.swap_eq_iff_eq_swap.mp e))
            fun e => h₁ (Prod.swap_eq_iff_eq_swap.mp e)
  rw [List.map_congr_left hmeet, sum_direction]
  rfl

end Delaunay

end Polygons

/-! ### Chosen triangles -/

/-- The centre of a triangle. -/
def Triangle.centre (pos : UInt32 → Plane) (t : Triangle) : Plane :=
  (((pos t.v1).1 + (pos t.v2).1 + (pos t.v3).1) / 3, ((pos t.v1).2 + (pos t.v2).2 + (pos t.v3).2) / 3)

theorem Triangle.centre_mem {t : Triangle} (h : 0 < t.areaAt pos) :
    t.centre pos ∈ interior (t.region pos) := by
  refine (mem_interior_iff h).mpr ⟨?_, ?_, ?_⟩ <;> unfold areaAt area at h <;> unfold area centre <;>
    dsimp only <;> linarith

/-- One triangle only has a directed side. -/
theorem Tiles.eq_of_arc (h : Tiles pos hull ts) {s t : Triangle} (hs : s ∈ ts) (ht : t ∈ ts)
    {a : UInt32 × UInt32} (has : a ∈ s.arcs) (hat : a ∈ t.arcs) : s = t := by
  obtain ⟨w, hw⟩ : ∃ w, Reads ⟨a.1, a.2, w⟩ s := reads_of_arc has
  rcases descends_or_turned (ne_of_area_pos (hw.left (h.left s hs))) with hd | hd
  · exact h.eq_of_winding hs ht (h.winding_middle hs has hd) (h.winding_middle ht hat hd)
  · exact h.turned.eq_of_winding hs ht (h.turned.winding_middle hs has hd)
      (h.turned.winding_middle ht hat hd)

section Chosen

variable {keep : Triangle → Bool} {s t : Triangle} {z : List (UInt32 × UInt32)}

theorem Tiles.chosen_nodup (h : Tiles pos hull ts) : (arcsOf (ts.filter keep)).Nodup :=
  h.arcs_nodup.sublist (List.filter_sublist.flatMap _)

/-- The rim of chosen triangles is the edges that one of them has. -/
theorem Tiles.meshRim_chosen (h : Tiles pos hull ts) :
    (Mesh.rim (ts.filter keep)).Perm ((rim (ts.filter keep)).map Edge.ofArc) := by
  refine meshRim_perm h.chosen_nodup (fun a ha e => ?_) (.refl _)
  obtain ⟨t, ht, hat⟩ := mem_arcsOf.mp ha
  exact swap_not_mem_arcs (h.left t (List.mem_of_mem_filter ht)) hat (e.symm ▸ hat)

/-- The rim of chosen triangles does not end. -/
theorem Tiles.rim_continues (h : Tiles pos hull ts) {x y : UInt32}
    (hxy : (x, y) ∈ rim (ts.filter keep) ∨ (y, x) ∈ rim (ts.filter keep)) :
    ∃ w ≠ y, (x, w) ∈ rim (ts.filter keep) ∨ (w, x) ∈ rim (ts.filter keep) := by
  by_contra hend
  have hone : ∀ w, (x, w) ∈ rim (ts.filter keep) ∨ (w, x) ∈ rim (ts.filter keep) → w = y :=
    fun w hw => by_contra fun hne => hend ⟨w, hne, hw⟩
  -- as often as the rim comes to a vertex it leaves it
  let g : UInt32 → ℝ := fun i => if i = x then 1 else 0
  have hsum : ((rim (ts.filter keep)).map fun a => g a.2 - g a.1).sum = 0 := by
    rw [sum_rim (f := fun i j => g j - g i) (fun i j => (neg_sub _ _).symm) h.chosen_nodup]
    exact List.sum_eq_zero fun y hy => by
      obtain ⟨t, -, rfl⟩ := List.mem_map.mp hy
      exact circulation_sub g t
  have hnodup : (rim (ts.filter keep)).Nodup := h.chosen_nodup.filter _
  have hback : ∀ a ∈ rim (ts.filter keep), a.swap ∉ rim (ts.filter keep) :=
    fun a ha hs => (mem_rim.mp ha).2 (mem_rim.mp hs).1
  obtain ⟨a, ha, hax⟩ : ∃ a ∈ rim (ts.filter keep), a = (x, y) ∨ a = (y, x) :=
    hxy.elim (fun hm => ⟨_, hm, .inl rfl⟩) fun hm => ⟨_, hm, .inr rfl⟩
  have hothers : ∀ b ∈ rim (ts.filter keep), b ≠ a → g b.2 - g b.1 = 0 := by
    intro b hb hne
    by_cases h₁ : b.1 = x
    · obtain rfl : b = (x, y) := Prod.ext h₁ (hone _ (.inl (h₁ ▸ hb)))
      rcases hax with rfl | rfl
      · exact absurd rfl hne
      · exact absurd ha (hback _ hb)
    · by_cases h₂ : b.2 = x
      · obtain rfl : b = (y, x) := Prod.ext (hone _ (.inr (h₂ ▸ hb))) h₂
        rcases hax with rfl | rfl
        · exact absurd ha (hback _ hb)
        · exact absurd rfl hne
      · simp [g, h₁, h₂]
  have hxy' : x ≠ y := by
    rintro rfl
    rcases hax with rfl | rfl <;> exact hback _ ha ha
  rw [← List.sum_toFinset _ hnodup, Finset.sum_eq_single_of_mem a (List.mem_toFinset.mpr ha)
    fun b hb hne => hothers b (List.mem_toFinset.mp hb) hne] at hsum
  rcases hax with rfl | rfl <;> simp [g, hxy'.symm] at hsum

/-- A chosen triangle uses its directed sides, alone. -/
theorem Tiles.count_arc (h : Tiles pos hull ts) (hs : s ∈ ts) {a : UInt32 × UInt32} (ha : a ∈ s.arcs) :
    (arcsOf (ts.filter keep)).count a = if keep s then 1 else 0 := by
  split
  · next hk =>
    exact List.count_eq_one_of_mem h.chosen_nodup (mem_arcsOf.mpr ⟨s, List.mem_filter.mpr ⟨hs, hk⟩, ha⟩)
  · next hk =>
    refine List.count_eq_zero_of_not_mem fun hm => hk ?_
    obtain ⟨t, ht, hat⟩ := mem_arcsOf.mp hm
    obtain ⟨ht, hkt⟩ := List.mem_filter.mp ht
    rwa [h.eq_of_arc hs ht ha hat]

/-- Of triangles at most one of which winds about a point, the chosen ones wind about it as often as
that one is chosen. -/
theorem sum_filter_winding {g : Triangle → ℝ} :
    ∀ {l : List Triangle}, (∀ x ∈ l, g x = 0 ∨ g x = 1) →
      (l.Pairwise fun x y => ¬(g x = 1 ∧ g y = 1)) → t ∈ l → g t = 1 →
      ((l.filter keep).map g).sum = if keep t then 1 else 0
  | x :: l, h01, hl, ht, h1 => by
    obtain ⟨hx, hl⟩ := List.pairwise_cons.mp hl
    have h01l : ∀ y ∈ l, g y = 0 ∨ g y = 1 := fun y hy => h01 y (List.mem_cons_of_mem _ hy)
    rcases List.mem_cons.mp ht with rfl | ht
    · have hzero : ((l.filter keep).map g).sum = 0 := by
        refine List.sum_eq_zero fun y hy => ?_
        obtain ⟨r, hr, rfl⟩ := List.mem_map.mp hy
        have hr := List.mem_of_mem_filter hr
        exact (h01l r hr).resolve_right fun k => hx r hr ⟨h1, k⟩
      rw [List.filter_cons]
      split
      · rw [List.map_cons, List.sum_cons, hzero, h1, add_zero]
      · exact hzero
    · have hgx : g x = 0 := (h01 x List.mem_cons_self).resolve_right fun k => hx t ht ⟨k, h1⟩
      rw [List.filter_cons]
      split
      · rw [List.map_cons, List.sum_cons, hgx, zero_add]
        exact sum_filter_winding h01l hl ht h1
      · exact sum_filter_winding h01l hl ht h1

/-- **Inside the rim of chosen triangles** are the inner points of these. -/
theorem Delaunay.inside_rim (h : Delaunay pos hull is ts) (ht : t ∈ ts) {q : Plane}
    (hq : q ∈ interior (t.region pos)) : Inside pos (rim (ts.filter keep)) q ↔ keep t = true := by
  obtain ⟨k, hk, hodd⟩ := exists_crossings pos (rim (ts.filter keep)) q
  have hsum : crossings pos (rim (ts.filter keep)) q =
      ((ts.filter keep).map (windingAt pos q)).sum :=
    sum_rim (f := fun i j => crossing q (pos i) (pos j)) (fun _ _ => crossing_swap _ _ _) h.chosen_nodup
  rw [hsum, sum_filter_winding (h.winding_zero_or_one q) (h.winds_once q) ht
    (h.winding_interior ht hq).1] at hk
  rw [hodd]
  split at hk
  · next hkeep =>
    obtain rfl : k = 1 := by exact_mod_cast hk.symm
    simp [hkeep]
  · next hkeep =>
    obtain rfl : k = 0 := by exact_mod_cast hk.symm
    simp [hkeep]

/-- Which way the edges run makes no difference to the inside. -/
theorem inside_congr {y z : List (UInt32 × UInt32)} (hp : (y.map Edge.ofArc).Perm (z.map Edge.ofArc))
    (q : Plane) : Inside pos y q ↔ Inside pos z q := by
  classical
  have key : ∀ l : List (UInt32 × UInt32),
      (l.countP fun a => crossing q (pos a.1) (pos a.2) ≠ 0) =
        (l.map Edge.ofArc).countP fun e => crossing q (pos e.low) (pos e.high) ≠ 0 := by
    intro l
    rw [List.countP_map]
    refine List.countP_congr fun a _ => ?_
    have hends : crossing q (pos (Edge.ofArc a).low) (pos (Edge.ofArc a).high) ≠ 0 ↔
        crossing q (pos a.1) (pos a.2) ≠ 0 := by
      unfold Edge.ofArc
      rcases Edge.ends_of_between a.1 a.2 with ⟨h₁, h₂⟩ | ⟨h₁, h₂⟩
      · rw [h₁, h₂]
      · rw [h₁, h₂, crossing_swap, neg_ne_zero]
    rw [Function.comp_apply, decide_eq_true_iff, decide_eq_true_iff, hends]
  unfold Inside
  rw [key, key, hp.countP_eq]

/-- An edge of the hull is used in one direction only. -/
theorem Tiles.hull_swap_not_mem (h : Tiles pos hull ts) {a : UInt32 × UInt32} (ha : a ∈ hull.arcs) :
    a.swap ∉ arcsOf ts := by
  have hc := h.count_sub_count a
  have h₁ : (1 : ℝ) ≤ hull.arcs.count a := by exact_mod_cast List.count_pos_iff.mpr ha
  have h₂ : ((arcsOf ts).count a : ℝ) ≤ 1 := by
    exact_mod_cast List.nodup_iff_count_le_one.mp h.arcs_nodup a
  rw [List.count_eq_zero_of_not_mem (swap_not_mem_arcs h.hull_left ha)] at hc
  have : ((arcsOf ts).count a.swap : ℝ) ≤ 0 := by push_cast at hc; linarith
  exact List.count_eq_zero.mp (by exact_mod_cast this.antisymm (Nat.cast_nonneg _))

/-- Between two triangles an edge is used by those of them that are chosen. -/
theorem Tiles.count_edge (h : Tiles pos hull ts) (hs : s ∈ ts) (ht : t ∈ ts) {a : UInt32 × UInt32}
    (has : a ∈ s.arcs) (hat : a.swap ∈ t.arcs) : (edgesOf (ts.filter keep)).count (Edge.ofArc a) =
      (if keep s then 1 else 0) + if keep t then 1 else 0 := by
  have hswap : a.swap ≠ a := fun e => swap_not_mem_arcs (h.left s hs) has (e.symm ▸ has)
  rw [edgesOf_eq, count_ofArc hswap, h.count_arc hs has, h.count_arc ht hat]

/-- An edge that is in no triangle is in no chosen one. -/
theorem mem_arcsOf_of_mem_edgesOf {e : Edge} (he : e ∈ edgesOf (ts.filter keep)) :
    ∃ a ∈ arcsOf ts, Edge.ofArc a = e ∧ ∃ t ∈ ts, keep t = true ∧ a ∈ t.arcs := by
  rw [edgesOf_eq] at he
  obtain ⟨a, ha, rfl⟩ := List.mem_map.mp he
  obtain ⟨t, ht, hat⟩ := mem_arcsOf.mp ha
  obtain ⟨ht, hk⟩ := List.mem_filter.mp ht
  exact ⟨a, mem_arcsOf.mpr ⟨t, ht, hat⟩, rfl, t, ht, hk, hat⟩

/-- When polygons are the edges that one chosen triangle has, the chosen triangles are those inside. -/
theorem Delaunay.inside_of_once (h : Delaunay pos hull is ts) (hn : (z.map Edge.ofArc).Nodup)
    (honce : ∀ e, (edgesOf (ts.filter keep)).count e = 1 ↔ e ∈ z.map Edge.ofArc) (ht : t ∈ ts)
    {q : Plane} (hq : q ∈ interior (t.region pos)) : keep t = true ↔ Inside pos z q := by
  have hz : (Mesh.rim (ts.filter keep)).Perm (z.map Edge.ofArc) :=
    (List.perm_ext_iff_of_nodup (meshRim_nodup _) hn).mpr fun e => mem_meshRim.trans (honce e)
  rw [← inside_congr (h.meshRim_chosen.symm.trans hz), h.inside_rim ht hq]

/-- **Polygons as the boundary of chosen triangles.**  Closed polygons, none of whose edges is on the
hull or run along twice, are the edges that one chosen triangle has when they are edges of the tiling
and the chosen triangles are those inside. -/
theorem Delaunay.once_of_inside (h : Delaunay pos hull is ts)
    (hkeep : ∀ t ∈ ts, keep t = true → ∀ a ∈ t.arcs, a ∉ hull.arcs)
    (hz : List.Perm (z.map Prod.fst) (z.map Prod.snd)) (hn : (z.map Edge.ofArc).Nodup)
    (hzh : ∀ a ∈ z, a ∉ hull.arcs ∧ a.swap ∉ hull.arcs)
    (hedge : ∀ a ∈ z, a ∈ arcsOf ts ∨ a.swap ∈ arcsOf ts)
    (hin : ∀ t ∈ ts, keep t = true ↔ Inside pos z (t.centre pos)) (e : Edge) :
    (edgesOf (ts.filter keep)).count e = 1 ↔ e ∈ z.map Edge.ofArc := by
  have hused : (edgesOf (ts.filter keep)).count e = 1 → ∃ a ∈ arcsOf ts, Edge.ofArc a = e ∧
      ∃ t ∈ ts, keep t = true ∧ a ∈ t.arcs :=
    fun h1 => mem_arcsOf_of_mem_edgesOf (List.count_pos_iff.mp (h1.symm ▸ Nat.one_pos))
  by_cases he : ∃ a ∈ arcsOf ts, Edge.ofArc a = e
  · obtain ⟨a, ha, rfl⟩ := he
    obtain ⟨s, hs, has⟩ := mem_arcsOf.mp ha
    by_cases hh : a ∈ hull.arcs
    · -- beside the hull nothing is chosen, and no polygon runs there
      refine iff_of_false (fun h1 => ?_) fun hm => ?_
      · obtain ⟨b, hb, hba, t, ht, hk, hbt⟩ := hused h1
        rcases Edge.ofArc_eq_iff.mp hba with rfl | rfl
        · exact hkeep t ht hk _ hbt hh
        · exact h.hull_swap_not_mem hh hb
      · obtain ⟨b, hb, hba⟩ := List.mem_map.mp hm
        rcases Edge.ofArc_eq_iff.mp hba with rfl | rfl
        · exact (hzh _ hb).1 hh
        · exact (hzh _ hb).2 (by rwa [Prod.swap_swap])
    · obtain ⟨t, ht, hat⟩ := mem_arcsOf.mp (h.reverse_mem ha hh)
      obtain ⟨k, hk, hks⟩ := exists_crossings pos z (s.centre pos)
      obtain ⟨l, hl, hlt⟩ := exists_crossings pos z (t.centre pos)
      have hacross : k - l = z.count a - z.count a.swap := by
        have := h.crossings_across hs ht has hat hz hedge (centre_mem (h.left s hs))
          (centre_mem (h.left t ht))
        rw [hk, hl] at this
        exact_mod_cast this
      have hswap : a.swap ≠ a := fun e => swap_not_mem_arcs (h.left s hs) has (e.symm ▸ has)
      have hcount := count_ofArc hswap z
      have hle := List.nodup_iff_count_le_one.mp hn (Edge.ofArc a)
      have hmem : Edge.ofArc a ∈ z.map Edge.ofArc ↔ z.count a + z.count a.swap = 1 := by
        rw [← List.count_pos_iff, hcount]
        omega
      rw [h.count_edge hs ht has hat, hmem, if_congr ((hin s hs).trans (hks.trans Int.odd_iff)) rfl rfl,
        if_congr ((hin t ht).trans (hlt.trans Int.odd_iff)) rfl rfl]
      split_ifs <;> omega
  · refine iff_of_false (fun h1 => ?_) fun hm => ?_
    · obtain ⟨a, ha, hae, -⟩ := hused h1
      exact he ⟨a, ha, hae⟩
    · obtain ⟨a, ha, rfl⟩ := List.mem_map.mp hm
      rcases hedge a ha with hm | hm
      · exact he ⟨a, hm, rfl⟩
      · exact he ⟨a.swap, hm, Edge.ofArc_swap a⟩

end Chosen

end Prims

end
