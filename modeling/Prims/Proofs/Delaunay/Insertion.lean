import Prims.Proofs.Tiling.Basic

/-!
# Delaunay — Insertion

Tilings whose circles are empty, and the insertion of a vertex into one.  `Delaunay pos hull is ts`
says that the triangles `ts` tile the hull, that their corners are among the vertices `is`, latest
first, and that no vertex of `is` lies inside the circle of a triangle.  `insertAt` removes the
triangles with the new vertex in their circle and joins the rim of what is removed to it.

The removed triangles see the new vertex on the left of every side of their rim (`rim_left`): a side
the vertex does not lie to the left of is crossed by a second circle that contains it, so the triangle
beyond is removed as well.  From this one fact the fan is counter-clockwise, its circles are empty, and
its boundary is that of the removed triangles (`Delaunay.insert`).
-/

noncomputable section

namespace Prims

open Plane Triangle

/-- The vertex lies inside the circle of the triangle. -/
def Triangle.Influenced (pos : UInt32 → Plane) (p : UInt32) (t : Triangle) : Prop :=
  0 < inCircle (pos t.v1) (pos t.v2) (pos t.v3) (pos p)

/-- A tiling of the hull by triangles over the vertices `is`, latest first, with empty circles. -/
structure Delaunay (pos : UInt32 → Plane) (hull : Triangle) (is : List UInt32)
    (ts : List Triangle) : Prop extends Tiles pos hull ts where
  /-- Each corner is the first vertex at its position. -/
  corner : ∀ t ∈ ts, ∀ i ∈ t.indices,
    ∃ later earlier, is = later ++ i :: earlier ∧ ∀ j ∈ earlier, pos j ≠ pos i
  empty : ∀ t ∈ ts, ∀ i ∈ is, ¬t.Influenced pos i
  hull_mem : ∀ i ∈ hull.indices, i ∈ is
  inside : ∀ i ∈ is, i ∈ hull.indices ∨ pos i ∈ interior (hull.region pos)

open Classical in
/-- The triangles after the insertion of a vertex. -/
def insertAt (pos : UInt32 → Plane) (p : UInt32) (ts : List Triangle) : List Triangle :=
  (ts.filter fun t => ¬t.Influenced pos p) ++ fan p (ts.filter fun t => t.Influenced pos p)

variable {pos : UInt32 → Plane} {hull : Triangle} {is : List UInt32} {ts : List Triangle}
  {p : UInt32}

namespace Delaunay

theorem corner_mem (h : Delaunay pos hull is ts) {t : Triangle} (ht : t ∈ ts) {i : UInt32}
    (hi : i ∈ t.indices) : i ∈ is := by
  obtain ⟨later, earlier, rfl, -⟩ := h.corner t ht i hi
  simp

/-- Inserted in the order of their indices, of vertices at one position only the first is a corner. -/
theorem first (h : Delaunay pos hull is ts) (hs : is.Pairwise fun i j => j.toNat < i.toNat)
    {t : Triangle} (ht : t ∈ ts) {i j : UInt32} (hi : i ∈ t.indices) (hj : j ∈ is)
    (hji : j.toNat < i.toNat) : pos j ≠ pos i := by
  obtain ⟨later, earlier, rfl, hne⟩ := h.corner t ht i hi
  rcases List.mem_append.mp hj with hj | hj
  · have := (List.pairwise_append.mp hs).2.2 j hj i List.mem_cons_self
    omega
  · rcases List.mem_cons.mp hj with rfl | hj
    · omega
    · exact hne j hj

/-- No vertex lies outside the hull. -/
theorem mem_hull (h : Delaunay pos hull is ts) {i : UInt32} (hi : i ∈ is) :
    pos i ∈ hull.region pos := by
  rcases h.inside i hi with hc | hin
  · exact corner_mem_region hc
  · exact interior_subset hin

/-- No vertex lies to the right of a side of the hull. -/
theorem hull_side (h : Delaunay pos hull is ts) {a : UInt32 × UInt32} (ha : a ∈ hull.arcs)
    {i : UInt32} (hi : i ∈ is) : 0 ≤ area (pos a.1) (pos a.2) (pos i) := by
  obtain ⟨h₁, h₂, h₃⟩ := (mem_triangle_iff h.hull_left).mp (h.mem_hull hi)
  rcases mem_arcs.mp ha with rfl | rfl | rfl
  · exact h₁
  · exact h₂
  · exact h₃

theorem hull_side_pos (h : Delaunay pos hull is ts) {a : UInt32 × UInt32} (ha : a ∈ hull.arcs)
    {q : Plane} (hq : q ∈ interior (hull.region pos)) : 0 < area (pos a.1) (pos a.2) q := by
  obtain ⟨h₁, h₂, h₃⟩ := (mem_interior_iff h.hull_left).mp hq
  rcases mem_arcs.mp ha with rfl | rfl | rfl
  · exact h₁
  · exact h₂
  · exact h₃

/-! ### Vertices in triangles -/

/-- **A vertex in a triangle is at one of its corners.** -/
theorem eq_corner (h : Delaunay pos hull is ts) {t : Triangle} (ht : t ∈ ts) {i : UInt32}
    (hi : i ∈ is) (hm : pos i ∈ t.region pos) : ∃ j ∈ t.indices, pos j = pos i := by
  obtain ⟨h₁, h₂, h₃⟩ := (mem_triangle_iff (h.left t ht)).mp hm
  rcases corner_of_outside (h.left t ht) h₁ h₂ h₃ (not_lt.mp (h.empty t ht i hi)) with e | e | e
  · exact ⟨t.v1, by simp [indices], e.symm⟩
  · exact ⟨t.v2, by simp [indices], e.symm⟩
  · exact ⟨t.v3, by simp [indices], e.symm⟩

/-- The hull is covered, so that every point of it is in a triangle. -/
theorem exists_region (h : Delaunay pos hull is ts) {q : Plane} (hq : q ∈ hull.region pos) :
    ∃ t ∈ ts, q ∈ t.region pos := by
  rw [← h.iUnion_region fun t ht i hi => h.mem_hull (h.corner_mem ht hi)] at hq
  simpa using hq

/-- **Every vertex is at a corner.** -/
theorem exists_corner (h : Delaunay pos hull is ts) {i : UInt32} (hi : i ∈ is) :
    ∃ t ∈ ts, ∃ j ∈ t.indices, pos j = pos i := by
  obtain ⟨t, ht, hm⟩ := h.exists_region (h.mem_hull hi)
  exact ⟨t, ht, h.eq_corner ht hi hm⟩

/-- A new vertex lies in a circle exactly when no vertex is at its position. -/
theorem exists_influenced (h : Delaunay pos hull is ts) (hp : pos p ∈ hull.region pos) :
    (∃ t ∈ ts, t.Influenced pos p) ↔ ∀ i ∈ is, pos i ≠ pos p := by
  constructor
  · rintro ⟨t, ht, hin⟩ i hi he
    refine h.empty t ht i hi ?_
    rwa [Influenced, he]
  · intro hne
    by_contra hno
    obtain ⟨t, ht, hm⟩ := h.exists_region hp
    obtain ⟨h₁, h₂, h₃⟩ := (mem_triangle_iff (h.left t ht)).mp hm
    have hout : inCircle (pos t.v1) (pos t.v2) (pos t.v3) (pos p) ≤ 0 :=
      not_lt.mp fun hin => hno ⟨t, ht, hin⟩
    rcases corner_of_outside (h.left t ht) h₁ h₂ h₃ hout with e | e | e
    · exact hne _ (h.corner_mem ht (i := t.v1) (by simp [indices])) e.symm
    · exact hne _ (h.corner_mem ht (i := t.v2) (by simp [indices])) e.symm
    · exact hne _ (h.corner_mem ht (i := t.v3) (by simp [indices])) e.symm

end Delaunay

/-- Nothing happens when the vertex lies in no circle. -/
theorem insertAt_of_not_influenced (h : ∀ t ∈ ts, ¬t.Influenced pos p) :
    insertAt pos p ts = ts := by
  rw [insertAt, List.filter_eq_self.mpr fun t ht => by simpa using h t ht,
    List.filter_eq_nil_iff.mpr fun t ht => by simpa using h t ht]
  simp [fan, rim, arcsOf]

/-! ### The rim -/

section Rim

open Classical

/-- The triangles that the insertion of a vertex removes. -/
abbrev removedAt (pos : UInt32 → Plane) (p : UInt32) (ts : List Triangle) : List Triangle :=
  ts.filter fun t => t.Influenced pos p

theorem mem_removedAt {t : Triangle} : t ∈ removedAt pos p ts ↔ t ∈ ts ∧ t.Influenced pos p := by
  simp [removedAt]

/-- A side of a triangle, its third vertex, and what the triangle says about them. -/
theorem Delaunay.side (h : Delaunay pos hull is ts) {t : Triangle} (ht : t ∈ ts)
    {a : UInt32 × UInt32} (ha : a ∈ t.arcs) :
    ∃ w ∈ is, 0 < area (pos a.1) (pos a.2) (pos w) ∧
      (∀ i ∈ is, inCircle (pos a.1) (pos a.2) (pos w) (pos i) ≤ 0) ∧
      ∀ q, 0 < inCircle (pos a.1) (pos a.2) (pos w) (pos q) ↔ t.Influenced pos q := by
  obtain ⟨w, hr⟩ : ∃ w, Reads ⟨a.1, a.2, w⟩ t := reads_of_arc ha
  have hw : w ∈ t.indices := (hr.indices w).mp (by simp [indices])
  refine ⟨w, h.corner_mem ht hw, hr.left (h.left t ht), fun i hi => ?_, fun q => ?_⟩
  · exact (hr.circle pos (pos i)).trans_le (not_lt.mp (h.empty t ht i hi))
  · rw [Influenced, ← hr.circle pos]

/-- **The new vertex lies to the left of the rim.** -/
theorem Delaunay.rim_left (h : Delaunay pos hull is ts) (hp : pos p ∈ interior (hull.region pos))
    {a : UInt32 × UInt32} (ha : a ∈ rim (removedAt pos p ts)) :
    0 < area (pos a.1) (pos a.2) (pos p) := by
  obtain ⟨hmem, hswap⟩ := mem_rim.mp ha
  obtain ⟨t, ht, hat⟩ := mem_arcsOf.mp hmem
  obtain ⟨htts, hin⟩ := mem_removedAt.mp ht
  by_cases hh : a ∈ hull.arcs
  · exact h.hull_side_pos hh hp
  by_contra hle
  -- otherwise the triangle beyond the side has the vertex in its circle too
  obtain ⟨s, hs, has⟩ := mem_arcsOf.mp (h.reverse_mem (mem_arcsOf.mpr ⟨t, htts, hat⟩) hh)
  obtain ⟨w, -, hw, hempty, hiff⟩ := h.side htts hat
  obtain ⟨x, hx, hxs, -, hiffs⟩ := h.side hs has
  rw [Prod.fst_swap, Prod.snd_swap] at hxs hiffs
  have hbeyond : area (pos a.1) (pos a.2) (pos x) < 0 := by rw [area_swap] at hxs; linarith
  have hins := inside_across hw hbeyond (hempty x hx) (not_lt.mp hle) ((hiff p).mpr hin)
  exact hswap (mem_arcsOf.mpr ⟨s, mem_removedAt.mpr ⟨hs, (hiffs p).mp hins⟩, has⟩)

/-- The circle over a side of the rim through the new vertex is empty. -/
theorem Delaunay.rim_empty (h : Delaunay pos hull is ts)
    (hp : pos p ∈ interior (hull.region pos)) {a : UInt32 × UInt32}
    (ha : a ∈ rim (removedAt pos p ts)) {i : UInt32} (hi : i ∈ is) :
    inCircle (pos a.1) (pos a.2) (pos p) (pos i) ≤ 0 := by
  have hleft := h.rim_left hp ha
  obtain ⟨hmem, hswap⟩ := mem_rim.mp ha
  obtain ⟨t, ht, hat⟩ := mem_arcsOf.mp hmem
  obtain ⟨htts, hin⟩ := mem_removedAt.mp ht
  obtain ⟨w, -, hw, hempty, hiff⟩ := h.side htts hat
  rcases le_or_gt 0 (area (pos a.1) (pos a.2) (pos i)) with hi' | hi'
  · exact outside_left hw hleft ((hiff p).mpr hin) hi' (hempty i hi)
  · -- beyond the side there is a triangle, which is kept
    have hh : a ∉ hull.arcs := fun hh => hi'.not_ge (h.hull_side hh hi)
    obtain ⟨s, hs, has⟩ := mem_arcsOf.mp (h.reverse_mem (mem_arcsOf.mpr ⟨t, htts, hat⟩) hh)
    obtain ⟨x, hx, hxs, hemptys, hiffs⟩ := h.side hs has
    rw [Prod.fst_swap, Prod.snd_swap] at hxs hiffs hemptys
    have hbeyond : area (pos a.1) (pos a.2) (pos x) < 0 := by rw [area_swap] at hxs; linarith
    have hkept : inCircle (pos a.2) (pos a.1) (pos x) (pos p) ≤ 0 :=
      not_lt.mp fun hins => hswap (mem_arcsOf.mpr
        ⟨s, mem_removedAt.mpr ⟨hs, (hiffs p).mp hins⟩, has⟩)
    exact outside_right hbeyond hleft hkept hi'.le (hemptys i hi)

/-- The removed triangles use no directed side twice. -/
theorem Tiles.removed_nodup (h : Tiles pos hull ts) (p : UInt32) :
    (arcsOf (removedAt pos p ts)).Nodup :=
  h.arcs_nodup.sublist (List.filter_sublist.flatMap _)

/-- **Insertion keeps a Delaunay tiling.** -/
theorem Delaunay.insert (h : Delaunay pos hull is ts) (hp : pos p ∈ interior (hull.region pos)) :
    Delaunay pos hull (p :: is) (insertAt pos p ts) := by
  have mem_insertAt : ∀ t, t ∈ insertAt pos p ts ↔ (t ∈ ts ∧ ¬t.Influenced pos p) ∨
      ∃ a ∈ rim (removedAt pos p ts), t = ⟨a.1, a.2, p⟩ := by
    intro t
    simp only [insertAt, List.mem_append, mem_fan, List.mem_filter, decide_eq_true_eq]
  refine ⟨⟨h.hull_left, fun t ht => ?_, fun f hf => ?_⟩, fun t ht i hi => ?_, fun t ht i hi => ?_,
    fun i hi => List.mem_cons_of_mem _ (h.hull_mem i hi), fun i hi => ?_⟩
  · rcases (mem_insertAt t).mp ht with ⟨ht, -⟩ | ⟨a, ha, rfl⟩
    · exact h.left t ht
    · exact h.rim_left hp ha
  · -- kept and removed triangles together are the old ones
    rw [insertAt, List.map_append, List.sum_append, sum_fan hf (h.removed_nodup p),
      ← h.boundary f hf, add_comm, ← List.sum_append, ← List.map_append]
    refine ((List.Perm.trans ?_ (List.filter_append_perm (fun t => decide (t.Influenced pos p))
      ts)).map _).sum_eq
    simp
  · rcases (mem_insertAt t).mp ht with ⟨ht, -⟩ | ⟨a, ha, rfl⟩
    · obtain ⟨later, earlier, rfl, he⟩ := h.corner t ht i hi
      exact ⟨p :: later, earlier, rfl, he⟩
    · obtain ⟨s, hs, has⟩ := mem_arcsOf.mp (mem_rim.mp ha).1
      obtain ⟨hsts, hin⟩ := mem_removedAt.mp hs
      have hold : ∀ j ∈ s.indices, ∃ later earlier, p :: is = later ++ j :: earlier ∧
          ∀ k ∈ earlier, pos k ≠ pos j := by
        intro j hj
        obtain ⟨later, earlier, rfl, he⟩ := h.corner s hsts j hj
        exact ⟨p :: later, earlier, rfl, he⟩
      have hends := ends_mem has
      rcases mem_indices.mp hi with rfl | rfl | rfl
      · exact hold _ hends.1
      · exact hold _ hends.2
      · exact ⟨[], is, rfl, (h.exists_influenced (interior_subset hp)).mp ⟨s, hsts, hin⟩⟩
  · rcases (mem_insertAt t).mp ht with ⟨ht, hout⟩ | ⟨a, ha, rfl⟩
    · rcases List.mem_cons.mp hi with rfl | hi
      · exact hout
      · exact h.empty t ht i hi
    · rw [Influenced, not_lt]
      rcases List.mem_cons.mp hi with rfl | hi
      · exact (inCircle_last _ _ _).le
      · exact h.rim_empty hp ha hi
  · rcases List.mem_cons.mp hi with rfl | hi
    · exact .inr hp
    · exact h.inside i hi

end Rim

end Prims

end
