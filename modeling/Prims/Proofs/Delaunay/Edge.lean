import Prims.Proofs.Delaunay.Insertion

/-!
# Delaunay — Edge

Which edges a triangulation has.  Vertices inserted in the order of their indices leave a tiling in
which, of the vertices on one circle, the latest corner of a triangle sees the earlier ones beyond its
opposite side (`InOrder`, kept by `InOrder.insert`).  So an edge is there exactly when its ends are the
first vertices at their positions, no vertex is between them, and no two vertices bar it, one on each
side, by a circle through both ends that has one of them on it and the other inside; on a common circle
the two must not both be earlier than the later end (`DelaunayEdge`, `InOrder.edge_iff`).
-/

noncomputable section

namespace Prims

open Plane Triangle

/-! ### Insertion in order -/

/-- A Delaunay tiling over the vertices below `n`, inserted in the order of their indices. -/
structure InOrder (pos : UInt32 → Plane) (hull : Triangle) (n : Nat) (is : List UInt32)
    (ts : List Triangle) : Prop extends Delaunay pos hull is ts where
  sorted : is.Pairwise fun i j => j.toNat < i.toNat
  below  : ∀ i : UInt32, i ∈ is ↔ i.toNat < n
  /-- Of the vertices on one circle, the latest corner sees the earlier ones beyond the opposite side. -/
  beyond : ∀ t ∈ ts, ∀ u v w, Reads ⟨u, v, w⟩ t → u.toNat < w.toNat → v.toNat < w.toNat →
    ∀ i : UInt32, i.toNat < w.toNat → inCircle (pos u) (pos v) (pos w) (pos i) = 0 →
      area (pos u) (pos v) (pos i) ≤ 0

namespace InOrder

variable {pos : UInt32 → Plane} {hull : Triangle} {n : Nat} {is : List UInt32} {ts : List Triangle}

/-- Each corner is the first vertex at its position. -/
theorem first (h : InOrder pos hull n is ts) {t : Triangle} (ht : t ∈ ts) {i j : UInt32}
    (hi : i ∈ t.indices) (hj : j.toNat < i.toNat) : pos j ≠ pos i := by
  have hin := (h.below i).mp (h.corner_mem ht hi)
  exact h.toDelaunay.first h.sorted ht hi ((h.below j).mpr (hj.trans hin)) hj

/-- A triangle over a side of the rim reads from that side when the new vertex is the latest. -/
theorem reads_fan {a : UInt32 × UInt32} {p u v w : UInt32} (hr : Reads ⟨u, v, w⟩ ⟨a.1, a.2, p⟩)
    (h₁ : a.1.toNat < p.toNat) (h₂ : a.2.toNat < p.toNat) (hu : u.toNat < w.toNat)
    (hv : v.toNat < w.toNat) : w = p ∧ a = (u, v) := by
  have hpw : p.toNat ≤ w.toNat := by
    have hp : p ∈ (⟨u, v, w⟩ : Triangle).indices := (hr.indices p).mpr (by simp [indices])
    rcases mem_indices.mp hp with rfl | rfl | rfl
    · exact hu.le
    · exact hv.le
    · exact le_rfl
  obtain rfl : w = p := by
    have hw : w = a.1 ∨ w = a.2 ∨ w = p := mem_indices.mp ((hr.indices w).mp (by simp [indices]))
    rcases hw with rfl | rfl | hw
    · omega
    · omega
    · exact hw
  refine ⟨rfl, ?_⟩
  have huv : (u, v) ∈ (⟨a.1, a.2, w⟩ : Triangle).arcs := (hr.arcs _).mp (by simp [arcs])
  rcases mem_arcs.mp huv with e | e | e <;> obtain ⟨rfl, rfl⟩ := Prod.mk.inj e
  · rfl
  · omega
  · omega

/-- **Insertion in order** keeps the corners' view of the vertices on their circle. -/
theorem insert (h : InOrder pos hull n is ts) {p : UInt32} (hn : p.toNat = n)
    (hp : pos p ∈ interior (hull.region pos)) :
    InOrder pos hull (n + 1) (p :: is) (insertAt pos p ts) where
  toDelaunay := h.toDelaunay.insert hp
  sorted := by
    refine List.pairwise_cons.mpr ⟨fun i hi => ?_, h.sorted⟩
    rw [hn]
    exact (h.below i).mp hi
  below i := by
    rw [List.mem_cons, h.below, ← UInt32.toNat_inj, hn]
    omega
  beyond t ht u v w hr hu hv i hi h0 := by
    classical
    simp only [insertAt, List.mem_append, mem_fan, List.mem_filter, decide_eq_true_eq] at ht
    rcases ht with ⟨ht, -⟩ | ⟨a, ha, rfl⟩
    · exact h.beyond t ht u v w hr hu hv i hi h0
    · obtain ⟨s, hs, has⟩ := mem_arcsOf.mp (mem_rim.mp ha).1
      obtain ⟨hsts, hin⟩ := mem_removedAt.mp hs
      obtain ⟨x, -, hx, hempty, hiff⟩ := h.side hsts has
      have h₁ := (h.below _).mp (h.corner_mem hsts (ends_mem has).1)
      have h₂ := (h.below _).mp (h.corner_mem hsts (ends_mem has).2)
      obtain ⟨rfl, rfl⟩ := reads_fan hr (by omega) (by omega) hu hv
      by_contra hleft
      refine (outside_left_lt hx (h.rim_left hp ha) ((hiff w).mpr hin) (not_le.mp hleft)
        (hempty i ((h.below i).mpr (hn ▸ hi)))).ne h0

end InOrder

/-! ### Edges -/

/-- Vertices below `n`, inserted in the order of their indices, leave an edge between `u` and `v`. -/
structure DelaunayEdge (pos : UInt32 → Plane) (n : Nat) (u v : UInt32) : Prop where
  ne          : pos u ≠ pos v
  first_left  : ∀ i : UInt32, i.toNat < u.toNat → pos i ≠ pos u
  first_right : ∀ i : UInt32, i.toNat < v.toNat → pos i ≠ pos v
  /-- No vertex is between the ends, -/
  clear       : ∀ i : UInt32, i.toNat < n → area (pos u) (pos v) (pos i) = 0 →
    0 ≤ thales (pos u) (pos v) (pos i)
  /-- and no two bar the edge. -/
  apart       : ∀ i j : UInt32, i.toNat < n → j.toNat < n → 0 < area (pos u) (pos v) (pos i) →
    area (pos u) (pos v) (pos j) < 0 → inCircle (pos u) (pos v) (pos i) (pos j) < 0 ∨
      inCircle (pos u) (pos v) (pos i) (pos j) = 0 ∧ max u.toNat v.toNat < max i.toNat j.toNat

theorem DelaunayEdge.symm {pos : UInt32 → Plane} {n : Nat} {u v : UInt32}
    (h : DelaunayEdge pos n u v) : DelaunayEdge pos n v u where
  ne := h.ne.symm
  first_left := h.first_right
  first_right := h.first_left
  clear i hi h0 := by
    rw [area_swap, neg_eq_zero] at h0
    rw [thales_comm]
    exact h.clear i hi h0
  apart i j hi hj hleft hright := by
    rw [area_swap] at hleft hright
    rw [inCircle_swap, ← inCircle_swap_last, max_comm v.toNat, max_comm i.toNat]
    exact h.apart j i hj hi (by linarith) (by linarith)

namespace InOrder

variable {pos : UInt32 → Plane} {hull : Triangle} {n : Nat} {is : List UInt32} {ts : List Triangle}
  {u v : UInt32}

/-- The circle of a triangle is empty. -/
theorem circle_empty (h : InOrder pos hull n is ts) {t : Triangle} (ht : t ∈ ts) {w : UInt32}
    (hr : Reads ⟨u, v, w⟩ t) {i : UInt32} (hi : i.toNat < n) :
    inCircle (pos u) (pos v) (pos w) (pos i) ≤ 0 := by
  rw [hr.circle pos]
  exact not_lt.mp (h.empty t ht i ((h.below i).mpr hi))

/-- On the circle of a triangle, of two vertices on either side of its side `u v` one is later than
both ends. -/
theorem later_of_cocircular (h : InOrder pos hull n is ts) {t : Triangle} (ht : t ∈ ts)
    {w i j : UInt32} (hr : Reads ⟨u, v, w⟩ t) (hi : 0 < area (pos u) (pos v) (pos i))
    (hj : area (pos u) (pos v) (pos j) < 0) (hwi : inCircle (pos u) (pos v) (pos w) (pos i) = 0)
    (hwj : inCircle (pos u) (pos v) (pos w) (pos j) = 0) :
    max u.toNat v.toNat < max i.toNat j.toNat := by
  have hleft := hr.left (h.left t ht)
  obtain ⟨hvw, hwu⟩ := area_pos_of_inCircle_eq_zero hleft hj hwj
  have hne : ∀ {k l : UInt32}, pos k ≠ pos l → k.toNat ≠ l.toNat :=
    fun hp e => hp (congrArg pos (UInt32.toNat_inj.mp e))
  have huv := hne (ne_of_area_pos hleft)
  have huw := hne (ne_of_area_pos (hr.rotate.rotate.left (h.left t ht))).symm
  have hvw' := hne (ne_of_area_pos (hr.rotate.left (h.left t ht)))
  have hju : j.toNat ≠ u.toNat := hne fun e => hj.ne (by rw [e]; unfold area; ring)
  have hjv : j.toNat ≠ v.toNat := hne fun e => hj.ne (by rw [e]; unfold area; ring)
  by_contra hle
  -- whichever corner is the latest has one of the two on its own side of the opposite side
  rcases lt_or_ge (max u.toNat v.toNat) w.toNat with hw | hw
  · exact hi.not_ge (h.beyond t ht u v w hr (by omega) (by omega) i (by omega) hwi)
  · rcases lt_or_gt_of_ne huv with hlt | hgt
    · refine hwu.not_ge (h.beyond t ht w u v hr.rotate.rotate (by omega) hlt j (by omega) ?_)
      rwa [← inCircle_rotate]
    · refine hvw.not_ge (h.beyond t ht v w u hr.rotate hgt (by omega) j (by omega) ?_)
      rwa [inCircle_rotate]

/-- A side of a triangle is an edge. -/
theorem edge_of_mem (h : InOrder pos hull n is ts) (ha : (u, v) ∈ arcsOf ts) :
    DelaunayEdge pos n u v := by
  obtain ⟨t, ht, hat⟩ := mem_arcsOf.mp ha
  obtain ⟨w, hr⟩ := reads_of_arc hat
  obtain ⟨hu, hv⟩ := ends_mem hat
  have hw := hr.left (h.left t ht)
  refine ⟨ne_of_area_pos hw, fun i hi => h.first ht hu hi, fun i hi => h.first ht hv hi, ?_, ?_⟩
  · intro i hi h0
    have hout := h.circle_empty ht hr hi
    rw [inCircle, h0, mul_zero, zero_sub, neg_nonpos] at hout
    exact nonneg_of_mul_nonneg_left hout hw
  · intro i j hi hj hleft hright
    -- beyond the edge there is a triangle as well
    have hh : (u, v) ∉ hull.arcs := fun hh => hright.not_ge (h.hull_side hh ((h.below j).mpr hj))
    obtain ⟨s, hs, has⟩ := mem_arcsOf.mp (h.reverse_mem ha hh)
    obtain ⟨x, hrs⟩ : ∃ x, Reads ⟨v, u, x⟩ s := reads_of_arc has
    have hx := hrs.left (h.left s hs)
    have hxn : x.toNat < n := by
      refine (h.below x).mp (h.corner_mem hs ((hrs.indices x).mp ?_))
      simp [indices]
    rcases outside_both hw (by rw [area_swap] at hx; linarith) hleft hright (h.circle_empty ht hr hxn)
      (h.circle_empty ht hr hi) (h.circle_empty hs hrs hj) with hlt | ⟨hwi, hwj, hij⟩
    · exact .inl hlt
    · exact .inr ⟨hij, h.later_of_cocircular ht hr hleft hright hwi hwj⟩

/-- The triangle at a vertex that the way to another one starts in. -/
theorem exists_toward (h : InOrder pos hull n is ts) (hu : u.toNat < n) (hv : v.toNat < n) :
    ∃ t ∈ ts, pos u ∈ t.region pos ∧
      ∃ s : ℝ, 0 < s ∧ AffineMap.lineMap (pos u) (pos v) s ∈ t.region pos := by
  -- the triangles without the vertex are closed, so a short way does not reach them
  have hfar : ∀ᶠ s in nhdsWithin (0 : ℝ) (Set.Ioi 0), ∀ t ∈ {t | t ∈ ts}, pos u ∉ t.region pos →
      AffineMap.lineMap (pos u) (pos v) s ∉ t.region pos := by
    refine (Filter.eventually_all_finite (List.finite_toSet ts)).mpr fun t ht => ?_
    by_cases hm : pos u ∈ t.region pos
    · exact Filter.Eventually.of_forall fun s hn => absurd hm hn
    · have hclosed : IsClosed (t.region pos) := (Set.toFinite _).isClosed_convexHull ℝ
      have hline : Filter.Tendsto (AffineMap.lineMap (pos u) (pos v) : ℝ → Plane)
          (nhdsWithin 0 (Set.Ioi 0)) (nhds (pos u)) := by
        refine (AffineMap.lineMap_continuous.tendsto' 0 _ ?_).mono_left nhdsWithin_le_nhds
        exact AffineMap.lineMap_apply_zero _ _
      exact (hline.eventually (hclosed.isOpen_compl.mem_nhds hm)).mono fun s hs _ => hs
  obtain ⟨s, hs, hs0, hs1⟩ := (hfar.and (Ioo_mem_nhdsGT one_pos)).exists
  have hmem : AffineMap.lineMap (pos u) (pos v) s ∈ hull.region pos :=
    (convex_convexHull ℝ _).lineMap_mem (h.mem_hull ((h.below u).mpr hu))
      (h.mem_hull ((h.below v).mpr hv)) ⟨hs0.le, hs1.le⟩
  obtain ⟨t, ht, hmt⟩ := h.exists_region hmem
  exact ⟨t, ht, by_contra fun hn => hs t ht hn hmt, s, hs0, hmt⟩

/-- The first vertex at a corner's position is the corner. -/
theorem eq_of_first (h : InOrder pos hull n is ts) {t : Triangle} (ht : t ∈ ts) {i j : UInt32}
    (hi : i ∈ t.indices) (hj : ∀ k : UInt32, k.toNat < j.toNat → pos k ≠ pos j) (hij : pos i = pos j) :
    i = j := by
  rcases lt_trichotomy i.toNat j.toNat with hlt | heq | hgt
  · exact absurd hij (hj i hlt)
  · exact UInt32.toNat_inj.mp heq
  · exact absurd hij.symm (h.first ht hi hgt)

/-- At the first vertex of a position, the way to another one starts between two sides of a triangle. -/
theorem exists_cone (h : InOrder pos hull n is ts) (hu : u.toNat < n) (hv : v.toNat < n)
    (hfirst : ∀ k : UInt32, k.toNat < u.toNat → pos k ≠ pos u) :
    ∃ t ∈ ts, ∃ a b, Reads ⟨u, a, b⟩ t ∧ 0 ≤ area (pos u) (pos a) (pos v) ∧
      0 ≤ area (pos u) (pos v) (pos b) := by
  obtain ⟨t, ht, hut, s, hs, hst⟩ := h.exists_toward hu hv
  obtain ⟨j, hj, hju⟩ := h.eq_corner ht ((h.below u).mpr hu) hut
  obtain rfl : u = j := (h.eq_of_first ht hj hfirst hju).symm
  obtain ⟨a, b, hr⟩ := reads_of_corner hj
  rw [← hr.region pos] at hst
  obtain ⟨hav, -, hvb⟩ := (mem_triangle_iff (hr.left (h.left t ht))).mp hst
  refine ⟨t, ht, a, b, hr, ?_, ?_⟩
  · have hua : area (pos u) (pos a) (pos u) = 0 := by unfold area; ring
    rw [area_lineMap, hua, mul_zero, zero_add] at hav
    exact nonneg_of_mul_nonneg_right hav hs
  · have hbu : area (pos b) (pos u) (pos u) = 0 := by unfold area; ring
    rw [area_lineMap, hbu, mul_zero, zero_add] at hvb
    rw [← area_rotate, ← area_rotate]
    exact nonneg_of_mul_nonneg_right hvb hs

/-- An edge is a side of a triangle. -/
theorem mem_of_edge (h : InOrder pos hull n is ts) (hu : u.toNat < n) (hv : v.toNat < n)
    (he : DelaunayEdge pos n u v) : (u, v) ∈ arcsOf ts ∨ (v, u) ∈ arcsOf ts := by
  obtain ⟨t, ht, a, b, hr, hua, hub⟩ := h.exists_cone hu hv he.first_left
  have ha : a ∈ t.indices := (hr.indices a).mp (by simp [indices])
  have hb : b ∈ t.indices := (hr.indices b).mp (by simp [indices])
  have han := (h.below a).mp (h.corner_mem ht ha)
  have hbn := (h.below b).mp (h.corner_mem ht hb)
  have hleft := hr.left (h.left t ht)
  have hout := h.circle_empty ht hr hv
  rcases hua.eq_or_lt' with h0 | hright
  · -- along the first side
    left
    have hclear := he.clear a han (by rw [← neg_eq_zero, ← area_swap_last, h0])
    rw [inCircle, h0, mul_zero, zero_sub, neg_nonpos] at hout
    have hva := eq_of_not_between hleft.ne' h0 he.ne.symm (mul_nonneg hub hleft.le) hclear
      (nonneg_of_mul_nonneg_left hout hleft)
    obtain rfl := h.eq_of_first ht ha he.first_right hva.symm
    exact mem_arcsOf.mpr ⟨t, ht, (hr.arcs _).mp (by simp [arcs])⟩
  rcases hub.eq_or_lt' with h0 | hleft'
  · -- along the second one
    right
    have hclear := he.clear b hbn h0
    have hub0 : area (pos u) (pos b) (pos v) = 0 := by rw [area_swap_last, h0, neg_zero]
    have hba : area (pos u) (pos b) (pos a) < 0 := by rw [area_swap_last]; linarith
    rw [← inCircle_rotate, ← inCircle_rotate, inCircle, area_swap, hub0, neg_zero, mul_zero,
      zero_sub, neg_nonpos, thales_comm, area_rotate, area_rotate] at hout
    have hvb := eq_of_not_between hba.ne hub0 he.ne.symm
      (mul_nonneg_of_nonpos_of_nonpos (by rw [area_swap_last]; linarith) hba.le) hclear
      (nonneg_of_mul_nonneg_left hout hleft)
    obtain rfl := h.eq_of_first ht hb he.first_right hvb.symm
    exact mem_arcsOf.mpr ⟨t, ht, (hr.arcs _).mp (by simp [arcs])⟩
  · -- the corners beside the way would bar the edge
    exfalso
    have hflip : inCircle (pos u) (pos v) (pos b) (pos a) = -inCircle (pos u) (pos a) (pos b) (pos v) := by
      unfold inCircle thales area; ring
    rcases he.apart b a hbn han hleft' (by rw [area_swap_last]; linarith) with hlt | ⟨h0, hlater⟩
    · linarith
    · rw [hflip, neg_eq_zero] at h0
      have hab : a.toNat ≠ b.toNat := fun e =>
        ne_of_area_pos (hr.rotate.left (h.left t ht)) (congrArg pos (UInt32.toNat_inj.mp e))
      rcases lt_or_gt_of_ne hab with hlt | hgt
      · exact hright.not_ge (h.beyond t ht u a b hr (by omega) hlt v (by omega) h0)
      · rw [← inCircle_rotate, ← inCircle_rotate] at h0
        rw [← area_rotate, ← area_rotate] at hleft'
        exact hleft'.not_ge (h.beyond t ht b u a hr.rotate.rotate hgt (by omega) v (by omega) h0)

/-- **The edges of a triangulation.** -/
theorem edge_iff (h : InOrder pos hull n is ts) (hu : u.toNat < n) (hv : v.toNat < n) :
    (u, v) ∈ arcsOf ts ∨ (v, u) ∈ arcsOf ts ↔ DelaunayEdge pos n u v := by
  refine ⟨fun ha => ?_, h.mem_of_edge hu hv⟩
  rcases ha with ha | ha
  · exact h.edge_of_mem ha
  · exact (h.edge_of_mem ha).symm

end InOrder

end Prims

end
