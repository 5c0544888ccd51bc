import Prims.Proofs.Delaunay.Insertion
import Prims.Proofs.Triangulation.Insertion

/-!
# Delaunay — Mesh

Insertion on meshes.  The triangles of a mesh may have either winding; read counter-clockwise
(`Triangle.upright`) they are what `insertAt` speaks about.  On a mesh whose triangles are a Delaunay
tiling of the seed triangle (`Mesh.IsDelaunay`), `Mesh.insertVertex?` succeeds and does what
`insertAt` says, so the next mesh is a Delaunay tiling again (`IsDelaunay.insertVertex?`).
-/

noncomputable section

namespace Prims

open Plane Triangle

/-! ### Vertices as points of the plane -/

namespace Mesh

/-- The planar position of a vertex. -/
def spot (m : Mesh) (i : UInt32) : Plane := ((m.vertex? i).bind Point.site?).elim 0 Site.spot

/-- All planar coordinates are finite. -/
def Finite (m : Mesh) : Prop := ∀ p ∈ m.positions, p.site?.isSome

variable {m : Mesh} {i : UInt32}

/-- Planar positions depend on the vertices alone. -/
theorem spot_congr {m' : Mesh} (h : m'.positions = m.positions) : m'.spot = m.spot := by
  funext j
  unfold spot vertex?
  rw [h]

theorem Finite.site (hm : m.Finite) (hi : i.toNat < m.vertexCount) :
    ∃ s, (m.point i).site? = some s ∧ m.spot i = s.spot := by
  have hp := vertex?_eq hi
  have hmem : m.point i ∈ m.positions := by
    unfold vertex? at hp
    exact Array.mem_of_getElem? hp
  obtain ⟨s, hs⟩ := Option.isSome_iff_exists.mp (hm _ hmem)
  exact ⟨s, hs, by rw [spot, hp, Option.bind_some, hs]; rfl⟩

end Mesh

/-! ### Predicates on finite points -/

theorem unitsSq_pos : (0 : ℝ) < (Single.unitsPerOne : ℝ) ^ 2 := pow_pos unitsPerOne_pos 2

/-- The turn of finite points is straight on a line only. -/
theorem Turn.of_eq_straight_iff {a b c : Point} {s t u : Site} (ha : a.site? = some s)
    (hb : b.site? = some t) (hc : c.site? = some u) :
    Turn.of a b c = .straight ↔ area s.spot t.spot u.spot = 0 := by
  have harea : area s.spot t.spot u.spot = 0 ↔ Site.area s t u = 0 := by
    rw [Site.area_spot, div_eq_zero_iff, or_iff_left unitsSq_pos.ne', Int.cast_eq_zero]
  rw [harea]
  simp only [Turn.of, ha, hb, hc, Turn.ofArea]
  split_ifs with h₁ h₂
  · simp [h₁.ne']
  · simp [h₂.ne]
  · simp only [true_iff]
    omega

/-- The in-circle test of finite points, by signs. -/
theorem Corners.circumcircleContains_iff {k : Corners} {p : Point} {a b c d : Site}
    (ha : k.a.site? = some a) (hb : k.b.site? = some b) (hc : k.c.site? = some c)
    (hd : p.site? = some d) :
    k.circumcircleContains p = true ↔
      0 < area a.spot b.spot c.spot * inCircle a.spot b.spot c.spot d.spot := by
  have h2 := unitsSq_pos
  have h4 : (0 : ℝ) < (Single.unitsPerOne : ℝ) ^ 4 := pow_pos unitsPerOne_pos 4
  rw [Site.area_spot, Site.inCircle_spot, div_mul_div_comm, div_pos_iff_of_pos_right (mul_pos h2 h4),
    ← Int.cast_mul, Int.cast_pos, mul_pos_iff]
  simp [circumcircleContains, ha, hb, hc, hd]

/-! ### Counter-clockwise triangles -/

open Classical in
/-- The triangle wound counter-clockwise. -/
def Triangle.upright (pos : UInt32 → Plane) (t : Triangle) : Triangle :=
  if 0 ≤ t.areaAt pos then t else ⟨t.v2, t.v1, t.v3⟩

namespace Triangle

variable {pos : UInt32 → Plane} {t : Triangle}

theorem upright_of_nonneg (h : 0 ≤ t.areaAt pos) : t.upright pos = t := if_pos h

theorem upright_of_neg (h : t.areaAt pos < 0) : t.upright pos = ⟨t.v2, t.v1, t.v3⟩ :=
  if_neg h.not_ge

/-- The winding does not matter to a triangle's vertices, edges and region. -/
theorem upright_cases (pos : UInt32 → Plane) (t : Triangle) :
    (∀ i, i ∈ (t.upright pos).indices ↔ i ∈ t.indices) ∧ (t.upright pos).edges.Perm t.edges ∧
      (t.upright pos).region pos = t.region pos ∧ (t.upright pos).areaAt pos = |t.areaAt pos| := by
  rcases le_or_gt 0 (t.areaAt pos) with h | h
  · rw [upright_of_nonneg h, abs_of_nonneg h]
    exact ⟨fun _ => Iff.rfl, .refl _, rfl, rfl⟩
  · rw [upright_of_neg h, abs_of_neg h]
    refine ⟨fun i => ?_, ?_, triangle_swap _ _ _, area_swap _ _ _⟩
    · simp only [mem_indices]
      tauto
    · simp only [edges]
      rw [Edge.between_comm t.v2 t.v1, Edge.between_comm t.v1 t.v3, Edge.between_comm t.v3 t.v2]
      exact (List.Perm.swap _ _ _).cons _

theorem mem_upright_indices {i : UInt32} : i ∈ (t.upright pos).indices ↔ i ∈ t.indices :=
  (upright_cases pos t).1 i

theorem upright_region : (t.upright pos).region pos = t.region pos := (upright_cases pos t).2.2.1

/-- For a triangle off a line, lying in the circle does not depend on the winding. -/
theorem influenced_upright (h : t.areaAt pos ≠ 0) (p : UInt32) :
    (t.upright pos).Influenced pos p ↔
      0 < t.areaAt pos * inCircle (pos t.v1) (pos t.v2) (pos t.v3) (pos p) := by
  rcases h.lt_or_gt with hn | hp
  · have hiff := mul_pos_iff_of_pos_left (b := -inCircle (pos t.v1) (pos t.v2) (pos t.v3) (pos p))
      (neg_pos.mpr hn)
    rw [neg_mul_neg] at hiff
    rw [upright_of_neg hn, hiff, ← inCircle_swap]
    rfl
  · rw [upright_of_nonneg hp.le, mul_pos_iff_of_pos_left hp]
    rfl

end Triangle

/-- Triangles that have the same edges one by one have the same edges together. -/
theorem edgesOf_map {f : Triangle → Triangle} (hf : ∀ t, (f t).edges.Perm t.edges) (ts : List Triangle) :
    (edgesOf (ts.map f)).Perm (edgesOf ts) := by
  rw [edgesOf, List.flatMap_map]
  exact List.Perm.flatMap_left _ fun t _ => hf t

/-- Triangles that differ in their winding have the same edges. -/
theorem edgesOf_upright (pos : UInt32 → Plane) (ts : List Triangle) :
    (edgesOf (ts.map (upright pos))).Perm (edgesOf ts) :=
  edgesOf_map (fun t => (upright_cases pos t).2.1) ts

/-- Whichever end of a side comes first, the triangle over it is the same counter-clockwise. -/
theorem upright_ofArc {pos : UInt32 → Plane} {p : UInt32} {a : UInt32 × UInt32}
    (h : 0 < area (pos a.1) (pos a.2) (pos p)) :
    upright pos ⟨(Edge.ofArc a).low, (Edge.ofArc a).high, p⟩ = ⟨a.1, a.2, p⟩ := by
  unfold Edge.ofArc
  rcases Edge.ends_of_between a.1 a.2 with ⟨h₁, h₂⟩ | ⟨h₁, h₂⟩
  · rw [h₁, h₂]
    exact upright_of_nonneg h.le
  · rw [h₁, h₂, upright_of_neg]
    show area _ _ _ < 0
    rw [area_swap]
    exact neg_neg_of_pos h

/-! ### Insertion on meshes -/

/-- The seed triangle, counter-clockwise. -/
def seedHull : Triangle := ⟨0, 2, 1⟩

/-- The triangles of the mesh, wound counter-clockwise, are a Delaunay tiling of the seed triangle over
the vertices `is`, latest first. -/
structure Mesh.IsDelaunay (m : Mesh) (is : List UInt32) : Prop where
  finite : m.Finite
  inRange : ∀ i ∈ is, i.toNat < m.vertexCount
  delaunay : Delaunay m.spot seedHull is (m.triangles.map (upright m.spot))

/-- The order of the triangles does not matter. -/
theorem Delaunay.perm {pos : UInt32 → Plane} {hull : Triangle} {is : List UInt32}
    {ts us : List Triangle} (h : Delaunay pos hull is ts) (hp : ts.Perm us) :
    Delaunay pos hull is us where
  hull_left := h.hull_left
  left t ht := h.left t (hp.mem_iff.mpr ht)
  boundary f hf := (hp.map _).sum_eq.symm.trans (h.boundary f hf)
  corner t ht := h.corner t (hp.mem_iff.mpr ht)
  empty t ht := h.empty t (hp.mem_iff.mpr ht)
  hull_mem := h.hull_mem
  inside := h.inside

namespace Mesh.IsDelaunay

variable {m : Mesh} {is : List UInt32} {i : UInt32}

/-- Each triangle of the mesh is, counter-clockwise, one of the tiling. -/
theorem upright_mem {t : Triangle} (ht : t ∈ m.triangles) :
    t.upright m.spot ∈ m.triangles.map (upright m.spot) := List.mem_map_of_mem ht

theorem areaAt_ne_zero (h : m.IsDelaunay is) {t : Triangle} (ht : t ∈ m.triangles) :
    t.areaAt m.spot ≠ 0 := by
  have hleft := h.delaunay.left _ (upright_mem ht)
  rw [(upright_cases m.spot t).2.2.2] at hleft
  exact abs_pos.mp hleft

theorem indices_mem (h : m.IsDelaunay is) {t : Triangle} (ht : t ∈ m.triangles) {j : UInt32}
    (hj : j ∈ t.indices) : j ∈ is :=
  h.delaunay.corner_mem (upright_mem ht) (mem_upright_indices.mpr hj)

theorem triangles_inRange (h : m.IsDelaunay is) : m.InRange :=
  fun _ ht j hj => h.inRange j (h.indices_mem ht hj)

/-- The test of a triangle's circle. -/
theorem contains_iff (h : m.IsDelaunay is) (hi : i.toNat < m.vertexCount) {t : Triangle}
    (ht : t ∈ m.triangles) : (m.cornersAt t).circumcircleContains (m.point i) = true ↔
      (t.upright m.spot).Influenced m.spot i := by
  have hr := h.triangles_inRange t ht
  obtain ⟨a, ha, ha'⟩ := h.finite.site (hr t.v1 (by simp [indices]))
  obtain ⟨b, hb, hb'⟩ := h.finite.site (hr t.v2 (by simp [indices]))
  obtain ⟨c, hc, hc'⟩ := h.finite.site (hr t.v3 (by simp [indices]))
  obtain ⟨d, hd, hd'⟩ := h.finite.site hi
  rw [influenced_upright (h.areaAt_ne_zero ht), areaAt, ha', hb', hc', hd']
  exact Corners.circumcircleContains_iff (k := m.cornersAt t) ha hb hc hd

/-- A side that the vertex is to the left of is not in line with it. -/
theorem turn_ne_straight (h : m.IsDelaunay is) (hi : i.toNat < m.vertexCount) {a : UInt32 × UInt32}
    (h₁ : a.1 ∈ is) (h₂ : a.2 ∈ is) (hleft : 0 < area (m.spot a.1) (m.spot a.2) (m.spot i)) :
    Turn.of (m.point (Edge.ofArc a).low) (m.point (Edge.ofArc a).high) (m.point i) ≠ .straight := by
  have hturn : ∀ u ∈ is, ∀ v ∈ is, area (m.spot u) (m.spot v) (m.spot i) ≠ 0 →
      Turn.of (m.point u) (m.point v) (m.point i) ≠ .straight := by
    intro u hu v hv hne
    obtain ⟨r, hr, hr'⟩ := h.finite.site (h.inRange u hu)
    obtain ⟨s, hs, hs'⟩ := h.finite.site (h.inRange v hv)
    obtain ⟨d, hd, hd'⟩ := h.finite.site hi
    rwa [Ne, Turn.of_eq_straight_iff hr hs hd, ← hr', ← hs', ← hd']
  have hopp : area (m.spot a.2) (m.spot a.1) (m.spot i) ≠ 0 := by
    rw [area_swap]
    exact (neg_neg_of_pos hleft).ne
  unfold Edge.ofArc
  rcases Edge.ends_of_between a.1 a.2 with ⟨k₁, k₂⟩ | ⟨k₁, k₂⟩ <;> rw [k₁, k₂]
  · exact hturn _ h₁ _ h₂ hleft.ne'
  · exact hturn _ h₂ _ h₁ hopp

/-- The removed triangles are the ones that `insertAt` removes. -/
theorem hit_upright (h : m.IsDelaunay is) (hi : i.toNat < m.vertexCount) :
    (m.hit i).map (upright m.spot) = removedAt m.spot i (m.triangles.map (upright m.spot)) := by
  classical
  rw [hit, removedAt, List.filter_map]
  congr 1
  refine List.filter_congr fun t ht => ?_
  rw [Function.comp_apply, Bool.eq_iff_iff, h.contains_iff hi ht, decide_eq_true_iff]

open Classical in
/-- And so are the kept ones. -/
theorem missed_upright (h : m.IsDelaunay is) (hi : i.toNat < m.vertexCount) :
    (m.missed i).map (upright m.spot) =
      (m.triangles.map (upright m.spot)).filter fun t => ¬t.Influenced m.spot i := by
  rw [missed, List.filter_map]
  congr 1
  refine List.filter_congr fun t ht => ?_
  rw [Function.comp_apply, Bool.eq_iff_iff, Bool.not_eq_true', ← Bool.not_eq_true,
    h.contains_iff hi ht, decide_eq_true_iff]

/-- A side of the rim has its ends among the vertices and the new vertex to its left. -/
theorem rim_ends (h : m.IsDelaunay is) (hin : m.spot i ∈ interior (seedHull.region m.spot))
    {a : UInt32 × UInt32} (ha : a ∈ Prims.rim (removedAt m.spot i (m.triangles.map (upright m.spot)))) :
    a.1 ∈ is ∧ a.2 ∈ is ∧ 0 < area (m.spot a.1) (m.spot a.2) (m.spot i) := by
  obtain ⟨t, ht, hat⟩ := mem_arcsOf.mp (mem_rim.mp ha).1
  obtain ⟨h₁, h₂⟩ := ends_mem hat
  have hts := (mem_removedAt.mp ht).1
  exact ⟨h.delaunay.corner_mem hts h₁, h.delaunay.corner_mem hts h₂, h.delaunay.rim_left hin ha⟩

/-- The edges of the cavity are the sides of the rim. -/
theorem rim_hit (h : m.IsDelaunay is) (hi : i.toNat < m.vertexCount) :
    (Mesh.rim (m.hit i)).Perm
      ((Prims.rim (removedAt m.spot i (m.triangles.map (upright m.spot)))).map Edge.ofArc) := by
  refine meshRim_perm (h.delaunay.removed_nodup i) (fun a ha e => ?_) ?_
  · obtain ⟨t, ht, hat⟩ := mem_arcsOf.mp ha
    refine swap_not_mem_arcs (h.delaunay.left t (mem_removedAt.mp ht).1) hat ?_
    rwa [e]
  · rw [← h.hit_upright hi]
    exact (edgesOf_upright m.spot _).symm

/-- All edges of the cavity are joined to the vertex. -/
theorem spokes_eq (h : m.IsDelaunay is) (hi : i.toNat < m.vertexCount)
    (hin : m.spot i ∈ interior (seedHull.region m.spot)) :
    m.spokes i = (Mesh.rim (m.hit i)).map fun e => ⟨e.low, e.high, i⟩ := by
  rw [spokes, List.filter_eq_self.mpr]
  intro e he
  obtain ⟨a, ha, rfl⟩ := List.mem_map.mp ((h.rim_hit hi).mem_iff.mp he)
  obtain ⟨h₁, h₂, hleft⟩ := h.rim_ends hin ha
  exact decide_eq_true (h.turn_ne_straight hi h₁ h₂ hleft)

/-- **Insertion succeeds and does what `insertAt` says**, up to winding and order. -/
theorem insertVertex?_perm (h : m.IsDelaunay is) (hi : i.toNat < m.vertexCount)
    (hin : m.spot i ∈ interior (seedHull.region m.spot)) :
    ∃ m', m.insertVertex? i = some m' ∧ m'.positions = m.positions ∧
      (m'.triangles.map (upright m.spot)).Perm
        (insertAt m.spot i (m.triangles.map (upright m.spot))) := by
  rw [insertVertex?_inRange h.triangles_inRange hi]
  by_cases hnone : m.hit i = []
  · refine ⟨m, by rw [hnone]; rfl, rfl, .of_eq (insertAt_of_not_influenced fun t ht hin => ?_).symm⟩
    have hmem := mem_removedAt.mpr ⟨ht, hin⟩
    rw [← h.hit_upright hi, hnone] at hmem
    exact List.not_mem_nil hmem
  · rw [if_neg (by simpa using hnone)]
    refine ⟨_, rfl, rfl, ?_⟩
    show ((m.missed i ++ m.spokes i).map _).Perm _
    rw [h.spokes_eq hi hin, List.map_append, h.missed_upright hi, insertAt]
    refine List.Perm.append_left _ ((((h.rim_hit hi).map _).map _).trans (.of_eq ?_))
    rw [fan, List.map_map, List.map_map]
    exact List.map_congr_left fun a ha => upright_ofArc (h.rim_ends hin ha).2.2

/-- **Insertion keeps a Delaunay mesh.** -/
theorem insertVertex? (h : m.IsDelaunay is) (hi : i.toNat < m.vertexCount)
    (hin : m.spot i ∈ interior (seedHull.region m.spot)) :
    ∃ m', m.insertVertex? i = some m' ∧ m'.positions = m.positions ∧ m'.IsDelaunay (i :: is) := by
  obtain ⟨m', hm', hp, hperm⟩ := h.insertVertex?_perm hi hin
  have hcount : m'.vertexCount = m.vertexCount := congrArg Array.size hp
  refine ⟨m', hm', hp, fun p => by rw [hp]; exact h.finite p, fun j hj => ?_, ?_⟩
  · rw [hcount]
    rcases List.mem_cons.mp hj with rfl | hj
    · exact hi
    · exact h.inRange j hj
  · rw [Mesh.spot_congr hp]
    exact (h.delaunay.insert hin).perm hperm.symm

end Mesh.IsDelaunay

end Prims

end
