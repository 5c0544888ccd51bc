import Prims.Proofs.Delaunay.Count
import Prims.Proofs.Delaunay.Output
import Prims.Profile.Outline

/-!
# Delaunay — Triangulation

The two properties of triangulation by insertion, for vertices in any order, repeated, on lines and on
circles as they may be, that lie strictly inside the seed triangle:

* `triangulate_delaunay`: after every insertion all circles are empty, and so are those of the result;
* `insertions_tile`: after every insertion the triangles tile the seed triangle (`Mesh.TilesSeed`).
-/

noncomputable section

namespace Prims

open Plane Triangle Triangulation Hull

/-! ### Empty circles -/

/-- The corners of a circle in any order. -/
theorem insideCircle_comm {a b c q : Plane} : InsideCircle a c b q ↔ InsideCircle a b c q := by
  unfold InsideCircle
  exact exists_congr fun o => by tauto

/-- In a Delaunay mesh no vertex lies inside the circle of a triangle. -/
theorem Mesh.IsDelaunay.circle_empty {m : Mesh} {is : List UInt32} (hm : m.IsDelaunay is)
    {t : Triangle} (ht : t ∈ m.triangles) {i : UInt32} (hi : i ∈ is) :
    ¬InsideCircle (m.spot t.v1) (m.spot t.v2) (m.spot t.v3) (m.spot i) := by
  have hne := hm.areaAt_ne_zero ht
  rw [insideCircle_iff hne]
  exact fun h => hm.delaunay.empty _ (upright_mem ht) i hi ((influenced_upright hne i).mpr h)

/-- Of two vertices at one position only the one inserted first is a corner. -/
theorem Mesh.IsDelaunay.not_corner {m : Mesh} {is : List UInt32} (hm : m.IsDelaunay is)
    (hs : is.Pairwise fun i j => j.toNat < i.toNat) {i j : UInt32} (hi : i ∈ is)
    (hij : i.toNat < j.toNat) (he : m.spot i = m.spot j) {t : Triangle} (ht : t ∈ m.triangles) :
    j ∉ t.indices :=
  fun hj => hm.delaunay.first hs (upright_mem ht) (mem_upright_indices.mpr hj) hi hij he

/-- The vertices in the order of their indices, latest first. -/
theorem insertionOrder_sorted (k : Nat) (hk : 3 + k ≤ 2 ^ 32) :
    (((List.range' 3 k).map Nat.toUInt32).reverse ++ [2, 1, 0]).Pairwise
      fun i j : UInt32 => j.toNat < i.toNat := by
  refine List.pairwise_append.mpr
    ⟨List.pairwise_reverse.mpr (range_toUInt32_sorted hk), by decide, fun i hi j hj => ?_⟩
  have h3 := ((mem_range_toUInt32 hk).mp (List.mem_reverse.mp hi)).1
  have hj : j.toNat < 3 := by
    simp only [List.mem_cons, List.not_mem_nil, or_false] at hj
    rcases hj with rfl | rfl | rfl <;> decide
  omega

/-- The seeds and the first `k` vertices are those with small indices. -/
theorem mem_insertionOrder_seeds {k : Nat} (hk : 3 + k ≤ 2 ^ 32) {i : UInt32} :
    i ∈ ((List.range' 3 k).map Nat.toUInt32).reverse ++ [2, 1, 0] ↔ i.toNat < 3 + k := by
  rw [List.mem_append, List.mem_reverse, mem_range_toUInt32 hk]
  have hseed : i ∈ ([2, 1, 0] : List UInt32) ↔ i.toNat < 3 := by
    simp only [List.mem_cons, List.not_mem_nil, or_false, ← UInt32.toNat_inj]
    show i.toNat = 2 ∨ i.toNat = 1 ∨ i.toNat = 0 ↔ _
    omega
  rw [hseed]
  omega

section Circles

variable {h : Hull} {sink : DumpSink} {prim : String} {t : Triangulation}

/-- After every insertion the circles are empty. -/
theorem inserted_circle_empty (he : ∀ p ∈ h.vertices, p.Enclosed) {k : Nat}
    (hk : k ≤ (seedMesh.addHull h).nextIndex.toNat - 3) :
    ∃ m, insertFrom? (seedMesh.addHull h) 3 k = some m ∧
      m.positions = (seedMesh.addHull h).positions ∧
      ∀ t ∈ m.triangles, t.areaAt m.spot ≠ 0 ∧ ∀ i : UInt32, i.toNat < 3 + k →
        ¬InsideCircle (m.spot t.v1) (m.spot t.v2) (m.spot t.v3) (m.spot i) := by
  have hnext := nextIndex_le h
  have hk32 : 3 + k ≤ 2 ^ 32 := by
    have := nextIndex_sub_le h
    omega
  have hrange : ∀ i ∈ (List.range' 3 k).map Nat.toUInt32,
      3 ≤ i.toNat ∧ i.toNat < 3 + h.vertexCount := by
    intro i hi
    have := (mem_range_toUInt32 hk32).mp hi
    omega
  obtain ⟨m, hm, hp, hD⟩ := exists_inserted he hrange
  refine ⟨m, ?_, hp, fun t ht => ⟨hD.areaAt_ne_zero ht, fun i hi => ?_⟩⟩
  · rw [insertFrom?_eq]
    exact hm
  · exact hD.circle_empty ht ((mem_insertionOrder_seeds hk32).mpr hi)

/-- The circles of the result are empty. -/
theorem result_circle_empty (he : ∀ p ∈ h.vertices, p.Enclosed)
    (ht : (h.triangulate sink prim).result = .ok t) (hn : h.vertexCount + 3 < 2 ^ 32)
    {s : Triangle} (hs : s ∈ t.mesh.triangles) :
    s.areaAt t.mesh.spot ≠ 0 ∧ ∀ i : UInt32, i.toNat < h.vertexCount →
      ¬InsideCircle (t.mesh.spot s.v1) (t.mesh.spot s.v2) (t.mesh.spot s.v3) (t.mesh.spot i) := by
  obtain ⟨m, hp, hD, hmesh⟩ := exists_of_triangulate he ht
  rw [hmesh] at hs ⊢
  obtain ⟨u, hu, hu3, rfl⟩ := mem_result hs
  refine ⟨?_, fun i hi => ?_⟩
  · refine (wind_eq (fun a b c => area a b c ≠ 0) (fun a b c => ?_) hp hu3).mpr
      (hD.areaAt_ne_zero hu)
    rw [← area_rotate, area_swap, area_rotate, ne_eq, neg_eq_zero]
  · have hfit : (seedMesh.addHull h).nextIndex.toNat = 3 + h.vertexCount := by
      rw [← seeded_count]
      exact Nat.mod_eq_of_lt (by rw [seeded_count]; omega)
    obtain ⟨j, hj, rfl⟩ := exists_sub_three (i := i) (by omega)
    have hmem : j ∈ (insertionOrder h).reverse ++ [2, 1, 0] :=
      (mem_insertionOrder_seeds (nextIndex_sub_le h)).mpr (by omega)
    rw [meshWith_spot hp _ (by omega)]
    exact fun hin => hD.circle_empty hu hmem
      ((wind_eq (fun a b c => InsideCircle a b c (m.spot j))
        (fun a b c => propext insideCircle_comm) hp hu3).mp hin)

/-- A vertex at the position of an earlier one is no corner of the result. -/
theorem result_not_corner (he : ∀ p ∈ h.vertices, p.Enclosed)
    (ht : (h.triangulate sink prim).result = .ok t) {i j : UInt32} (hij : i < j)
    (hspot : t.mesh.spot i = t.mesh.spot j) {s : Triangle} (hs : s ∈ t.mesh.triangles) :
    j ∉ s.indices := by
  intro hj
  have hbound := nextIndex_sub_le h
  obtain ⟨m, hp, hD, hmesh⟩ := exists_of_triangulate he ht
  rw [hmesh] at hs hspot
  obtain ⟨u, hu, hu3, rfl⟩ := mem_result hs
  obtain ⟨l, hl, rfl⟩ := List.mem_map.mp (indices_map _ u ▸ mem_wind_indices.mp hj)
  have hl3 := hu3 l hl
  have hlt := l.toNat_lt
  rw [UInt32.lt_iff_toNat_lt, toNat_sub_three hl3] at hij
  obtain ⟨k, hk, rfl⟩ := exists_sub_three (i := i) (by omega)
  rw [meshWith_spot hp _ (by omega), meshWith_spot hp _ hl3] at hspot
  have hmem : k ∈ (insertionOrder h).reverse ++ [2, 1, 0] := by
    have hl' := (mem_insertionOrder_seeds hbound).mp (hD.indices_mem hu hl)
    exact (mem_insertionOrder_seeds hbound).mpr (by omega)
  exact hD.not_corner (insertionOrder_sorted _ hbound) hmem (by omega) hspot hu hl

end Circles

/-- **Triangulation is Delaunay.**  After every insertion no vertex inserted so far and no seed lies
inside the circle of a triangle.  No vertex of the hull lies inside the circle of a triangle of the
result, as long as their indices fit, and one at the position of an earlier vertex is no corner. -/
theorem triangulate_delaunay (h : Hull) (he : ∀ p ∈ h.vertices, p.Enclosed) :
    (∀ k ≤ (seedMesh.addHull h).nextIndex.toNat - 3,
      ∃ m, insertFrom? (seedMesh.addHull h) 3 k = some m ∧
        m.positions = (seedMesh.addHull h).positions ∧
        ∀ t ∈ m.triangles, t.areaAt m.spot ≠ 0 ∧ ∀ i : UInt32, i.toNat < 3 + k →
          ¬InsideCircle (m.spot t.v1) (m.spot t.v2) (m.spot t.v3) (m.spot i)) ∧
    ∀ sink prim t, (h.triangulate sink prim).result = .ok t →
      t.mesh.positions = h.vertices.toArray ∧
      (h.vertexCount + 3 < 2 ^ 32 → ∀ s ∈ t.mesh.triangles, s.areaAt t.mesh.spot ≠ 0 ∧
        ∀ i : UInt32, i.toNat < h.vertexCount →
          ¬InsideCircle (t.mesh.spot s.v1) (t.mesh.spot s.v2) (t.mesh.spot s.v3) (t.mesh.spot i)) ∧
      ∀ i j, i < j → t.mesh.spot i = t.mesh.spot j → ∀ s ∈ t.mesh.triangles, j ∉ s.indices := by
  refine ⟨fun k hk => inserted_circle_empty he hk, fun sink prim t ht => ⟨?_, ?_, ?_⟩⟩
  · obtain ⟨m, -, -, hmesh⟩ := exists_of_triangulate he ht
    rw [hmesh]
    rfl
  · exact fun hn s hs => result_circle_empty he ht hn hs
  · exact fun i j hij hspot s hs => result_not_corner he ht hij hspot hs

/-- A square with a corner given twice: the four vertices are on one circle, and the second of the two
equal ones is no corner. -/
theorem triangulate_delaunay_square :
    ∃ t, ((Profile.square.addVertex (.flat 0.5 0.5)).triangulate .disabled "").result = .ok t ∧
      ∀ s ∈ t.mesh.triangles, (∀ i : UInt32, i.toNat < 5 →
        ¬InsideCircle (t.mesh.spot s.v1) (t.mesh.spot s.v2) (t.mesh.spot s.v3) (t.mesh.spot i)) ∧
        4 ∉ s.indices := by
  have hall : ∀ p ∈ (Profile.square.addVertex (.flat 0.5 0.5)).vertices, p.Enclosed := by
    decide +kernel
  have hok : ((Profile.square.addVertex (.flat 0.5 0.5)).triangulate .disabled "").result.isOk := by
    decide +kernel
  have hcount : (Profile.square.addVertex (.flat 0.5 0.5)).vertexCount = 5 := by decide +kernel
  cases ht : ((Profile.square.addVertex (.flat 0.5 0.5)).triangulate .disabled "").result with
  | error e =>
    rw [ht] at hok
    cases hok
  | ok t =>
    obtain ⟨hpos, hempty, hcorner⟩ := (triangulate_delaunay _ hall).2 .disabled "" t ht
    have hspot : t.mesh.spot 0 = t.mesh.spot 4 := by
      have hv : t.mesh.vertex? 0 = t.mesh.vertex? 4 := by
        unfold Mesh.vertex?
        rw [hpos]
        decide +kernel
      rw [Mesh.spot, Mesh.spot, hv]
    rw [hcount] at hempty
    exact ⟨t, rfl, fun s hs => ⟨(hempty (by norm_num) s hs).2, hcorner 0 4 (by decide) hspot s hs⟩⟩

/-! ### The tiling -/

open Classical in
/-- The triangles of a mesh tile the seed triangle over the inserted vertices `is`. -/
structure Mesh.TilesSeed (m : Mesh) (is : List UInt32) : Prop where
  disjoint : m.triangles.Pairwise fun s t =>
    interior (s.region m.spot) ∩ interior (t.region m.spot) = ∅
  union : ⋃ t ∈ m.triangles, t.region m.spot = Plane.triangle (0, -10) (-10, 10) (10, 10)
  area : (m.triangles.map fun t => |t.areaAt m.spot| / 2).sum = 200
  /-- Every inserted position is a corner, -/
  corner : ∀ i ∈ is, ∃ t ∈ m.triangles, ∃ j ∈ t.indices, m.spot j = m.spot i
  /-- and lies in a triangle there only. -/
  at_corner : ∀ i ∈ is, ∀ t ∈ m.triangles, m.spot i ∈ t.region m.spot →
    ∃ j ∈ t.indices, m.spot j = m.spot i
  edge : ∀ e, m.triangles.countP (fun t => e ∈ t.edges) ≤ 2
  /-- Two triangles for each distinct position, and one. -/
  count : m.triangleCount = 2 * (is.map m.spot).toFinset.card + 1

/-- As many triangles have an edge as the edge is listed, at most. -/
theorem countP_edges_le (e : Edge) (ts : List Triangle) :
    ts.countP (fun t => e ∈ t.edges) ≤ (edgesOf ts).count e := by
  induction ts with
  | nil => exact le_rfl
  | cons t ts ih =>
    rw [List.countP_cons, edgesOf, List.flatMap_cons, List.count_append, add_comm]
    refine Nat.add_le_add ?_ ih
    split
    · next h => exact List.count_pos_iff.mpr (of_decide_eq_true h)
    · exact Nat.zero_le _

/-- An edge has a triangle on either side, at most. -/
theorem Tiles.count_edge_le {pos : UInt32 → Plane} {hull : Triangle} {ts : List Triangle}
    (h : Tiles pos hull ts) (e : Edge) : (edgesOf ts).count e ≤ 2 := by
  by_cases he : e ∈ edgesOf ts
  · rw [edgesOf_eq] at he ⊢
    obtain ⟨a, ha, rfl⟩ := List.mem_map.mp he
    obtain ⟨t, ht, hat⟩ := mem_arcsOf.mp ha
    have hswap : a.swap ≠ a := fun e => swap_not_mem_arcs (h.left t ht) hat (e.symm ▸ hat)
    rw [count_ofArc hswap]
    exact Nat.add_le_add (List.nodup_iff_count_le_one.mp h.arcs_nodup a)
      (List.nodup_iff_count_le_one.mp h.arcs_nodup a.swap)
  · rw [List.count_eq_zero_of_not_mem he]
    exact Nat.zero_le _

namespace Mesh.IsDelaunay

variable {m : Mesh} {is : List UInt32}

/-- The triangles of a Delaunay mesh do not overlap. -/
theorem disjoint_interiors (hm : m.IsDelaunay is) : m.triangles.Pairwise fun s t =>
    interior (s.region m.spot) ∩ interior (t.region m.spot) = ∅ := by
  have h := List.pairwise_map.mp hm.delaunay.disjoint_interiors
  simpa only [upright_region] using h

/-- The positions inside the seed triangle are those of the vertices other than the seeds. -/
theorem triangleCount_eq (hm : m.IsDelaunay (is.reverse ++ [2, 1, 0]))
    (hin : ∀ i ∈ is, m.spot i ∈ interior (seedHull.region m.spot)) {inner : Finset Plane}
    (hinner : ∀ q, q ∈ inner ↔ ∃ i ∈ is, m.spot i = q) : m.triangleCount = 2 * inner.card + 1 := by
  rw [triangleCount, ← List.length_map (upright m.spot)]
  refine hm.delaunay.length_eq fun q => (hinner q).trans ⟨?_, ?_⟩
  · rintro ⟨i, hi, rfl⟩
    exact ⟨⟨i, by simp [hi], rfl⟩, hin i hi⟩
  · rintro ⟨⟨i, hi, rfl⟩, hq⟩
    rcases List.mem_append.mp hi with hi | hi
    · exact ⟨i, List.mem_reverse.mp hi, rfl⟩
    · refine absurd hq (spots_not_interior hm.delaunay.hull_left ?_)
      simp only [List.mem_cons, List.not_mem_nil, or_false] at hi
      rcases hi with rfl | rfl | rfl <;> simp [spots, seedHull]

/-- **A Delaunay mesh tiles the seed triangle.** -/
theorem tilesSeed (hm : m.IsDelaunay (is.reverse ++ [2, 1, 0]))
    (hin : ∀ i ∈ is, m.spot i ∈ interior (seedHull.region m.spot))
    (hregion : seedHull.region m.spot = Plane.triangle (0, -10) (-10, 10) (10, 10))
    (harea : seedHull.areaAt m.spot = 400) : m.TilesSeed is where
  disjoint := hm.disjoint_interiors
  union := by
    have h := hm.delaunay.iUnion_region fun t ht i hi =>
      hm.delaunay.mem_hull (hm.delaunay.corner_mem ht hi)
    rw [hregion] at h
    rw [← h]
    simp only [List.mem_map, Set.iUnion_exists, Set.biUnion_and', Set.iUnion_iUnion_eq_right,
      upright_region]
  area := by
    have h := hm.delaunay.sum_area
    rw [harea, List.map_map] at h
    have habs : (areaAt m.spot ∘ upright m.spot) = fun t => |t.areaAt m.spot| :=
      funext fun t => (upright_cases m.spot t).2.2.2
    simp only [div_eq_mul_inv]
    rw [List.sum_map_mul_right, ← habs, h]
    norm_num
  corner i hi := by
    obtain ⟨u, hu, j, hj, e⟩ := hm.delaunay.exists_corner (i := i) (by simp [hi])
    obtain ⟨t, ht, rfl⟩ := List.mem_map.mp hu
    exact ⟨t, ht, j, mem_upright_indices.mp hj, e⟩
  at_corner i hi t ht hr := by
    obtain ⟨j, hj, e⟩ := hm.delaunay.eq_corner (upright_mem ht) (i := i) (by simp [hi])
      (by rwa [upright_region])
    exact ⟨j, mem_upright_indices.mp hj, e⟩
  edge e := by
    refine (countP_edges_le e _).trans ?_
    rw [← (edgesOf_upright m.spot m.triangles).count_eq]
    exact hm.delaunay.count_edge_le e
  count := hm.triangleCount_eq hin fun q => by simp

end Mesh.IsDelaunay

/-- **Insertion always leaves a tiling**, and the triangles of the result do not overlap. -/
theorem insertions_tile (h : Hull) (he : ∀ p ∈ h.vertices, p.Enclosed) :
    (∀ is : List UInt32, (∀ i ∈ is, 3 ≤ i.toNat ∧ i.toNat < 3 + h.vertexCount) →
      ∃ m, is.foldlM Mesh.insertVertex? (seedMesh.addHull h) = some m ∧
        m.positions = (seedMesh.addHull h).positions ∧ m.TilesSeed is) ∧
    ∀ sink prim t, (h.triangulate sink prim).result = .ok t →
      t.mesh.triangles.Pairwise fun s u =>
        interior (s.region t.mesh.spot) ∩ interior (u.region t.mesh.spot) = ∅ := by
  constructor
  · intro is his
    obtain ⟨m, hm, hp, hD⟩ := exists_inserted he his
    obtain ⟨h₀, h₁, h₂⟩ := seeded_spots h
    have hspot := Mesh.spot_congr hp
    refine ⟨m, hm, hp, hD.tilesSeed (fun i hi => ?_) ?_ ?_⟩
    · rw [hspot]
      exact seeded_interior he (his i hi).1 (his i hi).2
    · rw [hspot, seeded_region, triangle_flip]
    · rw [hspot, seedHull, areaAt, h₀, h₁, h₂]
      norm_num [area]
  · intro sink prim t ht
    obtain ⟨m, hp, hD, hmesh⟩ := exists_of_triangulate he ht
    rw [hmesh]
    refine List.pairwise_map.mpr (List.Pairwise.filter _ (List.pairwise_map.mpr ?_))
    refine (hD.disjoint_interiors.filter clear).imp_of_mem fun {s u} hs hu hdis => ?_
    have hregion : ∀ v ∈ m.triangles.filter clear,
        (h.wind (v.map (· - 3))).region (h.meshWith ((h.inner m).map h.wind)).spot = v.region m.spot :=
      fun v hv => wind_eq Plane.triangle triangle_flip hp (clear_iff.mp (List.mem_filter.mp hv).2)
    rwa [hregion s hs, hregion u hu]

/-- Three vertices on a line, the first of them given twice and inserted three times. -/
theorem insertions_tile_line :
    (∀ p ∈ (Hull.ofPlanar [(0, 0), (1, 1), (2, 2), (0, 0)]).vertices, p.Enclosed) ∧
      ∃ m, [3, 5, 4, 6, 3].foldlM Mesh.insertVertex?
          (seedMesh.addHull (Hull.ofPlanar [(0, 0), (1, 1), (2, 2), (0, 0)])) = some m ∧
        m.TilesSeed [3, 5, 4, 6, 3] := by
  have hall : ∀ p ∈ (Hull.ofPlanar [(0, 0), (1, 1), (2, 2), (0, 0)]).vertices, p.Enclosed := by
    decide +kernel
  have his : ∀ i ∈ ([3, 5, 4, 6, 3] : List UInt32), 3 ≤ i.toNat ∧
      i.toNat < 3 + (Hull.ofPlanar [(0, 0), (1, 1), (2, 2), (0, 0)]).vertexCount := by
    have hcount : (Hull.ofPlanar [(0, 0), (1, 1), (2, 2), (0, 0)]).vertexCount = 4 := by decide +kernel
    intro i hi
    rw [hcount]
    simp only [List.mem_cons, List.not_mem_nil, or_false] at hi
    rcases hi with rfl | rfl | rfl | rfl | rfl <;> decide
  obtain ⟨m, hm, -, htiles⟩ := (insertions_tile _ hall).1 _ his
  exact ⟨hall, m, hm, htiles⟩

end Prims

end
