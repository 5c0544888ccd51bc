import Prims.Proofs.Delaunay.Mesh
import Prims.Proofs.Triangulation.Output

/-!
# Delaunay — Seed

Runs of insertions from the seed triangle.  The seed mesh is a Delaunay tiling of itself
(`seed_isDelaunay`), and as insertion keeps Delaunay meshes, every sequence of vertices that lie
strictly inside the seed triangle can be inserted, and leaves a Delaunay mesh (`exists_inserted`).
-/

noncomputable section

namespace Prims

open Plane Triangle

/-! ### The inside of the seed triangle -/

/-- The site lies strictly inside the triangle `(0, -10), (10, 10), (-10, 10)`. -/
def Site.Enclosed (s : Site) : Prop :=
  2 * s.x < s.y + 10 * Single.unitsPerOne ∧ -(2 * s.x) < s.y + 10 * Single.unitsPerOne ∧
    s.y < 10 * Single.unitsPerOne

instance (s : Site) : Decidable s.Enclosed := inferInstanceAs (Decidable (_ ∧ _ ∧ _))

/-- The point has finite planar coordinates and lies strictly inside the seed triangle. -/
def Point.Enclosed (p : Point) : Prop := ∃ s, p.site? = some s ∧ s.Enclosed

instance (p : Point) : Decidable p.Enclosed :=
  decidable_of_iff (p.site?.any fun s => decide s.Enclosed) (by
    cases h : p.site? <;> simp [Point.Enclosed, h])

theorem Site.enclosed_iff {s : Site} :
    s.Enclosed ↔ s.spot ∈ interior (Plane.triangle (0, -10) (10, 10) (-10, 10)) := by
  have hu := unitsPerOne_pos
  rw [mem_interior_iff (by norm_num [Plane.area])]
  have hx : s.spot.1 = s.x / Single.unitsPerOne := rfl
  have hy : s.spot.2 = s.y / Single.unitsPerOne := rfl
  have h₁ : Plane.area (0, -10) (10, 10) s.spot =
      10 * ((s.y + 10 * Single.unitsPerOne - 2 * s.x : ℤ) / Single.unitsPerOne : ℝ) := by
    simp only [Plane.area, hx, hy]
    push_cast
    field_simp
    ring
  have h₂ : Plane.area (10, 10) (-10, 10) s.spot =
      20 * ((10 * Single.unitsPerOne - s.y : ℤ) / Single.unitsPerOne : ℝ) := by
    simp only [Plane.area, hx, hy]
    push_cast
    field_simp
    ring
  have h₃ : Plane.area (-10, 10) (0, -10) s.spot =
      10 * ((s.y + 10 * Single.unitsPerOne + 2 * s.x : ℤ) / Single.unitsPerOne : ℝ) := by
    simp only [Plane.area, hx, hy]
    push_cast
    field_simp
    ring
  rw [h₁, h₂, h₃, mul_pos_iff_of_pos_left (by norm_num), mul_pos_iff_of_pos_left (by norm_num),
    mul_pos_iff_of_pos_left (by norm_num), div_pos_iff_of_pos_right hu, div_pos_iff_of_pos_right hu,
    div_pos_iff_of_pos_right hu, Int.cast_pos, Int.cast_pos, Int.cast_pos, Site.Enclosed]
  omega

namespace Triangulation

variable {h : Hull}

/-! ### The seed mesh -/

/-- The planar positions of the seeds. -/
theorem seeded_spots (h : Hull) : (seedMesh.addHull h).spot 0 = (0, -10) ∧
    (seedMesh.addHull h).spot 1 = (-10, 10) ∧ (seedMesh.addHull h).spot 2 = (10, 10) := by
  have hu := unitsPerOne_pos.ne'
  have h₀ : (Point.flat 0 (-10)).site? = some ⟨0, -(10 * Single.unitsPerOne)⟩ := by decide +kernel
  have h₁ : (Point.flat (-10) 10).site? =
      some ⟨-(10 * Single.unitsPerOne), 10 * Single.unitsPerOne⟩ := by decide +kernel
  have h₂ : (Point.flat 10 10).site? =
      some ⟨10 * Single.unitsPerOne, 10 * Single.unitsPerOne⟩ := by decide +kernel
  refine ⟨?_, ?_, ?_⟩
  · rw [Mesh.spot, seeded_seed (by decide)]
    show (Point.site? (.flat 0 (-10))).elim 0 Site.spot = _
    rw [h₀]
    simp [Site.spot, hu, neg_div]
  · rw [Mesh.spot, seeded_seed (by decide)]
    show (Point.site? (.flat (-10) 10)).elim 0 Site.spot = _
    rw [h₁]
    simp [Site.spot, hu, neg_div]
  · rw [Mesh.spot, seeded_seed (by decide)]
    show (Point.site? (.flat 10 10)).elim 0 Site.spot = _
    rw [h₂]
    simp [Site.spot, hu]

/-- The region of the seed triangle. -/
theorem seeded_region (h : Hull) : seedHull.region (seedMesh.addHull h).spot =
    Plane.triangle (0, -10) (10, 10) (-10, 10) := by
  obtain ⟨h₀, h₁, h₂⟩ := seeded_spots h
  rw [← h₀, ← h₁, ← h₂]
  rfl

theorem seeded_finite (he : ∀ p ∈ h.vertices, p.Enclosed) : (seedMesh.addHull h).Finite := by
  have hseeds : ∀ p ∈ seeds, p.site?.isSome := by decide +kernel
  intro p hp
  rw [seeded_positions] at hp
  rcases Array.mem_append.mp hp with hp | hp
  · exact hseeds p (List.mem_toArray.mp hp)
  · obtain ⟨s, hs, -⟩ := he p (List.mem_toArray.mp hp)
    simp [hs]

/-- The vertices of an enclosed hull lie strictly inside the seed triangle. -/
theorem seeded_interior (he : ∀ p ∈ h.vertices, p.Enclosed) {i : UInt32} (h3 : 3 ≤ i.toNat)
    (hi : i.toNat < 3 + h.vertexCount) : (seedMesh.addHull h).spot i ∈
      interior (seedHull.region (seedMesh.addHull h).spot) := by
  have hlt : i.toNat - 3 < h.vertices.length := by
    rw [Hull.vertexCount] at hi
    omega
  obtain ⟨s, hs, hin⟩ := he _ (List.getElem_mem hlt)
  have hspot : (seedMesh.addHull h).spot i = s.spot := by
    rw [Mesh.spot, seeded_vertex h3, List.getElem?_eq_getElem hlt, Option.bind_some, hs]
    rfl
  rw [hspot, seeded_region]
  exact Site.enclosed_iff.mp hin

/-- The seed triangle is clockwise. -/
theorem seeded_upright (h : Hull) :
    (seedMesh.addHull h).triangles.map (upright (seedMesh.addHull h).spot) = [⟨1, 0, 2⟩] := by
  obtain ⟨h₀, h₁, h₂⟩ := seeded_spots h
  show [upright _ ⟨0, 1, 2⟩] = _
  rw [upright_of_neg]
  show area _ _ _ < 0
  rw [h₀, h₁, h₂]
  norm_num [area]

/-- **The seed mesh is a Delaunay mesh.** -/
theorem seed_isDelaunay (he : ∀ p ∈ h.vertices, p.Enclosed) :
    (seedMesh.addHull h).IsDelaunay [2, 1, 0] := by
  obtain ⟨h₀, h₁, h₂⟩ := seeded_spots h
  refine ⟨seeded_finite he, fun i hi => ?_, ?_⟩
  · rw [seeded_count]
    simp only [List.mem_cons, List.not_mem_nil, or_false] at hi
    rcases hi with rfl | rfl | rfl <;> simp <;> omega
  rw [seeded_upright]
  refine ⟨⟨?_, fun t ht => ?_, fun f _ => ?_⟩, fun t ht i hi => ?_, fun t ht i hi => ?_, ?_,
    fun i hi => .inl (by simp [seedHull, indices] at hi ⊢; tauto)⟩
  · show 0 < area _ _ _
    rw [seedHull, h₀, h₁, h₂]
    norm_num [area]
  · obtain rfl := List.mem_singleton.mp ht
    show 0 < area _ _ _
    rw [h₀, h₁, h₂]
    norm_num [area]
  · simp only [List.map_cons, List.map_nil, List.sum_cons, List.sum_nil, circulation, seedHull]
    ring
  · obtain rfl := List.mem_singleton.mp ht
    rcases mem_indices.mp hi with rfl | rfl | rfl
    · exact ⟨[2], [0], rfl, by simp [h₀, h₁]⟩
    · exact ⟨[2, 1], [], rfl, by simp⟩
    · exact ⟨[], [1, 0], rfl, by simp [h₀, h₁, h₂]; norm_num⟩
  · obtain rfl := List.mem_singleton.mp ht
    simp only [List.mem_cons, List.not_mem_nil, or_false] at hi
    rcases hi with rfl | rfl | rfl <;> norm_num [Influenced, h₀, h₁, h₂, inCircle, thales, area]
  · simp [seedHull, indices]

/-! ### Runs -/

/-- A run of insertions of vertices inside the seed triangle keeps a Delaunay mesh. -/
theorem insertAll : ∀ (is : List UInt32) {js : List UInt32} {m : Mesh}, m.IsDelaunay js →
    (∀ i ∈ is, i.toNat < m.vertexCount ∧ m.spot i ∈ interior (seedHull.region m.spot)) →
    ∃ m', is.foldlM Mesh.insertVertex? m = some m' ∧ m'.positions = m.positions ∧
      m'.IsDelaunay (is.reverse ++ js)
  | [], _, m, h, _ => ⟨m, rfl, rfl, h⟩
  | i :: is, js, m, h, his => by
    obtain ⟨hi, hin⟩ := his i List.mem_cons_self
    obtain ⟨m₁, hm₁, hp₁, h₁⟩ := h.insertVertex? hi hin
    have his₁ : ∀ j ∈ is,
        j.toNat < m₁.vertexCount ∧ m₁.spot j ∈ interior (seedHull.region m₁.spot) := by
      intro j hj
      rw [Mesh.spot_congr hp₁, Mesh.vertexCount, hp₁]
      exact his j (List.mem_cons_of_mem _ hj)
    obtain ⟨m', hm', hp', h'⟩ := insertAll is h₁ his₁
    refine ⟨m', ?_, hp'.trans hp₁, ?_⟩
    · rw [List.foldlM_cons, hm₁]
      exact hm'
    · rwa [List.reverse_cons, List.append_assoc]

/-- **Every sequence of enclosed vertices can be inserted**, and leaves a Delaunay mesh. -/
theorem exists_inserted (he : ∀ p ∈ h.vertices, p.Enclosed) {is : List UInt32}
    (his : ∀ i ∈ is, 3 ≤ i.toNat ∧ i.toNat < 3 + h.vertexCount) :
    ∃ m, is.foldlM Mesh.insertVertex? (seedMesh.addHull h) = some m ∧
      m.positions = (seedMesh.addHull h).positions ∧ m.IsDelaunay (is.reverse ++ [2, 1, 0]) := by
  refine insertAll is (seed_isDelaunay he) fun i hi => ?_
  rw [seeded_count]
  exact ⟨(his i hi).2, seeded_interior he (his i hi).1 (his i hi).2⟩

end Triangulation

end Prims

end
