import Prims.Proofs.Delaunay.Seed

/-!
# Delaunay — Output

What triangulation returns for a hull inside the seed triangle: what `triangulate_of_inserted` says about
a Delaunay mesh (`triangulate_result`).  What does not depend on the winding of a triangle is the same
for one of the result and for the one of the Delaunay mesh that it comes from (`wind_eq`).
-/

noncomputable section

namespace Prims

open Plane Triangle Triangulation

namespace Hull

/-- Vertices of the hull are where the ones behind the seeds are. -/
theorem meshWith_spot {h : Hull} {m : Mesh} (hm : m.positions = (seedMesh.addHull h).positions)
    (ts : List Triangle) {i : UInt32} (hi : 3 ≤ i.toNat) : (h.meshWith ts).spot (i - 3) = m.spot i := by
  rw [Mesh.spot, meshWith_vertex hm ts hi, Mesh.spot]

/-- **What triangulation returns.** -/
theorem triangulate_result {h : Hull} (h3 : 3 ≤ h.vertexCount) (he : ∀ p ∈ h.vertices, p.Enclosed)
    (sink : DumpSink) (prim : String) : ∃ m, inserted? h = some m ∧
      m.positions = (seedMesh.addHull h).positions ∧
      m.IsDelaunay ((insertionOrder h).reverse ++ [2, 1, 0]) ∧
      (h.triangulate sink prim).result = if (h.inner m).isEmpty then .error (.error .noTriangles)
        else .ok ⟨h.meshWith ((h.inner m).map h.wind), h.ringLengths⟩ := by
  obtain ⟨m, hm, hp, hD⟩ := exists_inserted he fun i hi => insertionOrder_count hi
  rw [← inserted?_eq] at hm
  exact ⟨m, hm, hp, hD, triangulate_of_inserted h3 hm hp hD.triangles_inRange sink prim⟩

/-- A result comes from the Delaunay mesh. -/
theorem exists_of_triangulate {h : Hull} (he : ∀ p ∈ h.vertices, p.Enclosed) {sink : DumpSink}
    {prim : String} {t : Triangulation} (ht : (h.triangulate sink prim).result = .ok t) :
    ∃ m, m.positions = (seedMesh.addHull h).positions ∧
      m.IsDelaunay ((insertionOrder h).reverse ++ [2, 1, 0]) ∧
      t.mesh = h.meshWith ((h.inner m).map h.wind) := by
  by_cases h3 : h.vertexCount < 3
  · rw [triangulate, if_pos h3] at ht
    cases ht
  · obtain ⟨m, -, hp, hD, hr⟩ := triangulate_result (not_lt.mp h3) he sink prim
    refine ⟨m, hp, hD, ?_⟩
    rw [hr] at ht
    split at ht
    · cases ht
    · exact congrArg Triangulation.mesh (Except.ok.inj ht).symm

/-! ### Triangles of the result -/

section Wound

variable {h : Hull} {m : Mesh} {ts : List Triangle} {t : Triangle}

/-- What does not depend on the winding is the same for a triangle of the result as for the one of the
Delaunay mesh. -/
theorem wind_eq {α : Sort*} (f : Plane → Plane → Plane → α) (hf : ∀ a b c, f a c b = f a b c)
    (hm : m.positions = (seedMesh.addHull h).positions) (ht : ∀ i ∈ t.indices, 3 ≤ i.toNat) :
    f ((h.meshWith ts).spot (h.wind (t.map (· - 3))).v1) ((h.meshWith ts).spot (h.wind (t.map (· - 3))).v2)
      ((h.meshWith ts).spot (h.wind (t.map (· - 3))).v3) = f (m.spot t.v1) (m.spot t.v2) (m.spot t.v3) := by
  have h₁ := meshWith_spot hm ts (ht t.v1 (by simp [indices]))
  have h₂ := meshWith_spot hm ts (ht t.v2 (by simp [indices]))
  have h₃ := meshWith_spot hm ts (ht t.v3 (by simp [indices]))
  rcases h.wind_cases (t.map (· - 3)) with e | e
  · rw [e, ← h₁, ← h₂, ← h₃]
    rfl
  · rw [e, ← h₁, ← h₂, ← h₃, ← hf]
    rfl

end Wound

end Hull

end Prims

end
