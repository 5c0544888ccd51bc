import Prims.Build.Triangulate
import Prims.Proofs.Triangulation.Insertion

/-!
# Triangulation — Output

What triangulation makes of the mesh after all insertions: the seeds go with the triangles at them, then
the triangles outside the hull, and the rest is wound counter-clockwise (`triangulate_of_inserted`).  So
every triangle of the result is, up to its winding and the shift of the indices, one of that mesh
(`mem_result`).
-/

namespace Prims

open Triangle

namespace Triangulation

variable {h : Hull}

/-! ### The seed mesh -/

theorem seeded_positions (h : Hull) :
    (seedMesh.addHull h).positions = seeds.toArray ++ h.vertices.toArray := rfl

theorem seeded_count (h : Hull) : (seedMesh.addHull h).vertexCount = 3 + h.vertexCount := by
  rw [Mesh.vertexCount, seeded_positions, Array.size_append]
  rfl

theorem seeded_seed {i : UInt32} (hi : i.toNat < 3) :
    (seedMesh.addHull h).vertex? i = seeds[i.toNat]? := by
  unfold Mesh.vertex?
  rw [seeded_positions, Array.getElem?_append_left (by simpa [seeds] using hi), List.getElem?_toArray]

/-- The vertices of the hull follow the seeds. -/
theorem seeded_vertex {i : UInt32} (hi : 3 ≤ i.toNat) :
    (seedMesh.addHull h).vertex? i = h.vertices[i.toNat - 3]? := by
  unfold Mesh.vertex?
  rw [seeded_positions, Array.getElem?_append_right (by simpa [seeds] using hi),
    List.getElem?_toArray]
  rfl

/-- Insertion of consecutive vertices as a run. -/
theorem insertFrom?_eq (m : Mesh) (first count : Nat) : insertFrom? m first count =
    ((List.range' first count).map Nat.toUInt32).foldlM Mesh.insertVertex? m := by
  induction count generalizing m first with
  | zero => rfl
  | succ count ih =>
    rw [insertFrom?, List.range'_succ, List.map_cons, List.foldlM_cons]
    exact bind_congr fun m => ih m (first + 1)

end Triangulation

/-- A mesh over the vertices of a hull. -/
def Hull.meshWith (h : Hull) (ts : List Triangle) : Mesh := ⟨h.vertices.toArray, ts, []⟩

/-! ### Removing the seeds -/

namespace Mesh

/-- Removing a vertex leaves the smaller indices alone, and no other becomes one of them. -/
theorem indexAfter_eq_iff {removed i k : UInt32} (hk : k < removed) :
    indexAfter removed i = k ↔ i = k := by
  rw [UInt32.lt_iff_toNat_lt] at hk
  by_cases h : removed.toNat < i.toNat
  · rw [indexAfter_of_lt h, ← UInt32.toNat_inj, ← UInt32.toNat_inj, toNat_pred (by omega)]
    omega
  · rw [indexAfter_of_le (not_lt.mp h)]

theorem uses_map_indexAfter {removed k : UInt32} (hk : k < removed) (t : Triangle) :
    (t.map (indexAfter removed)).uses k = t.uses k := by
  rw [Bool.eq_iff_iff]
  simp only [uses, Triangle.map, Bool.or_eq_true, beq_iff_eq, indexAfter_eq_iff hk]

/-- Removing the last seed first, every other index moves down by three. -/
theorem indexAfter_seeds {i : UInt32} (h : 3 ≤ i.toNat) :
    indexAfter 0 (indexAfter 1 (indexAfter 2 i)) = i - 3 := by
  have h₁ : (i - 1).toNat = i.toNat - 1 := toNat_pred (by omega)
  have h₂ : (i - 1 - 1).toNat = i.toNat - 2 := by
    rw [toNat_pred (by omega), h₁]
    omega
  have e₂ : indexAfter 2 i = i - 1 := indexAfter_of_lt (show 2 < i.toNat by omega)
  have e₁ : indexAfter 1 (i - 1) = i - 1 - 1 := indexAfter_of_lt (show 1 < (i - 1).toNat by omega)
  have e₀ : indexAfter 0 (i - 1 - 1) = i - 1 - 1 - 1 :=
    indexAfter_of_lt (show 0 < (i - 1 - 1).toNat by omega)
  rw [e₂, e₁, e₀]
  grind

theorem removeVertex?_toArray {ps ns : List Point} {ts : List Triangle} {i : UInt32}
    (hi : i.toNat < ps.length) : (⟨ps.toArray, ts, ns⟩ : Mesh).removeVertex? i =
      some ⟨(ps.eraseIdx i.toNat).toArray,
        (ts.filter fun t => !t.uses i).map (Triangle.map (indexAfter i)), []⟩ := by
  rw [← List.eraseIdxIfInBounds_toArray]
  exact if_pos (by simpa [vertexCount] using hi)

end Mesh

namespace Triangulation

/-- The triangle uses none of the first three vertices. -/
def clear (t : Triangle) : Bool := !t.uses 2 && !t.uses 1 && !t.uses 0

theorem clear_iff {t : Triangle} : clear t = true ↔ ∀ i ∈ t.indices, 3 ≤ i.toNat := by
  have hsmall : ∀ i : UInt32, 3 ≤ i.toNat ↔ i ≠ 2 ∧ i ≠ 1 ∧ i ≠ 0 := by
    intro i
    rw [Ne, Ne, Ne, ← UInt32.toNat_inj, ← UInt32.toNat_inj, ← UInt32.toNat_inj]
    show 3 ≤ i.toNat ↔ i.toNat ≠ 2 ∧ i.toNat ≠ 1 ∧ i.toNat ≠ 0
    omega
  simp only [clear, Bool.and_eq_true, Bool.not_eq_true', ← Bool.not_eq_true, uses_iff, hsmall]
  constructor
  · rintro ⟨⟨h₂, h₁⟩, h₀⟩ i hi
    exact ⟨ne_of_mem_of_not_mem hi h₂, ne_of_mem_of_not_mem hi h₁, ne_of_mem_of_not_mem hi h₀⟩
  · intro h
    exact ⟨⟨fun hi => (h 2 hi).1 rfl, fun hi => (h 1 hi).2.1 rfl⟩, fun hi => (h 0 hi).2.2 rfl⟩

theorem toNat_sub_three {i : UInt32} (h : 3 ≤ i.toNat) : (i - 3).toNat = i.toNat - 3 :=
  UInt32.toNat_sub_of_le _ _ (UInt32.le_iff_toNat_le.mpr h)

/-- An index that leaves room for the seeds is what one behind them becomes. -/
theorem exists_sub_three {i : UInt32} (hi : i.toNat + 3 < 2 ^ 32) :
    ∃ j : UInt32, j.toNat = i.toNat + 3 ∧ j - 3 = i := by
  refine ⟨i + 3, ?_, by grind⟩
  rw [UInt32.toNat_add]
  exact Nat.mod_eq_of_lt hi

theorem indices_map (f : UInt32 → UInt32) (t : Triangle) :
    (t.map f).indices = t.indices.map f := rfl

/-- The triangles that use no seed, their indices in hull order. -/
def unseeded (ts : List Triangle) : List Triangle := (ts.filter clear).map (Triangle.map (· - 3))

theorem removed_seeds (ts : List Triangle) :
    (((((ts.filter fun t => !t.uses 2).map (Triangle.map (Mesh.indexAfter 2))).filter
      fun t => !t.uses 1).map (Triangle.map (Mesh.indexAfter 1))).filter
        fun t => !t.uses 0).map (Triangle.map (Mesh.indexAfter 0)) = unseeded ts := by
  have hclear : ∀ t : Triangle, (!((t.map (Mesh.indexAfter 2)).map (Mesh.indexAfter 1)).uses 0 &&
      (!(t.map (Mesh.indexAfter 2)).uses 1 && !t.uses 2)) = clear t := by
    intro t
    rw [Mesh.uses_map_indexAfter (by decide), Mesh.uses_map_indexAfter (by decide),
      Mesh.uses_map_indexAfter (by decide), clear]
    grind
  simp only [List.filter_map, List.filter_filter, List.map_map]
  refine (congrArg _ (List.filter_congr fun t _ => hclear t)).trans ?_
  refine List.map_congr_left fun t ht => ?_
  have h := clear_iff.mp (List.mem_filter.mp ht).2
  simp only [Function.comp_apply, Triangle.map, Mesh.indexAfter_seeds (h t.v1 (by simp [indices])),
    Mesh.indexAfter_seeds (h t.v2 (by simp [indices])),
    Mesh.indexAfter_seeds (h t.v3 (by simp [indices]))]

/-- **Removing the seeds** leaves the vertices of the hull and the triangles over them. -/
theorem withoutSeeds?_eq {m : Mesh} {h : Hull}
    (hm : m.positions = (seedMesh.addHull h).positions) :
    withoutSeeds? m = some (h.meshWith (unseeded m.triangles)) := by
  obtain ⟨ps, ts, ns⟩ := m
  obtain rfl : ps = (.flat 0 (-10) :: .flat (-10) 10 :: .flat 10 10 :: h.vertices).toArray :=
    hm.trans (by simp [seeded_positions, seeds])
  rw [withoutSeeds?, Mesh.removeVertex?_toArray (by simp)]
  simp only [Option.bind_eq_bind, Option.bind_some]
  rw [Mesh.removeVertex?_toArray (by simp), Option.bind_some, Mesh.removeVertex?_toArray (by simp),
    removed_seeds ts]
  rfl

/-! ### The order of insertion -/

/-- The indices of the vertices that triangulation inserts, first to last. -/
def insertionOrder (h : Hull) : List UInt32 :=
  (List.range' 3 ((seedMesh.addHull h).nextIndex.toNat - 3)).map Nat.toUInt32

theorem inserted?_eq (h : Hull) : inserted? h =
    (insertionOrder h).foldlM Mesh.insertVertex? (seedMesh.addHull h) := insertFrom?_eq _ _ _

theorem nextIndex_le (h : Hull) : (seedMesh.addHull h).nextIndex.toNat ≤ 3 + h.vertexCount := by
  rw [← seeded_count]
  exact Nat.mod_le _ _

theorem mem_range_toUInt32 {i : UInt32} {k : Nat} (hk : 3 + k ≤ 2 ^ 32) :
    i ∈ (List.range' 3 k).map Nat.toUInt32 ↔ 3 ≤ i.toNat ∧ i.toNat < 3 + k := by
  simp only [List.mem_map, List.mem_range'_1]
  constructor
  · rintro ⟨n, hn, rfl⟩
    rwa [show n.toUInt32.toNat = n from Nat.mod_eq_of_lt (by omega)]
  · intro hi
    exact ⟨i.toNat, hi, UInt32.ofNat_toNat⟩

/-- Later indices are larger. -/
theorem range_toUInt32_sorted {k : Nat} (hk : 3 + k ≤ 2 ^ 32) :
    ((List.range' 3 k).map Nat.toUInt32).Pairwise fun i j => i.toNat < j.toNat := by
  refine List.pairwise_map.mpr (List.Pairwise.imp_of_mem ?_ List.pairwise_lt_range')
  intro a b ha hb hab
  rw [List.mem_range'_1] at ha hb
  rwa [show a.toUInt32.toNat = a from Nat.mod_eq_of_lt (by omega),
    show b.toUInt32.toNat = b from Nat.mod_eq_of_lt (by omega)]

theorem nextIndex_sub_le (h : Hull) : 3 + ((seedMesh.addHull h).nextIndex.toNat - 3) ≤ 2 ^ 32 := by
  have := (seedMesh.addHull h).nextIndex.toNat_lt
  omega

theorem mem_insertionOrder {h : Hull} {i : UInt32} : i ∈ insertionOrder h ↔
    3 ≤ i.toNat ∧ i.toNat < (seedMesh.addHull h).nextIndex.toNat := by
  rw [insertionOrder, mem_range_toUInt32 (nextIndex_sub_le h)]
  omega

theorem insertionOrder_count {h : Hull} {i : UInt32} (hi : i ∈ insertionOrder h) :
    3 ≤ i.toNat ∧ i.toNat < 3 + h.vertexCount := by
  have := nextIndex_le h
  rw [mem_insertionOrder] at hi
  omega

end Triangulation

/-- A step of a build that succeeds. -/
theorem Build.result_bind_ok {α β : Type} {x : Build α} {a : α} (hx : x.result = .ok a)
    (f : α → Build β) : (x >>= f).result = (f a).result := by
  rw [Build.result_bind, hx]
  rfl

namespace Hull

open Triangulation

/-- The triangles of the mesh after all insertions that are kept. -/
def inner (h : Hull) (m : Mesh) : List Triangle :=
  (unseeded m.triangles).filter fun t => h.contains ((h.meshWith []).cornersAt t).centroid

/-- The triangle, turned over when it is clockwise. -/
def wind (h : Hull) (t : Triangle) : Triangle :=
  if ((h.meshWith []).cornersAt t).turn = .right then t.flip else t

theorem wind_cases (h : Hull) (t : Triangle) : h.wind t = t ∨ h.wind t = t.flip := by
  unfold wind
  split
  · exact .inr rfl
  · exact .inl rfl

/-- Vertices of the hull are the ones behind the seeds. -/
theorem meshWith_vertex {h : Hull} {m : Mesh} (hm : m.positions = (seedMesh.addHull h).positions)
    (ts : List Triangle) {i : UInt32} (hi : 3 ≤ i.toNat) :
    (h.meshWith ts).vertex? (i - 3) = m.vertex? i := by
  have hv : m.vertex? i = (seedMesh.addHull h).vertex? i := by rw [Mesh.vertex?, hm, Mesh.vertex?]
  rw [hv, seeded_vertex hi]
  unfold Mesh.vertex? meshWith
  rw [List.getElem?_toArray, toNat_sub_three hi]

/-- Without the seeds the mesh is in range. -/
theorem meshWith_inRange {h : Hull} {m : Mesh} (hm : m.InRange)
    (hp : m.positions = (seedMesh.addHull h).positions) : (h.meshWith (unseeded m.triangles)).InRange := by
  intro t ht i hi
  obtain ⟨s, hs, rfl⟩ := List.mem_map.mp ht
  obtain ⟨hs, hclear⟩ := List.mem_filter.mp hs
  have hcount : m.vertexCount = 3 + h.vertexCount := by
    rw [← seeded_count, Mesh.vertexCount, hp, Mesh.vertexCount]
  obtain ⟨j, hj, rfl⟩ := List.mem_map.mp (indices_map _ s ▸ hi)
  have h3 := clear_iff.mp hclear j hj
  have hlt := hm s hs j hj
  rw [toNat_sub_three h3]
  show j.toNat - 3 < h.vertices.toArray.size
  rw [List.size_toArray, ← vertexCount]
  omega

theorem inner_inRange {h : Hull} {m : Mesh} (hm : m.InRange)
    (hp : m.positions = (seedMesh.addHull h).positions) : (h.meshWith (h.inner m)).InRange :=
  fun t ht => meshWith_inRange hm hp t (List.mem_of_mem_filter ht)

/-- Cutting what is left without the seeds to the hull leaves the inner triangles. -/
theorem meshWith_removeOutside? {h : Hull} {m : Mesh} (hm : m.InRange)
    (hp : m.positions = (seedMesh.addHull h).positions) :
    (h.meshWith (unseeded m.triangles)).removeOutside? h = some (h.meshWith (h.inner m)) :=
  Mesh.removeOutside?_eq (meshWith_inRange hm hp) h

/-- **What triangulation returns**, when the mesh after all insertions is in range. -/
theorem triangulate_of_inserted {h : Hull} {m : Mesh} (h3 : 3 ≤ h.vertexCount) (hm : inserted? h = some m)
    (hp : m.positions = (seedMesh.addHull h).positions) (hr : m.InRange) (sink : DumpSink)
    (prim : String) : (h.triangulate sink prim).result =
      if (h.inner m).isEmpty then .error (.error .noTriangles)
      else .ok ⟨h.meshWith ((h.inner m).map h.wind), h.ringLengths⟩ := by
  have hun := meshWith_inRange hr hp
  have hin := inner_inRange hr hp
  have hup : (h.meshWith (h.inner m)).orientUp? = some (h.meshWith ((h.inner m).map h.wind)) :=
    Mesh.orientUp?_eq hin
  unfold triangulate
  rw [if_neg (by omega), hm, Build.result_bind_ok rfl,
    Build.result_bind_ok (Mesh.dump_result hr sink prim _), withoutSeeds?_eq hp,
    Build.result_bind_ok rfl, Build.result_bind_ok (Mesh.dump_result hun sink prim _),
    meshWith_removeOutside? hr hp, Build.result_bind_ok rfl, Build.result_bind_ok (Mesh.dump_result hin sink prim _)]
  show Build.result (if (h.inner m).isEmpty then _ else _) = _
  split
  · rfl
  · rw [hup, Build.result_bind_ok rfl]
    rfl

/-- A triangle of the result is one of the mesh after all insertions that uses no seed. -/
theorem mem_result {h : Hull} {m : Mesh} {s : Triangle} (hs : s ∈ (h.inner m).map h.wind) :
    ∃ t ∈ m.triangles, (∀ i ∈ t.indices, 3 ≤ i.toNat) ∧ s = h.wind (t.map (· - 3)) := by
  obtain ⟨u, hu, rfl⟩ := List.mem_map.mp hs
  obtain ⟨t, ht, rfl⟩ := List.mem_map.mp (List.mem_of_mem_filter hu)
  obtain ⟨ht, hclear⟩ := List.mem_filter.mp ht
  exact ⟨t, ht, clear_iff.mp hclear, rfl⟩

theorem mem_wind_indices {h : Hull} {t : Triangle} {i : UInt32} : i ∈ (h.wind t).indices ↔ i ∈ t.indices := by
  rcases h.wind_cases t with e | e <;> rw [e]
  exact Mesh.mem_flip_indices

end Hull

end Prims
