import Prims.Proofs.Triangulation.Output
import Prims.Proofs.Triangulation.Rings

/-!
# Triangulation — Result

What triangulation returns for any hull, inside the seed triangle or not.  The vertices are inserted in
the order of their indices, so the mesh after all insertions is grown (`inserted?_grown`), which removing
the seeds, cutting to the hull and winding preserve.  Main statements:

* `triangulate_cases`: too few vertices, no triangles, or a result over the hull's vertices whose
  triangles have three different corners, no two the same ones;
* `triangulate_represents`: for finite coordinates the result represents the hull (`Represents`), all its
  triangles strictly counter-clockwise, so that collinear vertices never give one.
-/

namespace Prims

open Triangle

namespace Triangulation

variable {h : Hull}

/-! ### The mesh after all insertions -/

theorem seed_grown (h : Hull) : (seedMesh.addHull h).Grown 3 := by
  have hpoint : ∀ i : UInt32, i.toNat < 3 →
      (seedMesh.addHull h).point i = (seeds[i.toNat]?).getD Point.origin :=
    fun i hi => by rw [Mesh.point, seeded_seed hi]
  have hturn : Turn.of (.flat 0 (-10)) (.flat (-10) 10) (.flat 10 10) ≠ .straight := by decide +kernel
  refine ⟨fun t ht => ?_, fun t ht => ?_, fun t ht => ?_, List.pairwise_singleton _ _⟩ <;>
    obtain rfl : t = ⟨0, 1, 2⟩ := List.mem_singleton.mp ht
  · intro i hi
    rcases mem_indices.mp hi with rfl | rfl | rfl <;> decide
  · decide
  · rw [Mesh.cornersAt, hpoint _ (by decide), hpoint _ (by decide), hpoint _ (by decide)]
    exact hturn

/-- **All vertices that indices reach can be inserted.** -/
theorem inserted?_grown (h : Hull) : ∃ m n, inserted? h = some m ∧
    m.positions = (seedMesh.addHull h).positions ∧ m.Grown n ∧ m.InRange := by
  have hnext := nextIndex_le h
  have hcount := seeded_count h
  obtain ⟨m, hm, hp, hg⟩ := insertFrom?_grown ((seedMesh.addHull h).nextIndex.toNat - 3) (seed_grown h)
    (by omega) (nextIndex_sub_le h)
  refine ⟨m, _, hm, hp, hg, hg.inRange ?_⟩
  rw [Mesh.vertexCount, hp, ← Mesh.vertexCount]
  omega

end Triangulation

/-! ### Renumbering and winding -/

theorem sub_three_injective : Function.Injective fun i : UInt32 => i - 3 := by
  intro i j h
  grind

namespace Triangle

variable {s t : Triangle} {f : UInt32 → UInt32}

theorem repeats_map (hf : Function.Injective f) (t : Triangle) : (t.map f).repeats = t.repeats := by
  rw [Bool.eq_iff_iff]
  simp [repeats, Triangle.map, hf.eq_iff]

theorem repeats_flip (t : Triangle) : t.flip.repeats = t.repeats := by
  rw [Bool.eq_iff_iff]
  simp only [repeats, Triangle.flip, Bool.or_eq_true, beq_iff_eq]
  tauto

theorem Apart.map (hf : Function.Injective f) (h : Apart s t) : Apart (s.map f) (t.map f) := by
  obtain ⟨i, hi⟩ := h
  refine ⟨f i, ?_⟩
  rwa [Triangulation.indices_map, Triangulation.indices_map, List.mem_map_of_injective hf,
    List.mem_map_of_injective hf]

end Triangle

/-- Finite points in the other order turn the other way. -/
theorem Turn.of_swap {a b c : Point} (ha : a.site?.isSome) (hb : b.site?.isSome) (hc : c.site?.isSome)
    (h : Turn.of a b c = .right) : Turn.of a c b = .left := by
  obtain ⟨s, hs⟩ := Option.isSome_iff_exists.mp ha
  obtain ⟨t, ht⟩ := Option.isSome_iff_exists.mp hb
  obtain ⟨u, hu⟩ := Option.isSome_iff_exists.mp hc
  have hswap : Site.area s u t = -Site.area s t u := by
    unfold Site.area
    ring
  simp only [Turn.of, hs, ht, hu, Turn.ofArea] at h ⊢
  rw [hswap]
  split at h
  · cases h
  · split at h
    · rw [if_pos (by omega)]
    · cases h

/-- Finite points turn to one side or are on a line. -/
theorem Turn.of_ne_unknown {a b c : Point} (ha : a.site?.isSome) (hb : b.site?.isSome)
    (hc : c.site?.isSome) : Turn.of a b c ≠ .unknown := by
  obtain ⟨s, hs⟩ := Option.isSome_iff_exists.mp ha
  obtain ⟨t, ht⟩ := Option.isSome_iff_exists.mp hb
  obtain ⟨u, hu⟩ := Option.isSome_iff_exists.mp hc
  simp only [Turn.of, hs, ht, hu, Turn.ofArea]
  split_ifs <;> simp

/-! ### The result -/

namespace Triangulation

/-- The triangulation has the vertices of the hull in hull order, the rings as ranges of indices, and over
the vertices triangles of three different corners, no two with the same ones. -/
structure Represents (t : Triangulation) (h : Hull) : Prop where
  positions : t.mesh.positions = h.vertices.toArray
  ringLengths : t.ringLengths = h.ringLengths
  /-- The ranges follow one another from zero, each as long as its ring; -/
  consecutive : t.ringRanges = (List.range h.ringLengths.length).map fun k =>
    ((h.ringLengths.take k).sum.toUInt32, (h.ringLengths.take (k + 1)).sum.toUInt32)
  /-- if the indices fit they partition them, -/
  partition : h.vertexCount < 2 ^ 32 →
    t.ringRanges.flatMap indexRange = (List.range h.vertexCount).map Nat.toUInt32
  /-- and each range has the vertices of its ring. -/
  rings : h.vertexCount < 2 ^ 32 → t.ringRanges.map t.ringAt = h.rings
  nonempty : t.mesh.triangles ≠ []
  inRange : t.mesh.InRange
  distinct : ∀ s ∈ t.mesh.triangles, s.repeats = false
  apart : t.mesh.triangles.Pairwise Apart

end Triangulation

namespace Hull

open Triangulation

variable {h : Hull} {m : Mesh} {n : Nat}

theorem apart_wind {s t : Triangle} (hst : Apart s t) : Apart (h.wind s) (h.wind t) := by
  obtain ⟨i, hi⟩ := hst
  exact ⟨i, by rwa [mem_wind_indices, mem_wind_indices]⟩

theorem repeats_wind (t : Triangle) : (h.wind t).repeats = t.repeats := by
  rcases h.wind_cases t with e | e <;> rw [e]
  exact repeats_flip t

/-- Corners are where they were before the seeds went. -/
theorem meshWith_cornersAt (hp : m.positions = (seedMesh.addHull h).positions) (ts : List Triangle)
    {t : Triangle} (ht : ∀ i ∈ t.indices, 3 ≤ i.toNat) :
    (h.meshWith ts).cornersAt (t.map (· - 3)) = m.cornersAt t := by
  have hpoint : ∀ i ∈ t.indices, (h.meshWith ts).point (i - 3) = m.point i := fun i hi => by
    rw [Mesh.point, meshWith_vertex hp ts (ht i hi), Mesh.point]
  rw [Mesh.cornersAt, Mesh.cornersAt, ← hpoint t.v1 (by simp [indices]), ← hpoint t.v2 (by simp [indices]),
    ← hpoint t.v3 (by simp [indices])]
  rfl

theorem result_inRange (hr : m.InRange) (hp : m.positions = (seedMesh.addHull h).positions) :
    (h.meshWith ((h.inner m).map h.wind)).InRange := by
  intro s hs i hi
  obtain ⟨t, ht, rfl⟩ := List.mem_map.mp hs
  exact inner_inRange hr hp t ht i (mem_wind_indices.mp hi)

/-- **The result of a grown mesh represents the hull.** -/
theorem result_represents (hg : m.Grown n) (hr : m.InRange)
    (hp : m.positions = (seedMesh.addHull h).positions) (hne : h.inner m ≠ []) :
    (⟨h.meshWith ((h.inner m).map h.wind), h.ringLengths⟩ : Triangulation).Represents h where
  positions := rfl
  ringLengths := rfl
  consecutive := ringRanges_eq _
  partition hn := by
    rw [flatMap_ringRanges (by rwa [sum_ringLengths]), sum_ringLengths]
  rings hn := map_ringAt rfl rfl hn
  nonempty := by simpa [meshWith] using hne
  inRange := result_inRange hr hp
  distinct s hs := by
    obtain ⟨t, ht, -, rfl⟩ := mem_result hs
    rw [repeats_wind, repeats_map sub_three_injective]
    exact hg.distinct t ht
  apart := by
    have hun : (unseeded m.triangles).Pairwise Apart :=
      List.pairwise_map.mpr ((hg.apart.filter _).imp fun hst => hst.map sub_three_injective)
    exact List.pairwise_map.mpr ((hun.filter _).imp apart_wind)

/-- Finite triangles of the result are strictly counter-clockwise. -/
theorem turn_result (hfin : ∀ p ∈ h.vertices, p.site?.isSome) (hg : m.Grown n) (hr : m.InRange)
    (hp : m.positions = (seedMesh.addHull h).positions) {s : Triangle}
    (hs : s ∈ (h.inner m).map h.wind) (ts : List Triangle) :
    ((h.meshWith ts).cornersAt s).turn = .left := by
  obtain ⟨t, ht, h3, rfl⟩ := mem_result hs
  have hfinite : ∀ i ∈ t.indices, ((h.meshWith ts).point (i - 3)).site?.isSome := by
    intro i hi
    have hlt := hr t ht i hi
    rw [Mesh.vertexCount, hp, ← Mesh.vertexCount, seeded_count, vertexCount] at hlt
    have h3 := h3 i hi
    rw [Mesh.point, meshWith_vertex rfl ts h3, seeded_vertex h3,
      List.getElem?_eq_getElem (show i.toNat - 3 < h.vertices.length by omega)]
    exact hfin _ (List.getElem_mem _)
  have h₁ := hfinite t.v1 (by simp [indices])
  have h₂ := hfinite t.v2 (by simp [indices])
  have h₃ := hfinite t.v3 (by simp [indices])
  have hbent := hg.bent t ht
  rw [← meshWith_cornersAt hp ts h3] at hbent
  have hknown : ((h.meshWith ts).cornersAt (t.map (· - 3))).turn ≠ .unknown := Turn.of_ne_unknown h₁ h₂ h₃
  unfold wind
  split
  next hright => exact Turn.of_swap h₁ h₂ h₃ hright
  next hright =>
    cases hturn : ((h.meshWith ts).cornersAt (t.map (· - 3))).turn with
    | left => rfl
    | straight => exact absurd hturn hbent
    | right => exact absurd hturn hright
    | unknown => exact absurd hturn hknown

/-- **What triangulation returns for any hull.** -/
theorem triangulate_cases (h : Hull) (sink : DumpSink) (prim : String) :
    (h.vertexCount < 3 ∧
      (h.triangulate sink prim).result = .error (.error (.tooFewVertices h.vertexCount))) ∨
    (3 ≤ h.vertexCount ∧ (h.triangulate sink prim).result = .error (.error .noTriangles)) ∨
    (3 ≤ h.vertexCount ∧ ∃ t : Triangulation, (h.triangulate sink prim).result = .ok t ∧ t.Represents h ∧
      ((∀ p ∈ h.vertices, p.site?.isSome) →
        ∀ s ∈ t.mesh.triangles, (t.mesh.corners? s).map Corners.turn = some .left)) := by
  rcases Nat.lt_or_ge h.vertexCount 3 with h3 | h3
  · refine .inl ⟨h3, ?_⟩
    rw [triangulate, if_pos h3]
    rfl
  obtain ⟨m, n, hm, hp, hg, hr⟩ := inserted?_grown h
  rw [triangulate_of_inserted h3 hm hp hr sink prim]
  split
  · exact .inr (.inl ⟨h3, rfl⟩)
  next hne =>
    refine .inr (.inr ⟨h3, _, rfl, result_represents hg hr hp (by simpa using hne), fun hfin s hs => ?_⟩)
    rw [Mesh.corners?_eq (result_inRange hr hp s hs), Option.map_some, turn_result hfin hg hr hp hs]

/-- **Triangulation of finite vertices**, wherever they lie.  Fewer than three are too few; otherwise there
are no triangles or a result that represents the hull, all triangles of it strictly counter-clockwise.
Vertices on one line never give a result. -/
theorem triangulate_represents (h : Hull) (hfin : ∀ p ∈ h.vertices, p.site?.isSome) (sink : DumpSink)
    (prim : String) :
    (h.vertexCount < 3 →
      (h.triangulate sink prim).result = .error (.error (.tooFewVertices h.vertexCount))) ∧
    (3 ≤ h.vertexCount → (h.triangulate sink prim).result = .error (.error .noTriangles) ∨
      ∃ t, (h.triangulate sink prim).result = .ok t) ∧
    (∀ t, (h.triangulate sink prim).result = .ok t → t.Represents h ∧
      ∀ s ∈ t.mesh.triangles, (t.mesh.corners? s).map Corners.turn = some .left) ∧
    ((∀ a ∈ h.vertices, ∀ b ∈ h.vertices, ∀ c ∈ h.vertices, Turn.of a b c = .straight) →
      ∀ t, (h.triangulate sink prim).result ≠ .ok t) := by
  have hok : ∀ t, (h.triangulate sink prim).result = .ok t → t.Represents h ∧
      ∀ s ∈ t.mesh.triangles, (t.mesh.corners? s).map Corners.turn = some .left := by
    intro t ht
    rcases h.triangulate_cases sink prim with ⟨-, hr⟩ | ⟨-, hr⟩ | ⟨-, u, hr, hu, hleft⟩
    · cases hr.symm.trans ht
    · cases hr.symm.trans ht
    · cases hr.symm.trans ht
      exact ⟨hu, hleft hfin⟩
  refine ⟨fun h3 => ?_, fun h3 => ?_, hok, fun hline t ht => ?_⟩
  · rcases h.triangulate_cases sink prim with ⟨-, hr⟩ | ⟨h3', -⟩ | ⟨h3', -⟩
    · exact hr
    · omega
    · omega
  · rcases h.triangulate_cases sink prim with ⟨h3', -⟩ | ⟨-, hr⟩ | ⟨-, u, hr, -⟩
    · omega
    · exact .inl hr
    · exact .inr ⟨u, hr⟩
  · -- a triangle of the result has three vertices of the hull that do not lie on the line
    obtain ⟨hrep, hleft⟩ := hok t ht
    obtain ⟨s, hs⟩ := List.exists_mem_of_ne_nil _ hrep.nonempty
    have hmem : ∀ i ∈ s.indices, t.mesh.point i ∈ h.vertices := by
      intro i hi
      have hv := Mesh.vertex?_eq (hrep.inRange s hs i hi)
      rw [Mesh.vertex?, hrep.positions] at hv
      exact List.mem_toArray.mp (Array.mem_of_getElem? hv)
    have hturn := hleft s hs
    rw [Mesh.corners?_eq (hrep.inRange s hs), Option.map_some, Option.some.injEq] at hturn
    exact absurd ((hline _ (hmem s.v1 (by simp [indices])) _ (hmem s.v2 (by simp [indices])) _
      (hmem s.v3 (by simp [indices]))).symm.trans hturn) (by decide)

/-- A hull with a corner outside the seed triangle. -/
def kite : Hull := .ofPlanar [(0, 0), (12, 0), (1, 1), (0, 1)]

theorem triangulate_represents_kite : (∃ p ∈ kite.vertices, 10 < p.x) ∧
    ∃ t, (kite.triangulate .disabled "").result = .ok t ∧ t.Represents kite ∧
      ∀ s ∈ t.mesh.triangles, (t.mesh.corners? s).map Corners.turn = some .left := by
  have hok : (kite.triangulate .disabled "").result.isOk := by decide +kernel
  cases ht : (kite.triangulate .disabled "").result with
  | error e =>
    rw [ht] at hok
    cases hok
  | ok t =>
    exact ⟨by decide +kernel, t, rfl,
      (triangulate_represents kite (by decide +kernel) .disabled "").2.2.1 t ht⟩

end Hull

end Prims
