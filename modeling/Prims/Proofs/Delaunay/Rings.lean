import Prims.Proofs.Delaunay.Kept
import Prims.Proofs.Delaunay.Parity
import Prims.Proofs.Triangulation.Rings

/-!
# Delaunay — Rings

When a triangulation has the rings of its hull as its boundary.  Insertion knows nothing of the rings:
their edges are there only if no vertex bars them, and the triangles at them are kept only as the test
of the centroid says.  `triangulate_meetsRings_iff` says exactly when each edge of a ring ends up in one
triangle and any other edge in two: the rings have three vertices or more, their edges are Delaunay
edges, and the test is right on every triangle.
-/

noncomputable section

namespace Prims

open Plane Triangle Triangulation

/-! ### The rings of a hull -/

namespace Hull

variable {h : Hull}

/-- The edges of all rings, by indices in hull order. -/
def outlineEdges (h : Hull) : List (UInt32 × UInt32) :=
  (⟨h.meshWith [], h.ringLengths⟩ : Triangulation).outlineEdges

/-- The same edges among the vertices behind the seeds. -/
def seededEdges (h : Hull) : List (UInt32 × UInt32) :=
  h.outlineEdges.map fun a => (a.1 + 3, a.2 + 3)

/-- Each vertex is the start of one edge and the end of one. -/
theorem seededEdges_perm : (h.seededEdges.map Prod.fst).Perm (h.seededEdges.map Prod.snd) := by
  have hp := (outlineEdges_perm ⟨h.meshWith [], h.ringLengths⟩).symm.map (· + 3)
  rw [List.map_map, List.map_map] at hp
  rw [seededEdges, List.map_map, List.map_map]
  exact hp

section Fits

variable (hn : h.vertexCount + 3 < 2 ^ 32)
include hn

theorem sum_lt : h.ringLengths.sum < 2 ^ 32 := by
  rw [sum_ringLengths]
  omega

theorem outlineEdges_bound {a : UInt32 × UInt32} (ha : a ∈ h.outlineEdges) :
    a.1.toNat < h.vertexCount ∧ a.2.toNat < h.vertexCount := by
  have := outlineEdges_lt (t := ⟨h.meshWith [], h.ringLengths⟩) (sum_lt hn) ha
  rwa [sum_ringLengths] at this

/-- The ends of an edge behind the seeds. -/
theorem seededEdges_bound {a : UInt32 × UInt32} (ha : a ∈ h.seededEdges) :
    (3 ≤ a.1.toNat ∧ a.1.toNat < 3 + h.vertexCount) ∧ 3 ≤ a.2.toNat ∧ a.2.toNat < 3 + h.vertexCount := by
  obtain ⟨b, hb, rfl⟩ := List.mem_map.mp ha
  obtain ⟨h₁, h₂⟩ := outlineEdges_bound hn hb
  dsimp only
  rw [toNat_add_three (by omega), toNat_add_three (by omega)]
  omega

theorem seededEdges_ofArc :
    h.seededEdges.map Edge.ofArc = (h.outlineEdges.map Edge.ofArc).map Edge.behindSeeds := by
  rw [seededEdges, List.map_map, List.map_map]
  refine List.map_congr_left fun a ha => ?_
  obtain ⟨h₁, h₂⟩ := outlineEdges_bound hn ha
  exact (Edge.behindSeeds_between (by omega) (by omega)).symm

theorem mem_seededEdges {e : Edge} :
    e.behindSeeds ∈ h.seededEdges.map Edge.ofArc ↔ e ∈ h.outlineEdges.map Edge.ofArc := by
  rw [seededEdges_ofArc hn]
  exact List.mem_map_of_injective Edge.behindSeeds_injective

/-- With rings of three or more no edge is there twice. -/
theorem seededEdges_nodup (h3 : ∀ n ∈ h.ringLengths, 3 ≤ n) : (h.seededEdges.map Edge.ofArc).Nodup := by
  rw [seededEdges_ofArc hn]
  refine List.Nodup.map Edge.behindSeeds_injective (List.Nodup.map_on (fun a ha b hb e => ?_)
    (.of_map _ (outlineEdges_fst_nodup (t := ⟨h.meshWith [], h.ringLengths⟩) (sum_lt hn))))
  rcases Edge.ofArc_eq_iff.mp e with e | rfl
  · exact e
  · exact absurd ha (swap_not_mem_outlineEdges (sum_lt hn) h3 hb)

end Fits

end Hull

/-! ### The boundary of the result -/

/-- Each edge of a ring is in one triangle, and any other edge of a triangle is in two. -/
structure Triangulation.MeetsRings (t : Triangulation) : Prop where
  ring  : ∀ e ∈ t.outlineEdges.map Edge.ofArc, t.mesh.triangles.countP (fun s => e ∈ s.edges) = 1
  inner : ∀ e ∈ edgesOf t.mesh.triangles, e ∉ t.outlineEdges.map Edge.ofArc →
    t.mesh.triangles.countP (fun s => e ∈ s.edges) = 2

instance (t : Triangulation) : Decidable t.MeetsRings :=
  decidable_of_iff (_ ∧ _) ⟨fun h => ⟨h.1, h.2⟩, fun h => ⟨h.ring, h.inner⟩⟩

section Chosen

variable {pos : UInt32 → Plane} {hull : Triangle} {ts : List Triangle} {keep : Triangle → Bool}

theorem Tiles.count_chosen_le (h : Tiles pos hull ts) (e : Edge) :
    (edgesOf (ts.filter keep)).count e ≤ 2 :=
  ((List.filter_sublist.flatMap Triangle.edges).count_le e).trans (h.count_edge_le e)

namespace Hull

variable {h : Hull}

/-- A triangulation meets its rings when these are the boundary of the triangles chosen from the
tiling. -/
theorem meetsRings_iff {t : Triangulation} (hn : h.vertexCount + 3 < 2 ^ 32) (hts : Tiles pos hull ts)
    (hrings : t.outlineEdges = h.outlineEdges)
    (hcount : ∀ e, t.mesh.triangles.countP (fun s => e ∈ s.edges) =
      (edgesOf (ts.filter keep)).count e.behindSeeds) :
    t.MeetsRings ↔
      ∀ e, (edgesOf (ts.filter keep)).count e = 1 ↔ e ∈ h.seededEdges.map Edge.ofArc := by
  have hsurj : ∀ e : Edge, ∃ f : Edge, f.behindSeeds = e := fun e =>
    ⟨⟨e.low - 3, e.high - 3⟩, by rw [Edge.behindSeeds, sub_add_three, sub_add_three]⟩
  have hused : ∀ f : Edge, f ∈ edgesOf t.mesh.triangles ↔
      0 < (edgesOf (ts.filter keep)).count f.behindSeeds := by
    intro f
    rw [← hcount, List.countP_pos_iff]
    simp only [edgesOf, List.mem_flatMap, decide_eq_true_eq]
  constructor
  · intro hm e
    obtain ⟨f, rfl⟩ := hsurj e
    rw [mem_seededEdges hn, ← hrings]
    refine ⟨fun h1 => by_contra fun hf => ?_, fun hf => (hcount f).symm.trans (hm.ring f hf)⟩
    have h2 := hm.inner f ((hused f).mpr (by omega)) hf
    rw [hcount] at h2
    omega
  · intro honce
    refine ⟨fun f hf => ?_, fun f hf hout => ?_⟩
    · rw [hcount, honce, mem_seededEdges hn, ← hrings]
      exact hf
    · have h1 : (edgesOf (ts.filter keep)).count f.behindSeeds ≠ 1 := by
        rwa [Ne, honce, mem_seededEdges hn, ← hrings]
      have h0 := (hused f).mp hf
      have h2 : (edgesOf (ts.filter keep)).count f.behindSeeds ≤ 2 := hts.count_chosen_le _
      rw [hcount]
      omega

/-- Rings that are the boundary of chosen triangles have no edge that runs both ways. -/
theorem swap_not_mem_of_once (hn : h.vertexCount + 3 < 2 ^ 32) (hts : Tiles pos hull ts)
    (honce : ∀ e, (edgesOf (ts.filter keep)).count e = 1 ↔ e ∈ h.seededEdges.map Edge.ofArc)
    {a : UInt32 × UInt32} (ha : a ∈ h.outlineEdges) : a.swap ∉ h.outlineEdges := by
  intro hs
  have hrim : ∀ b : UInt32 × UInt32, b ∈ rim (ts.filter keep) ∨ b.swap ∈ rim (ts.filter keep) ↔
      Edge.ofArc b ∈ h.seededEdges.map Edge.ofArc := by
    intro b
    rw [← honce, ← mem_meshRim, hts.meshRim_chosen.mem_iff, List.mem_map]
    constructor
    · rintro (hb | hb)
      · exact ⟨b, hb, rfl⟩
      · exact ⟨b.swap, hb, Edge.ofArc_swap b⟩
    · rintro ⟨c, hc, e⟩
      rcases Edge.ofArc_eq_iff.mp e with rfl | rfl
      · exact .inl hc
      · exact .inr hc
  have hmem : ((a.1 + 3, a.2 + 3) : UInt32 × UInt32) ∈ h.seededEdges := List.mem_map_of_mem ha
  obtain ⟨w, hw, hcont⟩ := hts.rim_continues ((hrim _).mpr (List.mem_map_of_mem hmem))
  obtain ⟨b, hb, e⟩ := List.mem_map.mp ((hrim (a.1 + 3, w)).mp hcont)
  obtain ⟨c, hc, rfl⟩ := List.mem_map.mp hb
  -- the edges of the rings at this vertex are the given one and its reverse
  rcases Edge.ofArc_eq_iff.mp e with e | e <;> simp only [Prod.swap, Prod.mk.injEq] at e
  · have h1 : c.1 = a.1 := by grind
    have h2 := outlineEdges_next (t := ⟨h.meshWith [], h.ringLengths⟩) (sum_lt hn)
      (a := a.1) (b := c.2) (c := a.2) (h1 ▸ hc) ha
    exact hw (e.2.symm.trans (by rw [h2]))
  · have h1 : c.2 = a.1 := by grind
    have h2 := outlineEdges_prev (t := ⟨h.meshWith [], h.ringLengths⟩) (sum_lt hn)
      (a := a.1) (b := c.1) (c := a.2) (h1 ▸ hc) hs
    exact hw (e.1.symm.trans (by rw [h2]))

theorem three_le_of_once (hn : h.vertexCount + 3 < 2 ^ 32) (hts : Tiles pos hull ts)
    (honce : ∀ e, (edgesOf (ts.filter keep)).count e = 1 ↔ e ∈ h.seededEdges.map Edge.ofArc) :
    ∀ n ∈ h.ringLengths, 3 ≤ n :=
  three_le_of_swap_not_mem (t := ⟨h.meshWith [], h.ringLengths⟩) (sum_lt hn)
    (fun _ hl => ringLengths_pos hl) fun _ ha => swap_not_mem_of_once hn hts honce ha

end Hull

end Chosen

/-! ### When the rings are met -/

/-- Insertion fills the rings of the hull with triangles. -/
structure Hull.Fillable (h : Hull) : Prop where
  rings : ∀ n ∈ h.ringLengths, 3 ≤ n
  /-- No vertices or seeds bar an edge of a ring, -/
  edges : ∀ a ∈ h.seededEdges, DelaunayEdge (seedMesh.addHull h).spot (3 + h.vertexCount) a.1 a.2
  /-- and the test of the centroid, which rounds, finds the triangles whose centre is inside. -/
  kept  : ∀ m, inserted? h = some m → ∀ t ∈ m.triangles, h.keeps m t = true ↔
    Inside (seedMesh.addHull h).spot h.seededEdges (t.centre (seedMesh.addHull h).spot)

theorem Triangle.centre_upright (pos : UInt32 → Plane) (t : Triangle) :
    (t.upright pos).centre pos = t.centre pos := by
  rcases le_or_gt 0 (t.areaAt pos) with h | h
  · rw [upright_of_nonneg h]
  · rw [upright_of_neg h]
    unfold centre
    rw [add_comm (pos t.v2).1, add_comm (pos t.v2).2]

/-- The sides of the seed triangle are between seeds. -/
theorem seedHull_arcs {a : UInt32 × UInt32} (ha : a ∈ seedHull.arcs) : a.1.toNat < 3 ∧ a.2.toNat < 3 := by
  rcases mem_arcs.mp ha with rfl | rfl | rfl <;> exact ⟨by decide, by decide⟩

namespace Hull

variable {h : Hull}

section Inserted

variable {m : Mesh} {is : List UInt32} {keep : Triangle → Bool} (hn : h.vertexCount + 3 < 2 ^ 32)
  (hm : inserted? h = some m) (hp : m.positions = (seedMesh.addHull h).positions)
  (hord : InOrder m.spot seedHull (3 + h.vertexCount) is (m.triangles.map (upright m.spot)))
  (hkeep : ∀ t ∈ m.triangles, keep (t.upright m.spot) = h.keeps m t)
include hn hp hord

/-- Which edges of the rings the tiling has. -/
theorem seededEdge_iff {a : UInt32 × UInt32} (ha : a ∈ h.seededEdges) :
    a ∈ arcsOf (m.triangles.map (upright m.spot)) ∨ a.swap ∈ arcsOf (m.triangles.map (upright m.spot)) ↔
      DelaunayEdge (seedMesh.addHull h).spot (3 + h.vertexCount) a.1 a.2 := by
  obtain ⟨h₁, h₂⟩ := seededEdges_bound hn ha
  rw [← Mesh.spot_congr hp]
  exact hord.edge_iff h₁.2 h₂.2

include hm hkeep

/-- Rings that are the boundary of the kept triangles can be filled. -/
theorem fillable_of_once
    (honce : ∀ e, (edgesOf ((m.triangles.map (upright m.spot)).filter keep)).count e = 1 ↔
      e ∈ h.seededEdges.map Edge.ofArc) : h.Fillable := by
  have h3 := three_le_of_once hn hord.toTiles honce
  refine ⟨h3, fun a ha => (seededEdge_iff hn hp hord ha).mp ?_, fun m' hm' t ht => ?_⟩
  · obtain ⟨b, hb, e, -⟩ := mem_arcsOf_of_mem_edgesOf
      (List.count_pos_iff.mp (((honce _).mpr (List.mem_map_of_mem ha)).symm ▸ Nat.one_pos))
    rcases Edge.ofArc_eq_iff.mp e with rfl | rfl
    · exact .inl hb
    · exact .inr hb
  · obtain rfl : m = m' := Option.some.inj (hm.symm.trans hm')
    have hmem := Mesh.IsDelaunay.upright_mem ht
    rw [← hkeep t ht, ← Mesh.spot_congr hp, ← centre_upright]
    exact hord.inside_of_once (seededEdges_nodup hn h3) honce hmem (centre_mem (hord.left _ hmem))

/-- Rings that can be filled are the boundary of the kept triangles. -/
theorem once_of_fillable (hf : h.Fillable) (e : Edge) :
    (edgesOf ((m.triangles.map (upright m.spot)).filter keep)).count e = 1 ↔
      e ∈ h.seededEdges.map Edge.ofArc := by
  refine hord.once_of_inside (fun t ht hk a ha hh => ?_) seededEdges_perm
    (seededEdges_nodup hn hf.rings) (fun a ha => ?_)
    (fun a ha => (seededEdge_iff hn hp hord ha).mpr (hf.edges a ha)) (fun t ht => ?_) e
  · -- the seeds are no corners of kept triangles
    obtain ⟨s, hs, rfl⟩ := List.mem_map.mp ht
    rw [hkeep s hs] at hk
    have h3 := clear_iff.mp (Bool.and_eq_true_iff.mp hk).1 a.1 (mem_upright_indices.mp (ends_mem ha).1)
    have := (seedHull_arcs hh).1
    omega
  · -- and no ends of ring edges
    obtain ⟨h₁, h₂⟩ := seededEdges_bound hn ha
    refine ⟨fun hh => ?_, fun hh => ?_⟩
    · have := (seedHull_arcs hh).1
      omega
    · have := (seedHull_arcs hh).2
      dsimp only [Prod.swap] at this
      omega
  · obtain ⟨s, hs, rfl⟩ := List.mem_map.mp ht
    rw [hkeep s hs, Mesh.spot_congr hp, centre_upright]
    exact hf.kept m hm s hs

end Inserted

/-- A hull with vertices has edges. -/
theorem exists_outlineEdge (hn : h.vertexCount + 3 < 2 ^ 32) (h0 : h.vertexCount ≠ 0) :
    ∃ e, e ∈ h.outlineEdges.map Edge.ofArc := by
  have hfst := outlineEdges_fst (t := ⟨h.meshWith [], h.ringLengths⟩) (sum_lt hn)
  refine List.exists_mem_of_ne_nil _ fun hnil => h0 ?_
  have hlen := congrArg List.length hfst
  rw [List.length_map, List.length_map, List.length_range', sum_ringLengths] at hlen
  rw [← hlen, List.length_eq_zero_iff]
  exact List.map_eq_nil_iff.mp hnil

/-- **When a triangulation meets its rings.**  Triangulation of a hull whose vertices lie strictly inside
the seed triangle succeeds and leaves each edge of a ring in one triangle and any other edge in two,
exactly when the rings can be filled. -/
theorem triangulate_meetsRings_iff (he : ∀ p ∈ h.vertices, p.Enclosed) (h0 : h.vertexCount ≠ 0)
    (hn : h.vertexCount + 3 < 2 ^ 32) (sink : DumpSink) (prim : String) :
    (∃ t, (h.triangulate sink prim).result = .ok t ∧ t.MeetsRings) ↔ h.Fillable := by
  by_cases h3 : h.vertexCount < 3
  · refine iff_of_false ?_ fun hf => ?_
    · rintro ⟨t, ht, -⟩
      rw [triangulate, if_pos h3] at ht
      cases ht
    · rw [← sum_ringLengths] at h0 h3
      obtain ⟨n, hl⟩ := List.exists_mem_of_ne_nil h.ringLengths fun e => h0 (by rw [e, List.sum_nil])
      have := List.single_le_sum (fun _ _ => Nat.zero_le _) n hl
      have := hf.rings n hl
      omega
  · obtain ⟨m, hm, hp, hD, hresult⟩ := triangulate_result (not_lt.mp h3) he sink prim
    obtain ⟨is, hord⟩ := inserted_inOrder he hn hm
    obtain ⟨keep, hkeep, hcount⟩ := exists_chosen hD hp
    have hmeets := meetsRings_iff (t := ⟨h.meshWith ((h.inner m).map h.wind), h.ringLengths⟩) hn
      hord.toTiles rfl hcount
    rw [hresult]
    constructor
    · rintro ⟨t, ht, hring⟩
      split at ht
      · cases ht
      · obtain rfl := Except.ok.inj ht
        exact fillable_of_once hn hm hp hord hkeep (hmeets.mp hring)
    · intro hf
      have honce := once_of_fillable hn hm hp hord hkeep hf
      refine ⟨_, if_neg fun hempty => ?_, hmeets.mpr honce⟩
      obtain ⟨e, he⟩ := exists_outlineEdge hn h0
      have h1 := (hcount e).trans ((honce _).mpr ((mem_seededEdges hn).mpr he))
      rw [List.isEmpty_iff.mp hempty] at h1
      cases h1

end Hull

end Prims

end
