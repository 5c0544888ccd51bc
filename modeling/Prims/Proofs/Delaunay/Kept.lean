import Prims.Proofs.Delaunay.Edge
import Prims.Proofs.Delaunay.Triangulation

/-!
# Delaunay — Kept

The result of triangulation within the tiling it is cut from.  Insertion of the hull's vertices is in
the order of their indices (`inserted_inOrder`), so the Delaunay mesh has the edges that
`InOrder.edge_iff` says.  Of its triangles those at no seed whose centroid is in the hull are kept
(`Hull.keeps`), and as many triangles of the result have an edge as kept ones have it behind the seeds
(`Hull.countP_result`).
-/

noncomputable section

namespace Prims

open Plane Triangle Triangulation

/-! ### Insertion in order -/

/-- The order of the triangles does not matter. -/
theorem InOrder.perm {pos : UInt32 → Plane} {hull : Triangle} {n : Nat} {is : List UInt32}
    {ts us : List Triangle} (h : InOrder pos hull n is ts) (hp : ts.Perm us) :
    InOrder pos hull n is us where
  toDelaunay := h.toDelaunay.perm hp
  sorted := h.sorted
  below := h.below
  beyond t ht := h.beyond t (hp.mem_iff.mpr ht)

namespace Triangulation

/-- The seed mesh has its seeds in order. -/
theorem seed_inOrder {h : Hull} (he : ∀ p ∈ h.vertices, p.Enclosed) :
    InOrder (seedMesh.addHull h).spot seedHull 3 [2, 1, 0]
      ((seedMesh.addHull h).triangles.map (upright (seedMesh.addHull h).spot)) where
  toDelaunay := (seed_isDelaunay he).delaunay
  sorted := by decide
  below i := mem_insertionOrder_seeds (k := 0) (by norm_num)
  beyond t ht u v w hr hu hv i hi _ := by
    rw [seeded_upright] at ht
    obtain rfl := List.mem_singleton.mp ht
    have hw2 : w.toNat ≤ 2 := by
      rcases mem_indices.mp ((hr.indices w).mp (by simp [indices])) with rfl | rfl | rfl <;> decide
    -- three vertices below the second are not all different
    have hsame : u = v ∨ v = i ∨ i = u := by
      rw [← UInt32.toNat_inj, ← UInt32.toNat_inj, ← UInt32.toNat_inj]
      omega
    refine le_of_eq ?_
    unfold area
    rcases hsame with rfl | rfl | rfl <;> ring

/-- **Insertions in order** keep a tiling in order. -/
theorem insertFrom?_inOrder : ∀ (k : Nat) {n : Nat} {is : List UInt32} {m : Mesh}, m.IsDelaunay is →
    InOrder m.spot seedHull n is (m.triangles.map (upright m.spot)) → n + k ≤ 2 ^ 32 →
    (∀ i : UInt32, n ≤ i.toNat → i.toNat < n + k →
      i.toNat < m.vertexCount ∧ m.spot i ∈ interior (seedHull.region m.spot)) →
    ∃ m' is', insertFrom? m n k = some m' ∧ m'.positions = m.positions ∧
      InOrder m'.spot seedHull (n + k) is' (m'.triangles.map (upright m'.spot))
  | 0, _, is, m, _, h, _, _ => ⟨m, is, rfl, rfl, h⟩
  | k + 1, n, is, m, hm, h, hk, hin => by
    have hn : n.toUInt32.toNat = n := Nat.mod_eq_of_lt (show n < 2 ^ 32 by omega)
    obtain ⟨hlt, hint⟩ := hin n.toUInt32 hn.ge (by omega)
    obtain ⟨m₁, hm₁, hp₁, hD₁⟩ := hm.insertVertex? hlt hint
    obtain ⟨m₂, hm₂, -, hperm⟩ := hm.insertVertex?_perm hlt hint
    obtain rfl : m₂ = m₁ := Option.some.inj (hm₂.symm.trans hm₁)
    have hspot := Mesh.spot_congr hp₁
    have h₁ : InOrder m₂.spot seedHull (n + 1) (n.toUInt32 :: is)
        (m₂.triangles.map (upright m₂.spot)) := by
      rw [hspot]
      exact (h.insert hn hint).perm hperm.symm
    obtain ⟨m', is', hm', hp', h'⟩ := insertFrom?_inOrder k hD₁ h₁ (by omega) fun i hi hik => by
      rw [hspot, Mesh.vertexCount, hp₁]
      exact hin i (by omega) (by omega)
    refine ⟨m', is', ?_, hp'.trans hp₁, ?_⟩
    · rw [insertFrom?, hm₁]
      exact hm'
    · rwa [Nat.add_right_comm, Nat.add_assoc] at h'

theorem nextIndex_eq {h : Hull} (hn : h.vertexCount + 3 < 2 ^ 32) :
    (seedMesh.addHull h).nextIndex.toNat = 3 + h.vertexCount := by
  rw [← seeded_count]
  exact Nat.mod_eq_of_lt (by rw [seeded_count]; omega)

/-- **The hull's vertices are inserted in order.** -/
theorem inserted_inOrder {h : Hull} (he : ∀ p ∈ h.vertices, p.Enclosed)
    (hn : h.vertexCount + 3 < 2 ^ 32) {m : Mesh} (hm : inserted? h = some m) :
    ∃ is, InOrder m.spot seedHull (3 + h.vertexCount) is (m.triangles.map (upright m.spot)) := by
  obtain ⟨m', is, hm', -, h'⟩ := insertFrom?_inOrder h.vertexCount (seed_isDelaunay he)
    (seed_inOrder he) (by omega) fun i h3 hi => by
      rw [seeded_count]
      exact ⟨hi, seeded_interior he h3 hi⟩
  have hrun : inserted? h = insertFrom? (seedMesh.addHull h) 3 h.vertexCount := by
    show insertFrom? _ 3 ((seedMesh.addHull h).nextIndex.toNat - 3) = _
    rw [nextIndex_eq hn, Nat.add_sub_cancel_left]
  obtain rfl : m' = m := Option.some.inj (hm'.symm.trans (hrun.symm.trans hm))
  exact ⟨is, h'⟩

end Triangulation

/-! ### Edges of triangles -/

namespace Triangle

/-- A triangle off a line has three edges. -/
theorem edges_nodup {pos : UInt32 → Plane} {t : Triangle} (h : t.areaAt pos ≠ 0) : t.edges.Nodup := by
  obtain ⟨h₁, h₂, h₃⟩ := corners_ne h
  show ([(t.v1, t.v2), (t.v2, t.v3), (t.v3, t.v1)].map Edge.ofArc).Nodup
  refine List.Nodup.map_on (fun a ha b hb e => ?_) (by simp; grind)
  rcases Edge.ofArc_eq_iff.mp e with rfl | rfl
  · rfl
  · simp only [List.mem_cons, List.not_mem_nil, or_false, Prod.swap] at ha hb
    grind

end Triangle

/-- Of triangles that name no edge twice, as many have an edge as the edge is listed. -/
theorem countP_edges_eq {e : Edge} : ∀ {ts : List Triangle}, (∀ t ∈ ts, t.edges.Nodup) →
    ts.countP (fun t => e ∈ t.edges) = (edgesOf ts).count e
  | [], _ => rfl
  | t :: ts, h => by
    have ih := countP_edges_eq (e := e) fun s hs => h s (List.mem_cons_of_mem _ hs)
    rw [List.countP_cons, ih, edgesOf, edgesOf, List.flatMap_cons, List.count_append, add_comm]
    congr 1
    split
    · next he => exact (List.count_eq_one_of_mem (h t List.mem_cons_self) (of_decide_eq_true he)).symm
    · next he => exact (List.count_eq_zero_of_not_mem fun hm => he (decide_eq_true hm)).symm

/-- A choice among elements is one among their images, when these are different. -/
theorem exists_filter_map {α β : Type} [DecidableEq β] {f : α → β} {l : List α} (hn : (l.map f).Nodup)
    (p : α → Bool) :
    ∃ q : β → Bool, (l.map f).filter q = (l.filter p).map f ∧ ∀ a ∈ l, q (f a) = p a := by
  have hq : ∀ a ∈ l, decide (f a ∈ (l.filter p).map f) = p a := by
    intro a ha
    rw [Bool.eq_iff_iff, decide_eq_true_iff, List.mem_map]
    constructor
    · rintro ⟨b, hb, e⟩
      obtain ⟨hb, hpb⟩ := List.mem_filter.mp hb
      rwa [List.inj_on_of_nodup_map hn hb ha e] at hpb
    · exact fun hpa => ⟨a, List.mem_filter.mpr ⟨ha, hpa⟩, rfl⟩
  refine ⟨fun b => decide (b ∈ (l.filter p).map f), ?_, hq⟩
  rw [List.filter_map]
  exact congrArg _ (List.filter_congr hq)

/-! ### The kept triangles -/

theorem toNat_add_three {i : UInt32} (h : i.toNat + 3 < 2 ^ 32) : (i + 3).toNat = i.toNat + 3 := by
  rw [UInt32.toNat_add]
  exact Nat.mod_eq_of_lt h

theorem sub_add_three (i : UInt32) : i - 3 + 3 = i := by grind

namespace Edge

/-- The edge of the hull among the vertices behind the seeds. -/
def behindSeeds (e : Edge) : Edge := ⟨e.low + 3, e.high + 3⟩

theorem behindSeeds_injective : Function.Injective behindSeeds := by
  rintro ⟨a, b⟩ ⟨c, d⟩ e
  simp only [behindSeeds, Edge.mk.injEq] at e
  simp only [Edge.mk.injEq]
  grind

theorem behindSeeds_between {a b : UInt32} (ha : a.toNat + 3 < 2 ^ 32) (hb : b.toNat + 3 < 2 ^ 32) :
    (between a b).behindSeeds = between (a + 3) (b + 3) := by
  have hle : a + 3 ≤ b + 3 ↔ a ≤ b := by
    rw [UInt32.le_iff_toNat_le, UInt32.le_iff_toNat_le, toNat_add_three ha, toNat_add_three hb]
    omega
  unfold between
  simp only [hle]
  split <;> rfl

end Edge

namespace Hull

/-- A triangle of the mesh after all insertions is kept: it is at no seed, and its centroid is in the
hull. -/
def keeps (h : Hull) (m : Mesh) (t : Triangle) : Bool :=
  clear t && h.contains (m.cornersAt t).centroid

variable {h : Hull} {m : Mesh}

theorem inner_eq (hp : m.positions = (seedMesh.addHull h).positions) :
    h.inner m = (m.triangles.filter (h.keeps m)).map (Triangle.map (· - 3)) := by
  rw [inner, unseeded, List.filter_map, List.filter_filter]
  refine congrArg _ (List.filter_congr fun t _ => ?_)
  rw [keeps, Bool.and_comm]
  refine Bool.eq_iff_iff.mpr ?_
  rw [Bool.and_eq_true, Bool.and_eq_true, and_congr_right_iff]
  intro hc
  have h3 := clear_iff.mp hc
  have hpoint : ∀ i ∈ t.indices, (h.meshWith []).point (i - 3) = m.point i := by
    intro i hi
    rw [Mesh.point, meshWith_vertex hp [] (h3 i hi), Mesh.point]
  have hcorners : (h.meshWith []).cornersAt (t.map (· - 3)) = m.cornersAt t := by
    unfold Mesh.cornersAt
    rw [← hpoint t.v1 (by simp [indices]), ← hpoint t.v2 (by simp [indices]),
      ← hpoint t.v3 (by simp [indices])]
    rfl
  rw [Function.comp_apply, hcorners]

/-- The edges of a triangle at no seed are those of the hull. -/
theorem edges_behindSeeds {t : Triangle} (h3 : ∀ i ∈ t.indices, 3 ≤ i.toNat) :
    (t.map (· - 3)).edges.map Edge.behindSeeds = t.edges := by
  have hfits : ∀ i ∈ t.indices, (i - 3).toNat + 3 < 2 ^ 32 := by
    intro i hi
    rw [toNat_sub_three (h3 i hi), Nat.sub_add_cancel (h3 i hi)]
    exact i.toNat_lt
  have h₁ := hfits t.v1 (by simp [indices])
  have h₂ := hfits t.v2 (by simp [indices])
  have h₃ := hfits t.v3 (by simp [indices])
  simp only [edges, Triangle.map, List.map_cons, List.map_nil, Edge.behindSeeds_between h₁ h₂,
    Edge.behindSeeds_between h₂ h₃, Edge.behindSeeds_between h₃ h₁, sub_add_three]

/-- **Edges of the result.**  As many triangles of the result have an edge as kept ones have it behind
the seeds. -/
theorem countP_result {is : List UInt32} (hm : m.IsDelaunay is)
    (hp : m.positions = (seedMesh.addHull h).positions) (e : Edge) :
    ((h.inner m).map h.wind).countP (fun t => e ∈ t.edges) =
      (edgesOf (m.triangles.filter (h.keeps m))).count e.behindSeeds := by
  have hclear : ∀ t ∈ m.triangles.filter (h.keeps m), ∀ i ∈ t.indices, 3 ≤ i.toNat := by
    intro t ht
    exact clear_iff.mp (Bool.and_eq_true_iff.mp (List.mem_filter.mp ht).2).1
  have hwind : ∀ t, (h.wind t).edges.Perm t.edges := by
    intro t
    rcases h.wind_cases t with e | e <;> rw [e]
    exact t.flip_edges
  have hsub : ∀ t ∈ h.inner m, t.edges.Nodup := by
    intro t ht
    rw [inner_eq hp] at ht
    obtain ⟨s, hs, rfl⟩ := List.mem_map.mp ht
    refine List.Nodup.of_map Edge.behindSeeds ?_
    rw [edges_behindSeeds (hclear s hs)]
    exact edges_nodup (hm.areaAt_ne_zero (List.mem_of_mem_filter hs))
  have hraise : ∀ ts : List Triangle, (∀ t ∈ ts, ∀ i ∈ t.indices, 3 ≤ i.toNat) →
      (edgesOf (ts.map (Triangle.map (· - 3)))).map Edge.behindSeeds = edgesOf ts := by
    intro ts hts
    rw [edgesOf, List.flatMap_map, List.map_flatMap]
    exact List.flatMap_congr fun t ht => edges_behindSeeds (hts t ht)
  rw [countP_edges_eq, (edgesOf_map hwind _).count_eq, inner_eq hp, ← hraise _ hclear,
    List.count_map_of_injective _ _ Edge.behindSeeds_injective]
  intro t ht
  obtain ⟨s, hs, rfl⟩ := List.mem_map.mp ht
  exact (hwind s).nodup_iff.mpr (hsub s hs)

/-- The kept triangles, counter-clockwise, as a choice from the tiling. -/
theorem exists_chosen {is : List UInt32} (hm : m.IsDelaunay is)
    (hp : m.positions = (seedMesh.addHull h).positions) : ∃ keep : Triangle → Bool,
      (∀ t ∈ m.triangles, keep (t.upright m.spot) = h.keeps m t) ∧
      ∀ e, ((h.inner m).map h.wind).countP (fun t => e ∈ t.edges) =
        (edgesOf ((m.triangles.map (upright m.spot)).filter keep)).count e.behindSeeds := by
  obtain ⟨keep, hfilter, hkeep⟩ := exists_filter_map hm.delaunay.toTiles.nodup (h.keeps m)
  refine ⟨keep, hkeep, fun e => ?_⟩
  rw [countP_result hm hp, hfilter, (edgesOf_upright m.spot _).count_eq]

end Hull

end Prims

end
