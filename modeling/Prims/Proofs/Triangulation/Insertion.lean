import Prims.Proofs.Mesh.Basic
import Prims.Proofs.Tiling.Rim

/-!
# Triangulation — Insertion

Insertion on any mesh in range, wherever its vertices are.  It succeeds: the triangles with the vertex
in their circle go, and the edges that one of them has are joined to the vertex unless they are in line
with it (`insertVertex?_inRange`).  When the vertices come in the order of their indices, every triangle
has three different corners that are not on a line and no two triangles have the same corners
(`Mesh.Grown`), whether or not any circle is empty.
-/

namespace Prims

open Triangle

/-! ### Edges of the rim -/

theorem Edge.between_le (a b : UInt32) : (Edge.between a b).low ≤ (Edge.between a b).high := by
  unfold Edge.between
  split
  next h => exact h
  next h => exact (UInt32.le_total a b).resolve_left h

theorem Triangle.repeats_eq_false {t : Triangle} :
    t.repeats = false ↔ t.v1 ≠ t.v2 ∧ t.v2 ≠ t.v3 ∧ t.v3 ≠ t.v1 := by
  simp [repeats, and_assoc]

/-- Some vertex is a corner of one of the triangles only. -/
def Triangle.Apart (s t : Triangle) : Prop := ∃ i, ¬(i ∈ s.indices ↔ i ∈ t.indices)

/-- The ends of a triangle's edge are two of its vertices, the smaller one first. -/
theorem Triangle.edge_ends {t : Triangle} {e : Edge} (he : e ∈ t.edges) :
    e.low ∈ t.indices ∧ e.high ∈ t.indices ∧ e.low ≤ e.high ∧ (t.repeats = false → e.low ≠ e.high) := by
  have hends : ∀ a b, a ∈ t.indices → b ∈ t.indices → e = .between a b → (t.repeats = false → a ≠ b) →
      e.low ∈ t.indices ∧ e.high ∈ t.indices ∧ e.low ≤ e.high ∧ (t.repeats = false → e.low ≠ e.high) := by
    rintro a b ha hb rfl hne
    have hle := Edge.between_le a b
    rcases Edge.ends_of_between a b with ⟨h₁, h₂⟩ | ⟨h₁, h₂⟩ <;> rw [h₁, h₂] at hle ⊢
    · exact ⟨ha, hb, hle, hne⟩
    · exact ⟨hb, ha, hle, fun ht => (hne ht).symm⟩
  simp only [edges, List.mem_cons, List.not_mem_nil, or_false] at he
  rcases he with he | he | he
  · exact hends t.v1 t.v2 (by simp [indices]) (by simp [indices]) he fun h => (repeats_eq_false.mp h).1
  · exact hends t.v2 t.v3 (by simp [indices]) (by simp [indices]) he fun h => (repeats_eq_false.mp h).2.1
  · exact hends t.v3 t.v1 (by simp [indices]) (by simp [indices]) he fun h => (repeats_eq_false.mp h).2.2

theorem mem_edges_of_meshRim {ts : List Triangle} {e : Edge} (he : e ∈ Mesh.rim ts) :
    ∃ t ∈ ts, e ∈ t.edges :=
  List.mem_flatMap.mp (List.count_pos_iff.mp ((mem_meshRim.mp he).symm ▸ Nat.one_pos))

namespace Mesh

/-! ### One insertion -/

/-- The triangles with the vertex in their circle. -/
def hit (m : Mesh) (i : UInt32) : List Triangle :=
  m.triangles.filter fun t => (m.cornersAt t).circumcircleContains (m.point i)

/-- The other triangles. -/
def missed (m : Mesh) (i : UInt32) : List Triangle :=
  m.triangles.filter fun t => !(m.cornersAt t).circumcircleContains (m.point i)

/-- The triangles over the rim of those hit, without the edges in line with the vertex. -/
def spokes (m : Mesh) (i : UInt32) : List Triangle :=
  ((rim (m.hit i)).filter fun e =>
    Turn.of (m.point e.low) (m.point e.high) (m.point i) ≠ .straight).map fun e => ⟨e.low, e.high, i⟩

variable {m : Mesh} {i : UInt32}

/-- Insertion on a mesh whose triangles have all their vertices. -/
theorem insertVertex?_eq (hm : m.InRange) (hi : i.toNat < m.vertexCount) :
    m.insertVertex? i =
      if (m.hit i).isEmpty then some m
      else ((rim (m.hit i)).mapM (m.fan? i (m.point i))).map fun fan =>
        { m with triangles := m.missed i ++ fan.filterMap id, normals := [] } := by
  unfold insertVertex? hit missed
  rw [vertex?_eq hi, allCorners?_eq hm]
  simp only [Option.bind_eq_bind, Option.bind_some, Option.pure_def,
    filter_zip_map m.cornersAt fun k => k.circumcircleContains (m.point i),
    filter_zip_map m.cornersAt fun k => !k.circumcircleContains (m.point i)]
  split
  · rfl
  · cases (rim _).mapM (m.fan? i (m.point i)) <;> rfl

/-- The vertices of an edge of the rim are vertices of the mesh. -/
theorem InRange.rim_hit (hm : m.InRange) {e : Edge} (he : e ∈ rim (m.hit i)) :
    e.low.toNat < m.vertexCount ∧ e.high.toNat < m.vertexCount := by
  obtain ⟨t, ht, he⟩ := mem_edges_of_meshRim he
  have ht := hm t (List.mem_of_mem_filter ht)
  exact ⟨ht _ (edge_ends he).1, ht _ (edge_ends he).2.1⟩

theorem fan?_eq {e : Edge} (hl : e.low.toNat < m.vertexCount) (hh : e.high.toNat < m.vertexCount)
    (p : Point) : m.fan? i p e = some (if Turn.of (m.point e.low) (m.point e.high) p = .straight then none
      else some ⟨e.low, e.high, i⟩) := by
  rw [fan?, vertex?_eq hl, vertex?_eq hh]
  rfl

/-- What a map that may fail leaves of a list. -/
theorem filterMap_ite {α β : Type} (p : α → Prop) [DecidablePred p] (f : α → β) (l : List α) :
    (l.map fun a => if p a then none else some (f a)).filterMap id =
      (l.filter fun a => ¬p a).map f := by
  induction l with
  | nil => rfl
  | cons a l ih =>
    by_cases h : p a <;> simpa [h] using ih

/-- **Insertion succeeds on a mesh in range.** -/
theorem insertVertex?_inRange (hm : m.InRange) (hi : i.toNat < m.vertexCount) :
    m.insertVertex? i = some (if (m.hit i).isEmpty then m
      else { m with triangles := m.missed i ++ m.spokes i, normals := [] }) := by
  rw [insertVertex?_eq hm hi, mapM_some fun e he => fan?_eq (hm.rim_hit he).1 (hm.rim_hit he).2 _]
  split
  · rfl
  · rw [Option.map_some, filterMap_ite]
    rfl

/-! ### Insertion in the order of indices -/

/-- Triangles over the first `n` vertices: with three different corners that are not on a line, and no two
with the same corners. -/
structure Grown (m : Mesh) (n : Nat) : Prop where
  below : ∀ t ∈ m.triangles, ∀ i ∈ t.indices, i.toNat < n
  distinct : ∀ t ∈ m.triangles, t.repeats = false
  bent : ∀ t ∈ m.triangles, (m.cornersAt t).turn ≠ .straight
  apart : m.triangles.Pairwise Apart

theorem Grown.inRange {n : Nat} (h : m.Grown n) (hn : n ≤ m.vertexCount) : m.InRange :=
  fun t ht j hj => (h.below t ht j hj).trans_le hn

section Step

variable {n : Nat} (h : m.Grown n) (hi : n ≤ i.toNat)
include h hi

/-- A new triangle is over an edge of an old one. -/
theorem Grown.mem_spokes {t : Triangle} (ht : t ∈ m.spokes i) : t.v3 = i ∧ t.v1 ≤ t.v2 ∧
    t.v1.toNat < i.toNat ∧ t.v2.toNat < i.toNat ∧ t.v1 ≠ t.v2 ∧ (m.cornersAt t).turn ≠ .straight := by
  obtain ⟨e, he, rfl⟩ := List.mem_map.mp ht
  obtain ⟨he, hturn⟩ := List.mem_filter.mp he
  obtain ⟨s, hs, hes⟩ := mem_edges_of_meshRim he
  have hs := List.mem_of_mem_filter hs
  obtain ⟨hl, hh, hle, hne⟩ := edge_ends hes
  exact ⟨rfl, hle, (h.below s hs _ hl).trans_le hi, (h.below s hs _ hh).trans_le hi,
    hne (h.distinct s hs), of_decide_eq_true hturn⟩

/-- No two new triangles have the same corners. -/
theorem Grown.spokes_apart : (m.spokes i).Pairwise Apart := by
  refine List.pairwise_map.mpr (((meshRim_nodup (m.hit i)).filter _).imp_of_mem ?_)
  intro e f he hf hne
  obtain ⟨-, he, h₁, h₂, hne', -⟩ := h.mem_spokes hi (List.mem_map_of_mem he)
  obtain ⟨-, hf, h₃, h₄, -⟩ := h.mem_spokes hi (List.mem_map_of_mem hf)
  dsimp only at he hf h₁ h₂ h₃ h₄ hne'
  by_contra hsame
  simp only [Apart, not_exists, not_not, mem_indices] at hsame
  -- the ends of either edge are those of the other, and the smaller one comes first
  have hl := (hsame e.low).mp (.inl rfl)
  have hh := (hsame e.high).mp (.inr (.inl rfl))
  simp only [← UInt32.toNat_inj, UInt32.le_iff_toNat_le, Ne] at hl hh he hf hne'
  refine hne ?_
  have h₅ : e.low = f.low := UInt32.toNat_inj.mp (by omega)
  have h₆ : e.high = f.high := UInt32.toNat_inj.mp (by omega)
  cases e
  cases f
  simp_all

/-- **Insertion of a vertex behind all others keeps a grown mesh.** -/
theorem Grown.insert (hn : n ≤ m.vertexCount) (hlt : i.toNat < m.vertexCount) :
    ∃ m', m.insertVertex? i = some m' ∧ m'.positions = m.positions ∧ m'.Grown (i.toNat + 1) := by
  have hmono : ∀ t ∈ m.triangles, ∀ j ∈ t.indices, j.toNat < i.toNat + 1 :=
    fun t ht j hj => (h.below t ht j hj).trans_le (by omega)
  refine ⟨_, insertVertex?_inRange (h.inRange hn) hlt, ?_, ?_⟩
  · split <;> rfl
  split
  · exact ⟨hmono, h.distinct, h.bent, h.apart⟩
  have hcases : ∀ t ∈ m.missed i ++ m.spokes i, t ∈ m.triangles ∨ t ∈ m.spokes i := by
    intro t ht
    exact (List.mem_append.mp ht).imp_left List.mem_of_mem_filter
  refine ⟨fun t ht j hj => ?_, fun t ht => ?_, fun t ht => ?_, ?_⟩
  · rcases hcases t ht with ht | ht
    · exact hmono t ht j hj
    · obtain ⟨h₃, -, h₁, h₂, -⟩ := h.mem_spokes hi ht
      rcases mem_indices.mp hj with rfl | rfl | rfl
      · omega
      · omega
      · rw [h₃]
        omega
  · rcases hcases t ht with ht | ht
    · exact h.distinct t ht
    · obtain ⟨h₃, -, h₁, h₂, hne, -⟩ := h.mem_spokes hi ht
      rw [repeats_eq_false, h₃]
      refine ⟨hne, ?_, ?_⟩
      · rintro rfl
        omega
      · rintro rfl
        omega
  · rcases hcases t ht with ht | ht
    · exact h.bent t ht
    · exact (h.mem_spokes hi ht).2.2.2.2.2
  · refine List.pairwise_append.mpr ⟨h.apart.filter _, h.spokes_apart hi, fun s hs t ht => ⟨i, ?_⟩⟩
    -- the new vertex is a corner of all new triangles and of no old one
    have hold : i ∉ s.indices := fun hmem => by
      have := h.below s (List.mem_of_mem_filter hs) i hmem
      omega
    have hnew : i ∈ t.indices := by
      rw [← (h.mem_spokes hi ht).1]
      simp [indices]
    exact fun hiff => hold (hiff.mpr hnew)

end Step

end Mesh

namespace Triangulation

/-- **A run of insertions keeps a grown mesh.** -/
theorem insertFrom?_grown : ∀ (k : Nat) {n : Nat} {m : Mesh}, m.Grown n → n + k ≤ m.vertexCount →
    n + k ≤ 2 ^ 32 → ∃ m', insertFrom? m n k = some m' ∧ m'.positions = m.positions ∧ m'.Grown (n + k)
  | 0, _, m, h, _, _ => ⟨m, rfl, rfl, h⟩
  | k + 1, n, m, h, hcount, hk => by
    have hn : n.toUInt32.toNat = n := Nat.mod_eq_of_lt (show n < 2 ^ 32 by omega)
    obtain ⟨m₁, hm₁, hp₁, h₁⟩ := h.insert hn.ge (by omega) (hn.trans_lt (by omega))
    rw [hn] at h₁
    have hcount₁ : m₁.vertexCount = m.vertexCount := congrArg Array.size hp₁
    obtain ⟨m', hm', hp', h'⟩ := insertFrom?_grown k h₁ (by omega) (by omega)
    refine ⟨m', ?_, hp'.trans hp₁, ?_⟩
    · rw [insertFrom?, hm₁]
      exact hm'
    · rwa [Nat.add_right_comm, Nat.add_assoc] at h'

end Triangulation

end Prims
