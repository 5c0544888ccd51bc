import Prims.Proofs.Mesh.Basic
import Prims.Sphere

/-!
# Sphere — Builder

A builder keeps its triangles in range whatever is added to it: each vertex that it hands out, an old one
or one just added, is there (`vertex_sound`), and none is ever removed.  So the unit sphere is a mesh in
range (`unitMesh_inRange`).
-/

namespace Prims.Sphere

namespace Builder

/-- Triangles and keys name vertices that are there. -/
structure Sound (b : Builder) : Prop where
  triangles : b.mesh.InRange
  index : ∀ entry ∈ b.index, entry.2.toNat < b.mesh.vertexCount

variable {b : Builder}

theorem empty_sound : empty.Sound := ⟨nofun, nofun⟩

theorem mem_of_lookup {α β : Type} [BEq α] {a : α} {c : β} :
    ∀ {l : List (α × β)}, l.lookup a = some c → ∃ entry ∈ l, entry.2 = c
  | [], h => by cases h
  | (a', c') :: l, h => by
    rw [List.lookup_cons] at h
    split at h
    · exact ⟨_, List.mem_cons_self, Option.some.inj h⟩
    · obtain ⟨entry, hmem, e⟩ := mem_of_lookup h
      exact ⟨entry, List.mem_cons_of_mem _ hmem, e⟩

/-- **The vertex that a builder hands out is there.** -/
theorem vertex_sound (h : b.Sound) {p : Point} {i : UInt32} {b' : Builder} (hb : b.vertex p = (i, b')) :
    b'.Sound ∧ i.toNat < b'.mesh.vertexCount ∧ b.mesh.vertexCount ≤ b'.mesh.vertexCount := by
  unfold vertex at hb
  split at hb
  next j hj =>
    obtain ⟨rfl, rfl⟩ := Prod.mk.inj hb
    obtain ⟨entry, hmem, rfl⟩ := mem_of_lookup hj
    exact ⟨h, h.index entry hmem, Nat.le_refl _⟩
  next =>
    obtain ⟨rfl, rfl⟩ := Prod.mk.inj hb
    have hsize : (b.mesh.addVertex p).vertexCount = b.mesh.vertexCount + 1 := Array.size_push ..
    have hnext : b.mesh.nextIndex.toNat ≤ b.mesh.vertexCount := Nat.mod_le _ _
    dsimp only
    rw [hsize]
    refine ⟨⟨h.triangles.mono (by dsimp only; omega) fun _ ht => ht, fun entry hentry => ?_⟩, by omega,
      by omega⟩
    dsimp only
    rw [hsize]
    rcases List.mem_cons.mp hentry with rfl | hentry
    · exact Nat.lt_succ_of_le hnext
    · exact Nat.lt_succ_of_lt (h.index entry hentry)

theorem triangle_sound (h : b.Sound) (k : Corners) : (b.triangle k).Sound := by
  unfold triangle
  rcases e₁ : b.vertex k.a with ⟨i, b₁⟩
  rcases e₂ : b₁.vertex k.b with ⟨j, b₂⟩
  rcases e₃ : b₂.vertex k.c with ⟨l, b₃⟩
  obtain ⟨h₁, hi, -⟩ := vertex_sound h e₁
  obtain ⟨h₂, hj, hle₂⟩ := vertex_sound h₁ e₂
  obtain ⟨h₃, hl, hle₃⟩ := vertex_sound h₂ e₃
  dsimp only
  rw [e₂]
  dsimp only
  rw [e₃]
  refine ⟨h₃.triangles.addTriangle fun x hx => ?_, h₃.index⟩
  simp only [Triangle.indices, List.mem_cons, List.not_mem_nil, or_false] at hx
  rcases hx with rfl | rfl | rfl <;> omega

theorem add_sound (h : b.Sound) (s : Subdivision) : (b.add s).Sound := by
  unfold add
  induction s.leaves generalizing b with
  | nil => exact h
  | cons k ks ih => exact ih (triangle_sound h k)

theorem foldl_add_sound (h : b.Sound) (ss : List Subdivision) : (ss.foldl add b).Sound := by
  induction ss generalizing b with
  | nil => exact h
  | cons s ss ih => exact ih (add_sound h s)

end Builder

/-- **The unit sphere is a mesh in range.** -/
theorem unitMesh_inRange : unitMesh.InRange :=
  (Builder.foldl_add_sound Builder.empty_sound subdivisions).triangles.flip

end Prims.Sphere
