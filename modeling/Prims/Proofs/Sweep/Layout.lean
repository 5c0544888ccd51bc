import Prims.Build.Extrude
import Prims.Proofs.Mesh.Basic
import Prims.Proofs.Sweep.Closed
import Prims.Proofs.Sweep.Weld

/-!
# Sweep — Layout

Where the vertices of a swept profile are.  Every layer has as many as the profile, so layer `k` starts
at `k` times their number, and the walls and the caps name vertices of the layers that are kept
(`assemble_inRange`), whether or not the sweep is welded shut.  Where the layers have more vertices than
32 bits can count, the indices wrap around, but there is a vertex at each of them.
-/

namespace Prims

open Triangle

/-! ### Layers of a path -/

/-- Every path has a step. -/
theorem SweepPath.steps_pos (path : SweepPath) : 0 < path.steps := by
  have hcount : ∀ sweep step, 0 < stepCount sweep step := fun _ _ => Nat.le_max_right _ 1
  cases path with
  | linear p =>
    show 0 < p.steps
    unfold LinearPath.steps
    split
    · exact hcount _ _
    · exact Nat.one_pos
  | circular p => exact hcount _ _

theorem SweepPath.length_layers (path : SweepPath) (profile : List Point) :
    (path.layers profile).length = path.steps + 1 := by
  simp [layers]

theorem SweepPath.length_of_mem_layers {path : SweepPath} {profile layer : List Point}
    (h : layer ∈ path.layers profile) : layer.length = profile.length := by
  obtain ⟨k, -, rfl⟩ := List.mem_map.mp h
  exact List.length_map _

namespace Triangulation

variable {t : Triangulation} {layers : List (List Point)}

/-! ### Vertices of the surface -/

/-- The layers that become vertices: not the last one when it is welded to the first. -/
def keptLayers (layers : List (List Point)) : List (List Point) :=
  if weldsShut layers then layers.dropLast else layers

theorem length_of_mem_keptLayers {n : Nat} (hlayers : ∀ l ∈ layers, l.length = n) :
    ∀ l ∈ keptLayers layers, l.length = n := by
  intro l hl
  unfold keptLayers at hl
  split at hl
  · exact hlayers l (List.mem_of_mem_dropLast hl)
  · exact hlayers l hl

theorem vertexCount_assemble {n : Nat} (hlayers : ∀ l ∈ layers, l.length = n) :
    (t.assemble layers).vertexCount = n * (keptLayers layers).length := by
  show (keptLayers layers).flatten.toArray.size = _
  rw [List.size_toArray, List.length_flatten, List.map_congr_left (length_of_mem_keptLayers hlayers),
    List.map_const', List.sum_replicate_nat, Nat.mul_comm]

theorem keptLayers_pos (hlen : 0 < layers.length) : 0 < (keptLayers layers).length := by
  unfold keptLayers
  split
  next hweld =>
    have := three_le_of_weldsShut hweld
    rw [List.length_dropLast]
    omega
  · exact hlen

/-- The sides of a surface lie on its layers. -/
theorem assemble_onSurface (hsum : t.ringLengths.sum = t.mesh.vertexCount)
    (hn : t.mesh.vertexCount < 2 ^ 32) (hin : t.mesh.InRange) (hlen : 0 < layers.length)
    (hkept32 : (keptLayers layers).length < 2 ^ 32) {a : UInt32 × UInt32}
    (ha : a ∈ arcsOf (t.assemble layers).triangles) :
    ∃ p : Side, a = t.sideAt p ∧ t.OnSurface (keptLayers layers).length.toUInt32 p.1 := by
  unfold keptLayers at hkept32 ⊢
  cases h : weldsShut layers with
  | true =>
    rw [assemble_welded t h, surface_closed, arcsOf_walls] at ha
    obtain ⟨p, hp, rfl⟩ := List.mem_map.mp ha
    rw [if_pos rfl, List.length_dropLast]
    exact ⟨p, rfl, (onSurface_wallsSides hsum hn (Nat.le_refl _) hp).1⟩
  | false =>
    rw [h, if_neg Bool.false_ne_true] at hkept32
    rw [assemble_open t h] at ha
    obtain ⟨p, hp, rfl⟩ := List.mem_map.mp ((arcsOf_open t _).mem_iff.mp ha)
    have hcount : layers.length.toUInt32.toNat = layers.length := toNat_toUInt32 hkept32
    have hpred : (layers.length.toUInt32 - 1).toNat = layers.length.toUInt32.toNat - 1 :=
      UInt32.toNat_sub_of_le _ _ (UInt32.le_iff_toNat_le.mpr (by show 1 ≤ _; omega))
    rw [if_neg Bool.false_ne_true]
    refine ⟨p, rfl, ?_⟩
    rcases List.mem_append.mp hp with hp | hp
    · exact (onSurface_wallsSides hsum hn (by omega) hp).1
    · exact (onSurface_capsSides hin (by omega) hp).1

/-- **Swept profiles name vertices of their layers.** -/
theorem assemble_inRange (hsum : t.ringLengths.sum = t.mesh.vertexCount) (hn : 0 < t.mesh.vertexCount)
    (hin : t.mesh.InRange) (hlen : 0 < layers.length)
    (hlayers : ∀ l ∈ layers, l.length = t.mesh.vertexCount) : (t.assemble layers).InRange := by
  intro s hs i hi
  rw [vertexCount_assemble hlayers]
  have hkept := keptLayers_pos hlen
  rcases Nat.lt_or_ge (t.mesh.vertexCount * (keptLayers layers).length) (2 ^ 32) with hfit | hmany
  · have hn32 : t.mesh.vertexCount < 2 ^ 32 := lt_of_le_of_lt (Nat.le_mul_of_pos_right _ hkept) hfit
    have hkept32 : (keptLayers layers).length < 2 ^ 32 :=
      lt_of_le_of_lt (Nat.le_mul_of_pos_left _ hn) hfit
    have hcount : (keptLayers layers).length.toUInt32.toNat = (keptLayers layers).length :=
      toNat_toUInt32 hkept32
    have hfits : t.Fits (keptLayers layers).length.toUInt32 := by rwa [Fits, hcount]
    obtain ⟨a, ha, rfl⟩ := exists_arc_of_corner hs hi
    obtain ⟨p, rfl, hp⟩ := assemble_onSurface hsum hn32 hin hlen hkept32 ha
    rw [← hcount]
    show (t.vertexAt p.1).toNat < _
    rw [toNat_vertexAt hfits hp]
    exact row_major_lt hp.1 hp.2
  · -- there are more vertices than indices
    exact lt_of_lt_of_le i.toNat_lt hmany

/-- A profile with vertices is swept. -/
theorem extrude?_eq (hn : 0 < t.mesh.vertexCount) (path : SweepPath) (size : Point) :
    t.extrude? path size = some ((t.assemble (path.layers t.mesh.positions.toList)).scale size) := by
  have hne : t.mesh.isEmpty = false := by
    rw [Mesh.isEmpty, Array.isEmpty_eq_false_iff, ← Array.size_pos_iff]
    exact hn
  exact if_neg (by simp [hne])

/-- Reporting an empty cut changes no result. -/
theorem extrude_result {path : SweepPath} {size : Point} {m : Mesh} (h : t.extrude? path size = some m) :
    (t.extrude path size).result = .ok m := by
  have hcut : path.reportCut.result = .ok () := by
    cases path with
    | linear p => rfl
    | circular p => exact Build.result_reportIf _ _
  unfold extrude
  rw [h, Build.result_bind, hcut]
  rfl

/-- **A swept profile with vertices is a mesh in range.** -/
theorem extrude?_inRange (hsum : t.ringLengths.sum = t.mesh.vertexCount) (hn : 0 < t.mesh.vertexCount)
    (hin : t.mesh.InRange) (path : SweepPath) (size : Point) :
    ∃ m, t.extrude? path size = some m ∧ m.InRange := by
  refine ⟨_, extrude?_eq hn path size, (assemble_inRange hsum hn hin ?_ fun l hl => ?_).mapVertices _⟩
  · rw [SweepPath.length_layers]
    exact Nat.succ_pos _
  · rw [SweepPath.length_of_mem_layers hl]
    exact Array.length_toList

end Triangulation

end Prims
