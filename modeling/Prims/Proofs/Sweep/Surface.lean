import Prims.Proofs.Sweep.Outline
import Prims.Proofs.Tiling.Rim

/-!
# Sweep — Surface

What the sides of an extruded surface add up to.  The boundary of the walls between two layers is the outline on
the lower one less the outline on the upper one (`sum_segment`), whatever the rings are, since each vertex is the
start and the end of one edge of them.  So the walls of a closed sweep have no boundary, and those of an
open one have that of the caps when the caps meet the outline (`CapsMeetWalls`).  Main statements:

* `sum_closed`: the sides of a closed sweep cancel;
* `sum_open`: so do those of an open one whose caps meet the walls.
-/

noncomputable section

namespace Prims

open Triangle

namespace Triangulation

variable {t : Triangulation} {f : UInt32 → UInt32 → ℝ}

/-! ### Boundaries of walls and caps -/

/-- A function of edges, summed over the outline of a layer. -/
def outlineSum (f : UInt32 → UInt32 → ℝ) (t : Triangulation) (k : UInt32) : ℝ :=
  (t.outlineEdges.map fun e => f (t.layerStart k + e.1) (t.layerStart k + e.2)).sum

/-- What is summed over the ends of the outline's edges is summed over their starts. -/
theorem sum_ends (g : UInt32 → ℝ) (t : Triangulation) :
    (t.outlineEdges.map fun e => g e.2).sum = (t.outlineEdges.map fun e => g e.1).sum := by
  have h := ((outlineEdges_perm t).map g).sum_eq
  rwa [List.map_map, List.map_map] at h

/-- **The boundary of a segment** is the outline below it less the outline above it. -/
theorem sum_segment (hf : Alternating f) (t : Triangulation) (count k : UInt32) :
    ((t.segment count k).map (circulation f)).sum =
      outlineSum f t k - outlineSum f t ((k + 1) % count) := by
  let lower := t.layerStart k
  let upper := t.layerStart ((k + 1) % count)
  have hwalls : ∀ es : List (UInt32 × UInt32),
      ((es.flatMap (wall lower upper)).map (circulation f)).sum =
        (es.map fun e => f (lower + e.1) (lower + e.2)).sum -
          (es.map fun e => f (upper + e.1) (upper + e.2)).sum +
            ((es.map fun e => f (lower + e.2) (upper + e.2)).sum -
              (es.map fun e => f (lower + e.1) (upper + e.1)).sum) := by
    intro es
    induction es with
    | nil => simp
    | cons e es ih =>
      rw [List.flatMap_cons, List.map_append, List.sum_append, ih]
      simp only [wall, List.map_cons, List.map_nil, List.sum_cons, List.sum_nil, circulation,
        hf (lower + e.1) (upper + e.2), hf (upper + e.1) (upper + e.2),
        hf (lower + e.1) (upper + e.1)]
      ring
  rw [segment, hwalls, sum_ends (fun i => f (lower + i) (upper + i)) t, sub_self, add_zero]
  rfl

/-- The caps have the boundary of the profile above less that below. -/
theorem sum_caps (hf : Alternating f) (top : UInt32) (ts : List Triangle) :
    ((ts.flatMap (caps top)).map (circulation f)).sum =
      (ts.map (circulation fun i j => f (top + i) (top + j))).sum - (ts.map (circulation f)).sum := by
  induction ts with
  | nil => simp
  | cons s ts ih =>
    rw [List.flatMap_cons, List.map_append, List.sum_append, ih]
    simp only [caps, List.map_cons, List.map_nil, List.sum_cons, List.sum_nil, circulation,
      Triangle.flip, Triangle.map, hf s.v3 s.v1, hf s.v2 s.v3, hf s.v1 s.v2]
    ring

/-! ### Layers in order -/

theorem toUInt32_succ_mod {k : Nat} {count : UInt32} (hk : k + 1 < count.toNat) :
    (k.toUInt32 + 1) % count = (k + 1).toUInt32 := by
  have hc := count.toNat_lt
  rw [← UInt32.toNat_inj, UInt32.toNat_mod, toNat_succ (by rw [toNat_toUInt32] <;> omega),
    toNat_toUInt32 (by omega), toNat_toUInt32 (by omega), Nat.mod_eq_of_lt hk]

theorem toUInt32_last_mod {k : Nat} {count : UInt32} (hk : k + 1 = count.toNat) :
    (k.toUInt32 + 1) % count = 0 := by
  have hc := count.toNat_lt
  have hk' : k.toUInt32 + 1 = count := by
    rw [← UInt32.toNat_inj, UInt32.toNat_add, toNat_toUInt32 (by omega)]
    have hone : (1 : UInt32).toNat = 1 := rfl
    rw [hone, hk, Nat.mod_eq_of_lt hc]
  rw [hk', UInt32.mod_self]

/-- The boundary of segments from the first on. -/
theorem sum_segments (hf : Alternating f) (t : Triangulation) {count : UInt32} :
    ∀ {m : Nat}, m < count.toNat →
      (((List.range m).flatMap fun k => t.segment count k.toUInt32).map (circulation f)).sum =
        outlineSum f t 0 - outlineSum f t m.toUInt32
  | 0, _ => (sub_self _).symm
  | m + 1, h => by
    rw [List.range_succ, List.flatMap_append, List.map_append, List.sum_append,
      sum_segments hf t (by omega), List.flatMap_cons, List.flatMap_nil, List.append_nil,
      sum_segment hf, toUInt32_succ_mod h]
    ring

theorem surface_closed (t : Triangulation) (count : UInt32) : t.surface count true =
    (List.range count.toNat).flatMap fun k => t.segment count k.toUInt32 := by
  simp [surface]

theorem surface_open (t : Triangulation) (count : UInt32) : t.surface count false =
    ((List.range (count - 1).toNat).flatMap fun k => t.segment count k.toUInt32) ++
      t.mesh.triangles.flatMap (caps (t.layerStart (count - 1))) := by
  simp [surface]

/-- **The walls of a closed sweep have no boundary.** -/
theorem sum_closed (hf : Alternating f) (t : Triangulation) (count : UInt32) :
    ((t.surface count true).map (circulation f)).sum = 0 := by
  rw [surface_closed]
  cases hm : count.toNat with
  | zero => simp
  | succ m =>
    rw [List.range_succ, List.flatMap_append, List.map_append, List.sum_append,
      sum_segments hf t (by omega), List.flatMap_cons, List.flatMap_nil, List.append_nil,
      sum_segment hf, toUInt32_last_mod hm.symm]
    ring

/-- The caps have the boundary of the outline: less its reverse, the profile uses every directed edge as
often as the rings do. -/
def CapsMeetWalls (t : Triangulation) : Prop :=
  ∀ i j, ((arcsOf t.mesh.triangles).count (i, j) : ℤ) - (arcsOf t.mesh.triangles).count (j, i) =
    t.outlineEdges.count (i, j) - t.outlineEdges.count (j, i)

/-- The same by sums over the sides of the caps and over the outline. -/
theorem capsMeetWalls_iff : t.CapsMeetWalls ↔ ∀ f, Alternating f →
    (t.mesh.triangles.map (circulation f)).sum = (t.outlineEdges.map fun e => f e.1 e.2).sum := by
  simp only [sum_circulation]
  rw [sum_eq_iff_count]
  constructor
  · intro h a
    exact_mod_cast h a.1 a.2
  · intro h i j
    exact_mod_cast h (i, j)

theorem CapsMeetWalls.sum_eq (h : t.CapsMeetWalls) (hf : Alternating f) :
    (t.mesh.triangles.map (circulation f)).sum = (t.outlineEdges.map fun e => f e.1 e.2).sum :=
  capsMeetWalls_iff.mp h f hf

/-- **Walls and caps of an open sweep have no boundary together**, when the caps meet the outline. -/
theorem sum_open (hf : Alternating f) (h : t.CapsMeetWalls) {count : UInt32} (hc : 0 < count.toNat) :
    ((t.surface count false).map (circulation f)).sum = 0 := by
  have hpred : (count - 1).toNat = count.toNat - 1 :=
    UInt32.toNat_sub_of_le _ _ (UInt32.le_iff_toNat_le.mpr hc)
  have hzero : outlineSum f t 0 = (t.outlineEdges.map fun e => f e.1 e.2).sum := by
    simp only [outlineSum, layerStart, UInt32.zero_mul, UInt32.zero_add]
  have hlast : outlineSum f t (count - 1) = (t.outlineEdges.map fun e =>
      f (t.layerStart (count - 1) + e.1) (t.layerStart (count - 1) + e.2)).sum := rfl
  rw [surface_open, List.map_append, List.sum_append, sum_segments hf t (by omega), sum_caps hf, h.sum_eq hf,
    h.sum_eq fun i j => hf _ _, ← hlast, ← hzero, show (count - 1).toNat.toUInt32 = count - 1 from
      UInt32.ofNat_toNat]
  ring

end Triangulation

end Prims

end
