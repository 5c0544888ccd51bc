import Mathlib.Algebra.BigOperators.Group.List.Basic
import Prims.Proofs.Sweep.Outline

/-!
# Triangulation — Rings

The rings of a hull and their ranges of indices.  The rings one after the other are the vertices of the
hull (`flatten_rings`), and none is empty.  The ranges of a triangulation count up through the lengths
(`ringRanges_eq`); as long as the indices fit in 32 bits they share out the vertices, each range those of
its ring (`flatMap_ringRanges`, `map_ringAt`).
-/

namespace Prims

/-! ### The rings of a hull -/

namespace Hull

theorem ringsAfter_flatten : ∀ (started : Ring) (ps : List HullPoint),
    (ringsAfter started ps).flatten = started.reverse ++ ps.filterMap HullPoint.vertex?
  | [], [] => rfl
  | p :: started, [] => by simp [ringsAfter]
  | started, .vertex p :: ps => by
    rw [ringsAfter, ringsAfter_flatten (p :: started) ps,
      List.filterMap_cons_some (show HullPoint.vertex? (.vertex p) = some p from rfl)]
    simp
  | [], .ringEnd :: ps => ringsAfter_flatten [] ps
  | p :: started, .ringEnd :: ps => by
    rw [ringsAfter, List.flatten_cons, ringsAfter_flatten [] ps]
    · rfl
    · simp

/-- **The rings are the vertices in hull order.** -/
theorem flatten_rings (h : Hull) : h.rings.flatten = h.vertices := ringsAfter_flatten [] h.points

/-- The rings share out the vertices. -/
theorem sum_ringLengths (h : Hull) : h.ringLengths.sum = h.vertexCount := by
  rw [ringLengths, ← List.length_flatten, flatten_rings, vertexCount]

/-- No ring is empty. -/
theorem ringsAfter_ne_nil : ∀ (started : Ring) (ps : List HullPoint), ∀ r ∈ ringsAfter started ps, r ≠ []
  | [], [], _, hr => by cases hr
  | p :: started, [], r, hr => by
    obtain rfl := List.mem_singleton.mp hr
    simp
  | started, .vertex p :: ps, r, hr => by
    rw [ringsAfter] at hr
    exact ringsAfter_ne_nil (p :: started) ps r hr
  | [], .ringEnd :: ps, r, hr => ringsAfter_ne_nil [] ps r hr
  | p :: started, .ringEnd :: ps, r, hr => by
    rcases List.mem_cons.mp hr with rfl | hr
    · simp
    · exact ringsAfter_ne_nil [] ps r hr

theorem ringLengths_pos {h : Hull} {n : Nat} (hl : n ∈ h.ringLengths) : 0 < n := by
  obtain ⟨r, hr, rfl⟩ := List.mem_map.mp hl
  exact List.length_pos_iff.mpr (ringsAfter_ne_nil [] h.points r hr)

end Hull

/-! ### Ranges of indices -/

namespace Triangulation

/-- Consecutive ranges, the 32-bit ends of the sums of the lengths before them. -/
theorem rangesFrom_eq : ∀ (lengths : List Nat) (start : Nat), rangesFrom start.toUInt32 lengths =
    (List.range lengths.length).map fun k =>
      ((start + (lengths.take k).sum).toUInt32, (start + (lengths.take (k + 1)).sum).toUInt32)
  | [], _ => rfl
  | length :: lengths, start => by
    have hstop : start.toUInt32 + length.toUInt32 = (start + length).toUInt32 :=
      (UInt32.ofNat_add start length).symm
    rw [rangesFrom_cons, hstop, rangesFrom_eq lengths (start + length), List.length_cons,
      List.range_succ_eq_map, List.map_cons, List.map_map]
    simp [Function.comp_def, Nat.add_assoc]

variable {t : Triangulation}

/-- **The ranges are consecutive**, from zero on. -/
theorem ringRanges_eq (t : Triangulation) : t.ringRanges =
    (List.range t.ringLengths.length).map fun k =>
      ((t.ringLengths.take k).sum.toUInt32, (t.ringLengths.take (k + 1)).sum.toUInt32) := by
  simpa [ringRanges] using rangesFrom_eq t.ringLengths 0

/-- The vertices of a range. -/
def ringAt (t : Triangulation) (range : UInt32 × UInt32) : Ring :=
  t.mesh.positions.toList.extract range.1.toNat range.2.toNat

/-- Pieces of a list by the sums of their lengths. -/
theorem extract_flatten {α : Type} : ∀ (ls : List (List α)) (before : List α),
    (List.range ls.length).map (fun k => (before ++ ls.flatten).extract
      (before.length + ((ls.map List.length).take k).sum)
      (before.length + ((ls.map List.length).take (k + 1)).sum)) = ls
  | [], _ => rfl
  | l :: ls, before => by
    have ih := extract_flatten ls (before ++ l)
    rw [List.length_cons, List.range_succ_eq_map, List.map_cons, List.map_map]
    refine congrArg₂ _ ?_ ?_
    · simp
    · simpa [Function.comp_def, Nat.add_assoc] using ih

/-- **The ranges partition the indices**, in order. -/
theorem flatMap_ringRanges (h : t.ringLengths.sum < 2 ^ 32) :
    t.ringRanges.flatMap indexRange = (List.range t.ringLengths.sum).map Nat.toUInt32 := by
  rw [List.range_eq_range']
  exact flatMap_indexRange t.ringLengths 0 (by simpa using h)

/-- **The vertices of a range are those of its ring.** -/
theorem map_ringAt {h : Hull} (hpos : t.mesh.positions = h.vertices.toArray)
    (hlen : t.ringLengths = h.ringLengths) (hn : h.vertexCount < 2 ^ 32) :
    t.ringRanges.map t.ringAt = h.rings := by
  have hpieces := extract_flatten h.rings []
  simp only [List.nil_append, List.length_nil, Nat.zero_add] at hpieces
  rw [ringRanges_eq, List.map_map, hlen, Hull.ringLengths, List.length_map]
  refine (List.map_congr_left fun k _ => ?_).trans hpieces
  have hsum : ∀ j, ((h.rings.map List.length).take j).sum < 2 ^ 32 := by
    intro j
    have htotal : (h.rings.map List.length).sum = h.vertexCount := h.sum_ringLengths
    have hsplit := (h.rings.map List.length).sum_take_add_sum_drop j
    omega
  show List.extract t.mesh.positions.toList _ _ = _
  rw [hpos, toNat_toUInt32 (hsum k), toNat_toUInt32 (hsum (k + 1)), ← Hull.flatten_rings]

end Triangulation

end Prims
