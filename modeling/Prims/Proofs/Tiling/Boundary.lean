import Mathlib.Algebra.BigOperators.Group.Finset.Piecewise
import Mathlib.Algebra.BigOperators.Group.List.Basic
import Mathlib.Data.Real.Basic
import Mathlib.Data.List.Nodup
import Mathlib.Tactic.Ring
import Mathlib.Tactic.Linarith
import Mathlib.Tactic.LinearCombination
import Prims.Mesh.Triangle

/-!
# Tiling — Boundary

The boundary of a list of triangles, as a functional: a function of directed edges that changes sign
when the edge is reversed (`Alternating`) is summed over the sides of the triangles.  Sides that two
triangles use in opposite directions cancel, so the sum sees the boundary only.  `rim` lists the
directed sides whose reverse is not a side, and `fan` joins them to one vertex.  Main statements:

* `sum_rim`: when no directed side is used twice, the rim has the boundary of the triangles;
* `sum_fan`: so has the fan over the rim.
-/

noncomputable section

namespace Prims

/-- A function of directed edges that changes sign with the direction. -/
def Alternating (f : UInt32 → UInt32 → ℝ) : Prop := ∀ i j, f j i = -f i j

/-- How often an edge is `a`, less how often it is `a` reversed. -/
def direction (a : UInt32 × UInt32) (i j : UInt32) : ℝ :=
  (if (i, j) = a then 1 else 0) - if (i, j) = a.swap then 1 else 0

theorem alternating_direction (a : UInt32 × UInt32) : Alternating (direction a) := by
  intro i j
  have hswap : ∀ b : UInt32 × UInt32, (j, i) = b ↔ (i, j) = b.swap := by
    rintro ⟨k, l⟩
    simp only [Prod.mk.injEq, Prod.swap_prod_mk]
    tauto
  unfold direction
  rw [if_congr (hswap a) rfl rfl, if_congr (hswap a.swap) rfl rfl, Prod.swap_swap, neg_sub]

theorem sum_direction (a : UInt32 × UInt32) (l : List (UInt32 × UInt32)) :
    (l.map fun b => direction a b.1 b.2).sum = (l.count a : ℝ) - l.count a.swap := by
  induction l with
  | nil => simp
  | cons b l ih =>
    rw [List.map_cons, List.sum_cons, ih, List.count_cons, List.count_cons]
    simp only [direction, beq_iff_eq]
    push_cast
    ring

/-- A sum over a list, by how often its elements occur. -/
theorem sum_eq_sum_count {S : Finset (UInt32 × UInt32)} {g : UInt32 × UInt32 → ℝ} :
    ∀ {l : List (UInt32 × UInt32)}, (∀ a ∈ l, a ∈ S) →
      (l.map g).sum = ∑ a ∈ S, (l.count a : ℝ) * g a
  | [], _ => by simp
  | b :: l, h => by
    have hb : ∑ a ∈ S, (if b = a then (1 : ℝ) else 0) * g a = g b := by
      simp only [ite_mul, one_mul, zero_mul]
      rw [Finset.sum_ite_eq, if_pos (h b List.mem_cons_self)]
    rw [List.map_cons, List.sum_cons, sum_eq_sum_count fun a ha => h a (List.mem_cons_of_mem _ ha),
      ← hb, ← Finset.sum_add_distrib]
    refine Finset.sum_congr rfl fun a _ => ?_
    rw [List.count_cons]
    simp only [beq_iff_eq]
    push_cast
    ring

/-- **Two lists of edges have one boundary** when they use every edge, less its reverse, equally. -/
theorem sum_eq_iff_count {l r : List (UInt32 × UInt32)} :
    (∀ f, Alternating f → (l.map fun a => f a.1 a.2).sum = (r.map fun a => f a.1 a.2).sum) ↔
      ∀ a, (l.count a : ℝ) - l.count a.swap = r.count a - r.count a.swap := by
  constructor
  · intro h a
    rw [← sum_direction, ← sum_direction, h _ (alternating_direction a)]
  · intro h f hf
    let S : Finset (UInt32 × UInt32) := ((l ++ r) ++ (l ++ r).map Prod.swap).toFinset
    have hS : ∀ a ∈ l ++ r, a ∈ S := fun a ha => List.mem_toFinset.mpr (List.mem_append_left _ ha)
    rw [← sub_eq_zero, sum_eq_sum_count fun a ha => hS a (List.mem_append_left _ ha),
      sum_eq_sum_count fun a ha => hS a (List.mem_append_right _ ha), ← Finset.sum_sub_distrib]
    -- each edge cancels against its reverse
    refine Finset.sum_involution (fun a _ => a.swap) (fun a _ => ?_) (fun a _ h0 he => ?_)
      (fun a ha => ?_) (fun a _ => a.swap_swap)
    · have ha := h a
      show _ - _ + ((l.count a.swap : ℝ) * f a.2 a.1 - r.count a.swap * f a.2 a.1) = 0
      rw [hf a.1 a.2]
      linear_combination f a.1 a.2 * ha
    · have hi : a.2 = a.1 := congrArg Prod.fst he
      have := hf a.1 a.1
      have h00 : f a.1 a.1 = 0 := by linarith
      rw [hi, h00] at h0
      simp at h0
    · simp only [S, List.mem_toFinset, List.mem_append, List.mem_map] at ha ⊢
      rcases ha with ha | ⟨b, hb, rfl⟩
      · exact .inr ⟨a, ha, rfl⟩
      · rw [Prod.swap_swap]
        exact .inl hb

namespace Triangle

/-- The sum over the sides, in winding order. -/
def circulation (f : UInt32 → UInt32 → ℝ) (t : Triangle) : ℝ :=
  f t.v1 t.v2 + f t.v2 t.v3 + f t.v3 t.v1

theorem mem_arcs {a : UInt32 × UInt32} {t : Triangle} :
    a ∈ t.arcs ↔ a = (t.v1, t.v2) ∨ a = (t.v2, t.v3) ∨ a = (t.v3, t.v1) := by
  simp [arcs]

theorem mem_indices {i : UInt32} {t : Triangle} :
    i ∈ t.indices ↔ i = t.v1 ∨ i = t.v2 ∨ i = t.v3 := by
  simp [indices]

theorem ends_mem {a : UInt32 × UInt32} {t : Triangle} (ha : a ∈ t.arcs) :
    a.1 ∈ t.indices ∧ a.2 ∈ t.indices := by
  rcases mem_arcs.mp ha with rfl | rfl | rfl <;> simp [indices]

/-- A difference has no circulation. -/
theorem circulation_sub (g : UInt32 → ℝ) (t : Triangle) :
    t.circulation (fun i j => g j - g i) = 0 := by
  unfold circulation; ring

end Triangle

open Triangle

variable {f : UInt32 → UInt32 → ℝ} {ts : List Triangle}

/-- The directed sides of a list of triangles. -/
def arcsOf (ts : List Triangle) : List (UInt32 × UInt32) := ts.flatMap Triangle.arcs

theorem arcsOf_cons (t : Triangle) (ts : List Triangle) :
    arcsOf (t :: ts) = t.arcs ++ arcsOf ts := List.flatMap_cons

theorem mem_arcsOf {a : UInt32 × UInt32} : a ∈ arcsOf ts ↔ ∃ t ∈ ts, a ∈ t.arcs :=
  List.mem_flatMap

/-- Every corner of a triangle starts a side. -/
theorem exists_arc_of_corner {t : Triangle} (ht : t ∈ ts) {i : UInt32} (hi : i ∈ t.indices) :
    ∃ a ∈ arcsOf ts, a.1 = i := by
  simp only [indices, List.mem_cons, List.not_mem_nil, or_false] at hi
  rcases hi with rfl | rfl | rfl
  · exact ⟨(t.v1, t.v2), mem_arcsOf.mpr ⟨t, ht, by simp [arcs]⟩, rfl⟩
  · exact ⟨(t.v2, t.v3), mem_arcsOf.mpr ⟨t, ht, by simp [arcs]⟩, rfl⟩
  · exact ⟨(t.v3, t.v1), mem_arcsOf.mpr ⟨t, ht, by simp [arcs]⟩, rfl⟩

/-- Summing over triangles is summing over their directed sides. -/
theorem sum_circulation (f : UInt32 → UInt32 → ℝ) (ts : List Triangle) :
    (ts.map (circulation f)).sum = ((arcsOf ts).map fun a => f a.1 a.2).sum := by
  induction ts with
  | nil => rfl
  | cons t ts ih =>
    rw [List.map_cons, List.sum_cons, ih, arcsOf_cons, List.map_append, List.sum_append]
    congr 1
    simp only [arcs, circulation, List.map_cons, List.map_nil, List.sum_cons, List.sum_nil]
    ring

/-- The directed sides of which the reverse is no side. -/
def rim (ts : List Triangle) : List (UInt32 × UInt32) :=
  (arcsOf ts).filter fun a => a.swap ∉ arcsOf ts

theorem mem_rim {a : UInt32 × UInt32} : a ∈ rim ts ↔ a ∈ arcsOf ts ∧ a.swap ∉ arcsOf ts := by
  simp [rim]

/-- **The rim has the boundary of the triangles.** -/
theorem sum_rim (hf : Alternating f) (hn : (arcsOf ts).Nodup) :
    ((rim ts).map fun a => f a.1 a.2).sum = (ts.map (circulation f)).sum := by
  rw [sum_circulation]
  -- the other sides come in pairs of opposite directions
  have hpairs : (((arcsOf ts).filter fun a => !decide (a.swap ∉ arcsOf ts)).map
      fun a => f a.1 a.2).sum = 0 := by
    rw [← List.sum_toFinset _ (hn.filter _)]
    refine Finset.sum_involution (fun a _ => a.swap) (fun a _ => ?_) (fun a _ h0 he => ?_)
      (fun a ha => ?_) (fun a _ => a.swap_swap)
    · show f a.1 a.2 + f a.2 a.1 = 0
      rw [hf a.1 a.2, add_neg_cancel]
    · have hi : a.2 = a.1 := congrArg Prod.fst he
      have := hf a.1 a.1
      rw [hi] at h0
      exact h0 (by linarith)
    · simp only [List.mem_toFinset, List.mem_filter, Bool.not_eq_eq_eq_not, Bool.not_true,
        decide_eq_false_iff_not, not_not, Prod.swap_swap] at ha ⊢
      exact ha.symm
  rw [rim, ← ((List.filter_append_perm (fun a => decide (a.swap ∉ arcsOf ts)) (arcsOf ts)).map
    fun a => f a.1 a.2).sum_eq, List.map_append, List.sum_append, hpairs, add_zero]

/-- The rim joined to a vertex. -/
def fan (p : UInt32) (ts : List Triangle) : List Triangle := (rim ts).map fun a => ⟨a.1, a.2, p⟩

theorem mem_fan {p : UInt32} {t : Triangle} :
    t ∈ fan p ts ↔ ∃ a ∈ rim ts, t = ⟨a.1, a.2, p⟩ := by
  simp only [fan, List.mem_map, eq_comm]

/-- **The fan has the boundary of the triangles it replaces.** -/
theorem sum_fan (hf : Alternating f) (hn : (arcsOf ts).Nodup) (p : UInt32) :
    ((fan p ts).map (circulation f)).sum = (ts.map (circulation f)).sum := by
  have hsplit : ∀ l : List (UInt32 × UInt32),
      ((l.map fun a => (⟨a.1, a.2, p⟩ : Triangle)).map (circulation f)).sum =
        (l.map fun a => f a.1 a.2).sum + (l.map fun a => f a.2 p - f a.1 p).sum := by
    intro l
    induction l with
    | nil => simp
    | cons a l ih =>
      simp only [List.map_cons, List.sum_cons, ih, circulation, hf a.1 p]
      ring
  have hzero : ((rim ts).map fun a => f a.2 p - f a.1 p).sum = 0 := by
    rw [sum_rim (f := fun i j => f j p - f i p) (fun i j => by ring) hn]
    rw [List.map_congr_left fun t _ => circulation_sub (fun i => f i p) t]
    simp
  rw [fan, hsplit, sum_rim hf hn, hzero, add_zero]

end Prims

end
