import Mathlib.Algebra.Ring.Int.Parity
import Prims.Proofs.Plane.Segment

/-!
# Plane — Polygon

Closed polygons and the even-odd rule.  A point is inside a polygon when the ray from it to the right is
crossed by an odd number of sides, which is so when the polygon winds an odd number of times about it
(`exists_turns`).  A polygon winds about a point as often as the triangles that fan out from its first corner
do together (`turns_fan`).
-/

noncomputable section

namespace Prims.Plane

/-- The sides of a closed polygon, from each corner to the next and from the last to the first. -/
def sides : List Plane → List (Plane × Plane)
  | []     => []
  | a :: l => (a :: l).zip (l ++ [a])

/-- How often sides wind about a point. -/
def turns (es : List (Plane × Plane)) (q : Plane) : ℝ := (es.map fun e => crossing q e.1 e.2).sum

open Classical in
/-- The ray from the point to the right is crossed by an odd number of sides. -/
def OddlyCrossed (es : List (Plane × Plane)) (q : Plane) : Prop := Odd (es.countP fun e => crossing q e.1 e.2 ≠ 0)

/-- What a closed polygon encloses by the even-odd rule, with its sides. -/
def enclosed (polygon : List Plane) : Set Plane :=
  {q | (∃ e ∈ sides polygon, q ∈ segment ℝ e.1 e.2) ∨ OddlyCrossed (sides polygon) q}

/-- **Sides are crossed oddly** when they wind an odd number of times. -/
theorem exists_turns (es : List (Plane × Plane)) (q : Plane) :
    ∃ k : ℤ, turns es q = k ∧ (OddlyCrossed es q ↔ Odd k) := by
  classical
  have key : ∃ k : ℤ, turns es q = k ∧ k % 2 = (es.countP fun e => crossing q e.1 e.2 ≠ 0 : ℕ) % 2 := by
    induction es with
    | nil => exact ⟨0, by simp [turns], rfl⟩
    | cons e es ih =>
      obtain ⟨k, hk, hpar⟩ := ih
      have hcons : turns (e :: es) q = crossing q e.1 e.2 + turns es q := by
        rw [turns, List.map_cons, List.sum_cons, turns]
      rw [hcons, hk]
      rcases crossing_cases q e.1 e.2 with h | h | h
      · rw [List.countP_cons_of_neg (by simp [h]), h]
        exact ⟨k, zero_add _, hpar⟩
      · rw [List.countP_cons_of_pos (by simp [h]), h]
        exact ⟨1 + k, by push_cast; ring, by push_cast; omega⟩
      · rw [List.countP_cons_of_pos (by simp [h]), h]
        exact ⟨-1 + k, by push_cast; ring, by push_cast; omega⟩
  obtain ⟨k, hk, hpar⟩ := key
  refine ⟨k, hk, ?_⟩
  rw [OddlyCrossed, Nat.odd_iff, Int.odd_iff]
  omega

/-- **A fan of triangles** winds as often as the polygon does: the spokes between two of them cancel. -/
theorem turns_fan (o a : Plane) (l : List Plane) (q : Plane) :
    turns (sides (o :: a :: l)) q = (((a :: l).zip l).map fun e => winding q o e.1 e.2).sum := by
  have key : ∀ (l : List Plane) (a : Plane),
      crossing q o a + (((a :: l).zip (l ++ [o])).map fun e => crossing q e.1 e.2).sum =
        (((a :: l).zip l).map fun e => winding q o e.1 e.2).sum := by
    intro l
    induction l with
    | nil =>
      intro a
      simp [crossing_swap q o a]
    | cons b l ih =>
      intro a
      simp only [List.cons_append, List.zip_cons_cons, List.map_cons, List.sum_cons]
      rw [← ih b, winding, crossing_swap q o b]
      ring
  exact key l a

/-- The last side leads back. -/
theorem mem_sides_last (o a : Plane) (l : List Plane) : (l.getLastD a, o) ∈ sides (o :: a :: l) := by
  have key : ∀ (l : List Plane) (a : Plane), (l.getLastD a, o) ∈ (a :: l).zip (l ++ [o]) := by
    intro l
    induction l with
    | nil => exact fun a => List.mem_cons_self
    | cons b l ih =>
      intro a
      rw [List.getLastD_cons]
      exact List.mem_cons_of_mem _ (ih b)
  exact List.mem_cons_of_mem _ (key l a)

end Prims.Plane

end
