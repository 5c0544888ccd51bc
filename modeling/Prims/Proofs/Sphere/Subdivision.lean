import Mathlib.Algebra.Order.Group.Nat
import Prims.Sphere

/-!
# Sphere — Subdivision

The tree of a recursion that splits faces until their parts are fine.  `subdivide` bounds the recursion; a
bound that is no less than the height of the tree does not show (`subdivide_eq`).  A tree with `n` splits has
`3 * n + 1` leaves, and under a bound of `n` there are at most `4 ^ n`.
-/

namespace Prims.Sphere

/-- The four parts of a face. -/
def quarter (k : Corners) : Fin 4 → Corners
  | 0 => ⟨k.a, radialMidpoint k.a k.b, radialMidpoint k.c k.a⟩
  | 1 => ⟨radialMidpoint k.a k.b, k.b, radialMidpoint k.b k.c⟩
  | 2 => ⟨radialMidpoint k.c k.a, radialMidpoint k.b k.c, k.c⟩
  | 3 => ⟨radialMidpoint k.a k.b, radialMidpoint k.b k.c, radialMidpoint k.c k.a⟩

/-- The recursion on a face ends, with this tree. -/
inductive Subdivides : Corners → Subdivision → Prop where
  | face {k : Corners} (fine : isFine k = true) : Subdivides k (.face k)
  | split {k : Corners} {s t u v : Subdivision} (coarse : isFine k = false)
      (first : Subdivides (quarter k 0) s) (second : Subdivides (quarter k 1) t)
      (third : Subdivides (quarter k 2) u) (fourth : Subdivides (quarter k 3) v) :
      Subdivides k (.split s t u v)

namespace Subdivision

/-- Splits on top of each other. -/
def height : Subdivision → Nat
  | .face _        => 0
  | .split a b c d => max (max a.height b.height) (max c.height d.height) + 1

theorem length_leaves (s : Subdivision) : s.leaves.length = 3 * s.splits + 1 := by
  induction s with
  | face k => rfl
  | split a b c d iha ihb ihc ihd =>
    simp only [leaves, splits, List.length_append, iha, ihb, ihc, ihd]
    omega

end Subdivision

open Subdivision

theorem subdivide_fine {k : Corners} (h : isFine k = true) (depth : Nat) : subdivide depth k = .face k := by
  cases depth with
  | zero => rfl
  | succ depth => exact if_pos h

theorem subdivide_coarse {k : Corners} (h : isFine k = false) (depth : Nat) : subdivide (depth + 1) k =
    .split (subdivide depth (quarter k 0)) (subdivide depth (quarter k 1)) (subdivide depth (quarter k 2))
      (subdivide depth (quarter k 3)) :=
  if_neg (Bool.eq_false_iff.mp h)

variable {k : Corners} {s : Subdivision}

/-- **A bound that is high enough does not show.** -/
theorem subdivide_eq (h : Subdivides k s) {depth : Nat} (hdepth : s.height ≤ depth) :
    subdivide depth k = s := by
  induction h generalizing depth with
  | face fine => exact subdivide_fine fine depth
  | split coarse _ _ _ _ ihs iht ihu ihv =>
    obtain ⟨depth, rfl⟩ := Nat.exists_eq_add_of_le' (Nat.le_trans (Nat.le_add_left 1 _) hdepth)
    rw [height] at hdepth
    rw [subdivide_coarse coarse, ihs (by omega), iht (by omega), ihu (by omega), ihv (by omega)]

/-- **A recursion that ends** leaves fine faces. -/
theorem isFine_of_mem_leaves (h : Subdivides k s) : ∀ l ∈ s.leaves, isFine l = true := by
  induction h with
  | face fine => simpa [leaves] using fine
  | split _ _ _ _ _ ihs iht ihu ihv =>
    simp only [leaves, List.mem_append, or_imp, forall_and]
    exact ⟨⟨⟨ihs, iht⟩, ihu⟩, ihv⟩

theorem length_leaves_subdivide (depth : Nat) (k : Corners) :
    (subdivide depth k).leaves.length ≤ 4 ^ depth := by
  induction depth generalizing k with
  | zero => exact Nat.le_refl 1
  | succ depth ih =>
    cases hk : isFine k with
    | true =>
      rw [subdivide_fine hk]
      exact Nat.one_le_pow _ _ (by decide)
    | false =>
      rw [subdivide_coarse hk]
      simp only [leaves, List.length_append, Nat.pow_succ]
      have h₀ := ih (quarter k 0)
      have h₁ := ih (quarter k 1)
      have h₂ := ih (quarter k 2)
      have h₃ := ih (quarter k 3)
      omega

end Prims.Sphere
