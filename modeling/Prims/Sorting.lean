/-!
# Sorting

Lists put in an order by insertion.  Sorting loses and adds nothing (`sortBy_perm`), and for a total
and transitive order every element may stand before the later ones (`pairwise_sortBy`).
-/

namespace Prims

variable {α : Type}

/-- Insert an element into a sorted list, in front of the first one it may stand before. -/
def insertBy (le : α → α → Bool) (a : α) : List α → List α
  | []     => [a]
  | b :: r => if le a b then a :: b :: r else b :: insertBy le a r

/-- The elements in the order of `le`. -/
def sortBy (le : α → α → Bool) (l : List α) : List α := l.foldr (insertBy le) []

theorem insertBy_perm (le : α → α → Bool) (a : α) (l : List α) :
    (insertBy le a l).Perm (a :: l) := by
  induction l with
  | nil => exact .refl _
  | cons b r ih =>
    rw [insertBy]
    split
    · exact .refl _
    · exact (ih.cons b).trans (.swap a b r)

theorem sortBy_perm (le : α → α → Bool) (l : List α) : (sortBy le l).Perm l := by
  induction l with
  | nil => exact .refl _
  | cons a r ih => exact (insertBy_perm le a (sortBy le r)).trans (ih.cons a)

theorem pairwise_insertBy {le : α → α → Bool} (total : ∀ a b, le a b || le b a)
    (trans : ∀ a b c, le a b → le b c → le a c) (a : α) {l : List α}
    (h : l.Pairwise fun x y => le x y) : (insertBy le a l).Pairwise fun x y => le x y := by
  induction l with
  | nil => exact List.pairwise_singleton _ a
  | cons b r ih =>
    obtain ⟨hb, hr⟩ := List.pairwise_cons.mp h
    rw [insertBy]
    split
    case isTrue hab =>
      refine List.pairwise_cons.mpr ⟨fun x hx => ?_, h⟩
      rcases List.mem_cons.mp hx with rfl | hx
      · exact hab
      · exact trans _ _ _ hab (hb x hx)
    case isFalse hab =>
      refine List.pairwise_cons.mpr ⟨fun x hx => ?_, ih hr⟩
      rcases List.mem_cons.mp ((insertBy_perm le a r).mem_iff.mp hx) with rfl | hx
      · simpa [hab] using total x b
      · exact hb x hx

theorem pairwise_sortBy {le : α → α → Bool} (total : ∀ a b, le a b || le b a)
    (trans : ∀ a b c, le a b → le b c → le a c) (l : List α) :
    (sortBy le l).Pairwise fun x y => le x y := by
  induction l with
  | nil => exact .nil
  | cons a r ih => exact pairwise_insertBy total trans a ih

end Prims
