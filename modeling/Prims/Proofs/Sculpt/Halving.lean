import Prims.Image.Decode
import Prims.Mesher.Curved
import Prims.Proofs.Number.Units
import Prims.Proofs.Sculpt.Grid

/-!
# Sculpt — Halving

How far a sculpt map is shrunk.  Halving leaves two pixels of a side, which the least budget has room for, so
a map that is beyond its budget has a side left to halve, and it ends at the first of its halvings that is
within the budget (`exists_shrink`).  No halving has more pixels than the map had.  Main statement:
`sculptMap_shrinks`, with the budget read off the level of detail and the numbers that the grid is then
computed with.
-/

namespace Prims

namespace Sculpt

/-! ### Sides -/

/-- The width and the height of a map. -/
def extent (map : Raster) : ℕ × ℕ := (map.width, map.height)

/-- Both sides halved, with two pixels left of each at least. -/
def halve (s : ℕ × ℕ) : ℕ × ℕ := (max (s.1 / 2) 2, max (s.2 / 2) 2)

/-- The number of pixels on these sides. -/
def pixels (s : ℕ × ℕ) : ℕ := s.1 * s.2

/-- Both sides have two pixels or more. -/
def Long (s : ℕ × ℕ) : Prop := 2 ≤ s.1 ∧ 2 ≤ s.2

instance (s : ℕ × ℕ) : Decidable (Long s) := inferInstanceAs (Decidable (_ ∧ _))

variable {s : ℕ × ℕ} {map : Raster}

theorem extent_resize (map : Raster) :
    extent (map.resize (halved map.width) (halved map.height)) = halve (extent map) :=
  Prod.ext (map.resize_width _ _) (map.resize_height _ _)

theorem long_halve (s : ℕ × ℕ) : Long (halve s) := ⟨le_max_right _ _, le_max_right _ _⟩

theorem Long.iterate (h : Long s) (k : ℕ) : Long (halve^[k] s) := by
  cases k with
  | zero => exact h
  | succ k =>
    rw [Function.iterate_succ_apply']
    exact long_halve _

/-- **Halving adds no pixels.** -/
theorem pixels_halve_le (h : Long s) : pixels (halve s) ≤ pixels s := by
  obtain ⟨h₁, h₂⟩ := h
  exact Nat.mul_le_mul (by omega : max (s.1 / 2) 2 ≤ s.1) (by omega : max (s.2 / 2) 2 ≤ s.2)

theorem pixels_iterate_le (h : Long s) (k : ℕ) : pixels (halve^[k] s) ≤ pixels s := by
  induction k with
  | zero => exact le_rfl
  | succ k ih =>
    rw [Function.iterate_succ_apply']
    exact (pixels_halve_le (h.iterate k)).trans ih

/-! ### The halvings of a map -/

/-- **A map ends at the first of its halvings that is within the budget.** -/
theorem exists_shrink {limit : ℕ} (hlimit : 4 ≤ limit) (map : Raster) (h : Long (extent map)) :
    ∃ n, extent (shrink limit map) = halve^[n] (extent map) ∧ pixels (halve^[n] (extent map)) ≤ limit ∧
      ∀ k < n, limit < pixels (halve^[k] (extent map)) := by
  fun_induction shrink limit map with
  | case1 map hlarge ih =>
    obtain ⟨n, hsides, hfits, hfirst⟩ := ih (extent_resize map ▸ long_halve _)
    rw [extent_resize] at hsides hfits hfirst
    refine ⟨n + 1, hsides, hfits, fun k hk => ?_⟩
    cases k with
    | zero => exact hlarge.1
    | succ k => exact hfirst k (by omega)
  | case2 map hstop =>
    refine ⟨0, rfl, ?_, fun k hk => absurd hk (Nat.not_lt_zero k)⟩
    obtain ⟨hw, hh⟩ : 2 ≤ map.width ∧ 2 ≤ map.height := h
    by_contra hlarge
    have hlarge : limit < map.width * map.height := not_le.mp hlarge
    -- there is no side left to halve, and the least budget has room for two by two
    have hw2 : map.width = 2 := by omega
    have hh2 : map.height = 2 := by omega
    rw [hw2, hh2] at hlarge
    omega

/-! ### The budget -/

/-- The side of the budget is the integer part of the level of detail, kept from two to sixty-four. -/
theorem detailSide_eq (detail : Float32) : detailSide detail = max 2 (min (Single.truncated detail) 64) :=
  congrArg (fun n => max 2 (min n 64)) (Single.floorNat_eq detail)

theorem four_le_budget (detail : Float32) : 4 ≤ budget detail := by
  have hside : 2 ≤ detailSide detail := le_max_left _ _
  exact Nat.mul_le_mul hside hside

/-! ### The grid in words -/

/-- The numbers that the grid of a map is computed with are words: its pixels, its triangles, and the place of
every pixel at a corner of a quad. -/
structure GridInWords (map : Raster) (s : Stitching) : Prop where
  pixels    : map.width * map.height < 2 ^ 32
  triangles : cells map.width s.wrapsU * cells map.height s.wrapsV * 2 < 2 ^ 32
  place     : ∀ x ≤ cells map.width s.wrapsU, ∀ y ≤ cells map.height s.wrapsV,
    (index map.width map.height x y).toNat = y % map.height * map.width + x % map.width

theorem gridInWords (h : Long (extent map)) (hfew : map.width * map.height ≤ 2 ^ 30) (s : Stitching) :
    GridInWords map s where
  pixels    := by omega
  triangles := by
    have := Nat.mul_le_mul (cells_le map.width s.wrapsU) (cells_le map.height s.wrapsV)
    omega
  place x _ y _ := by
    obtain ⟨hw, hh⟩ : 2 ≤ map.width ∧ 2 ≤ map.height := h
    have hon : OnMap map.width map.height (y % map.height, x % map.width) :=
      ⟨Nat.mod_lt _ (by omega), Nat.mod_lt _ (by omega)⟩
    rw [index_eq, toNat_pixelAt (by omega) hon, Nat.mul_comm]

end Sculpt

open Sculpt

/-- **Sculpt maps shrink to their budget and no further.**  A decoded map with a side below two is refused.  Any
other one ends at the first of its halvings that has no more pixels than the square of the level of detail,
truncated and kept from two to sixty-four; no halving of it and no number of its grid is beyond a word. -/
theorem sculptMap_shrinks {decode : ImageDecoder} {r : Request} {map : Raster}
    (hmap : decode r.shape.sculptData = some map) :
    let side := max 2 (min (Single.truncated r.detail) 64)
    (¬ Long (extent map) → ∃ e, sculptMap decode r = .error e ∧ e.category = .invalidSculpt) ∧
    (Long (extent map) → pixels (extent map) < 2 ^ 32 → ∃ small n, sculptMap decode r = .ok small ∧
      extent small = halve^[n] (extent map) ∧ Long (extent small) ∧ pixels (extent small) ≤ side * side ∧
      (∀ k < n, side * side < pixels (halve^[k] (extent map))) ∧
      (∀ k, pixels (halve^[k] (extent map)) < 2 ^ 32) ∧ ∀ s, GridInWords small s) := by
  intro side
  have hside : budget r.detail = side * side := by rw [budget, detailSide_eq]
  have hloaded : sculptMap decode r = if map.width < 2 ∨ map.height < 2 then
      .error (.mapTooSmall map.width map.height) else .ok (shrink (budget r.detail) map) := by
    rw [sculptMap, hmap]
  constructor
  · intro hshort
    have hsmall : map.width < 2 ∨ map.height < 2 := by
      by_contra hlong
      exact hshort ⟨not_lt.mp fun h => hlong (.inl h), not_lt.mp fun h => hlong (.inr h)⟩
    exact ⟨_, hloaded.trans (if_pos hsmall), rfl⟩
  · intro hlong hwords
    have hlarge : ¬ (map.width < 2 ∨ map.height < 2) := by
      obtain ⟨hw, hh⟩ : 2 ≤ map.width ∧ 2 ≤ map.height := hlong
      omega
    obtain ⟨n, hsides, hfits, hfirst⟩ := exists_shrink (four_le_budget r.detail) map hlong
    have hlong' : Long (extent (shrink (budget r.detail) map)) := hsides ▸ hlong.iterate n
    have hfits' : pixels (extent (shrink (budget r.detail) map)) ≤ budget r.detail := hsides ▸ hfits
    have hfew := hfits'.trans (budget_le r.detail)
    exact ⟨_, n, hloaded.trans (if_neg hlarge), hsides, hlong', hside ▸ hfits', hside ▸ hfirst,
      fun k => (pixels_iterate_le hlong k).trans_lt hwords, gridInWords hlong' (hfew.trans (by decide))⟩

/-- A bitmap file of eight columns and two rows, all black. -/
def Bmp.blackStrip : ByteArray :=
  let header : List UInt8 :=
    [0x42, 0x4d, 102, 0, 0, 0, 0, 0, 0, 0, 54, 0, 0, 0, 40, 0, 0, 0, 8, 0, 0, 0, 2, 0, 0, 0, 1, 0, 24, 0]
  ⟨(header ++ List.replicate 72 0).toArray⟩

/-- The strip is halved once to make do with nine pixels. -/
theorem sculptMap_shrinks_strip : ∃ map, Image.decode? Bmp.blackStrip = some map ∧ extent map = (8, 2) ∧
    ∃ small, sculptMap Image.decode? ⟨"strip", .sculpt .plane Bmp.blackStrip, ⟨1, 1, 1⟩, 3⟩ = .ok small ∧
      extent small = (4, 2) := by
  have hdecode : (Image.decode? Bmp.blackStrip).map extent = some (8, 2) := by decide +kernel
  obtain ⟨map, hmap, hextent⟩ := Option.map_eq_some_iff.mp hdecode
  refine ⟨map, hmap, hextent, ?_⟩
  have hside : max 2 (min (Single.truncated 3) 64) = 3 := by
    rw [← detailSide_eq]
    decide +kernel
  obtain ⟨small, n, hok, hsmall, -, hfits, hfirst, -⟩ := (@sculptMap_shrinks Image.decode?
    ⟨"strip", .sculpt .plane Bmp.blackStrip, ⟨1, 1, 1⟩, 3⟩ map hmap).2 (hextent ▸ by decide) (hextent ▸ by decide)
  rw [hside] at hfits hfirst
  rw [hextent] at hsmall hfirst
  refine ⟨small, hok, ?_⟩
  obtain rfl : n = 1 := by
    by_contra hn
    rcases Nat.lt_or_gt_of_ne hn with hn | hn
    · obtain rfl : n = 0 := by omega
      rw [hsmall] at hfits
      exact absurd hfits (by decide)
    · exact absurd (hfirst 1 hn) (by decide)
  exact hsmall

end Prims
