import Prims.Proofs.Hull.Difference
import Prims.Proofs.Number.Near
import Prims.Proofs.Number.Units
import Prims.Proofs.Profile.Pierced

/-!
# Profile — Hollow

How large a hole can be before it leaves its outline.  The vertices of a hole are those of the hole of full
size, drawn towards the origin in proportion to the hollow (`Follows`, `share`) and off by less than `2⁻²³`
(`exists_drawn`).  The area over a side of the outline is affine on the way there, so a vertex is inside up to
some hollow when it is clearly inside at that hollow (`area_pos_of_inside`), and outside from a hollow on when
it is clearly outside there (`area_neg_of_outside`).  That leaves finitely many comparisons of integers for
each profile and shape (`corners_fit`, `corners_leave`).  Main statement: `hole?_inside_iff`.
-/

noncomputable section

namespace Prims

open Machine Plane

namespace Hull

theorem ofRing_vertices (ring : Ring) : (ofRing ring).vertices = Ring.unrepeated ring := by
  have hpoints : (ofRing ring).points = [] ++ (Ring.unrepeated ring).map .vertex :=
    addRing_of_open (fun q hq => by cases hq) ring
  rw [vertices, hpoints, List.nil_append, List.filterMap_map]
  exact List.filterMap_some

/-- The vertices that a hull leaves out of a ring make no difference to where it is. -/
theorem forall_ofRing_iff {P : Site → Site → Site → Prop} {outline : Ring} :
    ∀ {ring : Ring}, ring.Level → ((∀ p ∈ (ofRing ring).vertices, Ring.OnSteps P outline p) ↔
      ∀ p ∈ ring, Ring.OnSteps P outline p)
  | [], _ => Iff.rfl
  | p :: ring, hlevel => by
    rw [ofRing_vertices]
    constructor
    · refine Ring.forall_of_unrepeated ?_ ?_ ring p hlevel
      · rintro q ⟨s, hs, -⟩
        exact ⟨s, hs⟩
      · rintro q r hqr ⟨s, hs, h⟩
        exact ⟨s, hqr ▸ hs, h⟩
    · exact fun h q hq => h q ((List.destutter_sublist _ _).subset hq)

end Hull

/-! ### Areas on the way from the origin -/

namespace Plane

variable {a b p q : Plane} {t u x ε : ℝ}

theorem area_smul (a b q : Plane) (t : ℝ) : area a b (t • q) = (1 - t) * area a b 0 + t * area a b q := by
  have h := area_lineMap a b 0 q t
  rwa [AffineMap.lineMap_apply_module, smul_zero, zero_add] at h

/-- What is clear at the origin and further on is clear between them, -/
theorem lt_area_smul (ht : 0 ≤ t) (htu : t ≤ u) (h₀ : x < area a b 0) (h : x < area a b (u • q)) :
    x < area a b (t • q) := by
  rw [area_smul] at h ⊢
  rcases le_total (area a b 0) (area a b q) with hle | hle
  · nlinarith [mul_nonneg ht (sub_nonneg.mpr hle)]
  · nlinarith [mul_nonneg (sub_nonneg.mpr htu) (sub_nonneg.mpr hle)]

/-- and what is clear at the origin and no more further on is not clear beyond that. -/
theorem area_smul_lt (hu : 0 ≤ u) (hut : u ≤ t) (h₀ : x ≤ area a b 0) (h : area a b (u • q) < x) :
    area a b (t • q) < x := by
  rw [area_smul] at h ⊢
  have hdown : area a b q < area a b 0 := by
    by_contra hle
    nlinarith [mul_nonneg hu (sub_nonneg.mpr (not_lt.mp hle))]
  nlinarith [mul_nonneg (sub_nonneg.mpr hut) (sub_nonneg.mpr hdown.le)]

/-- Points that are close have nearly the same area over a short side. -/
theorem abs_area_sub_le (h₁ : |b.1 - a.1| ≤ 1) (h₂ : |b.2 - a.2| ≤ 1) (hx : |p.1 - q.1| ≤ ε)
    (hy : |p.2 - q.2| ≤ ε) : |area a b p - area a b q| ≤ 2 * ε := by
  have hmul {c d : ℝ} (hc : |c| ≤ 1) (hd : |d| ≤ ε) : |c * d| ≤ ε := by
    rw [abs_mul]
    exact (mul_le_of_le_one_left (abs_nonneg d) hc).trans hd
  have hsides : area a b p - area a b q = (b.1 - a.1) * (p.2 - q.2) - (b.2 - a.2) * (p.1 - q.1) := by
    unfold area
    ring
  rw [hsides, two_mul]
  exact (abs_sub _ _).trans (add_le_add (hmul h₁ hy) (hmul h₂ hx))

end Plane

/-- `den` times the area over a side at `num / den` of the way from the origin. -/
def Site.reach (num den : ℕ) (a b c : Site) : ℤ := (den - num) * area a b ⟨0, 0⟩ + num * area a b c

theorem Site.reach_spot {num den : ℕ} (hden : 0 < den) (a b c : Site) :
    Plane.area a.spot b.spot ((num / den : ℝ) • c.spot) = reach num den a b c / (den * Single.unitsPerOne ^ 2) := by
  have hpos : (0 : ℝ) < den := Nat.cast_pos.mpr hden
  have horigin : spot ⟨0, 0⟩ = 0 := by simp [spot]
  rw [area_smul, ← horigin, area_spot, area_spot, reach]
  push_cast
  field_simp

namespace Profile

/-! ### Sizes -/

variable {profile : ProfileShape} {shape : HollowShape} {hollow : UInt16} {f : Float32} {n m : ℕ}

/-- What triangles divide their hollow by, in units of `2⁻²³`. -/
def narrowing (profile : ProfileShape) : ℕ := if profile = .equilateralTriangle then 15938355 else 2 ^ 23

/-- The hollow of full size, in the same units. -/
def fullSize (profile : ProfileShape) : ℕ := 50000 * narrowing profile

/-- How much of its full size a hole has. -/
def share (profile : ProfileShape) (n : ℕ) : ℝ := (n * 2 ^ 23 : ℕ) / fullSize profile

theorem fullSize_pos (profile : ProfileShape) : 0 < fullSize profile := by
  unfold fullSize narrowing
  split <;> decide

theorem share_nonneg (profile : ProfileShape) (n : ℕ) : 0 ≤ share profile n := by
  unfold share
  positivity

theorem share_le_share (profile : ProfileShape) (h : n ≤ m) : share profile n ≤ share profile m := by
  refine div_le_div_of_nonneg_right ?_ (Nat.cast_nonneg _)
  exact_mod_cast Nat.mul_le_mul_right _ h

theorem share_le_one (profile : ProfileShape) (h : n ≤ 50000) : share profile n ≤ 1 := by
  have hpos : (0 : ℝ) < fullSize profile := Nat.cast_pos.mpr (fullSize_pos profile)
  have hnarrow : 2 ^ 23 ≤ narrowing profile := by
    unfold narrowing
    split <;> decide
  rw [share, div_le_one hpos]
  exact_mod_cast Nat.mul_le_mul h hnarrow

theorem real_narrowing : IsFinite (1.9 : Float32) ∧ real (1.9 : Float32) = 15938355 / 2 ^ 23 := by
  have hparts : parts (1.9 : Float32) = .finite .positive 15938355 (-23) (by decide) := by rfl
  exact exact_of_parts hparts (by norm_num [unit])

/-- The quanta of a full turn divide with one rounding. -/
theorem div_quanta_near {x : Float32} {v ε : ℝ} (hx : Near x v ε) (h : |v| + ε ≤ 50000) :
    Near (x / 50000) (v / 50000) (ε / 50000 + (1 / 2 ^ 24 + 1 / 2 ^ 150)) := by
  obtain ⟨hfinite, hreal⟩ := Single.real_ofNat (n := 50000) (by decide)
  push_cast at hreal
  have hsize : |v / real (Float32.ofNat 50000)| + ε / real (Float32.ofNat 50000) ≤ 1 := by
    rw [hreal, abs_div, abs_of_pos (by norm_num : (0 : ℝ) < 50000), ← add_div]
    exact div_le_one_of_le₀ h (by norm_num)
  have hquotient := hx.div hfinite (by rw [hreal]; norm_num) hsize (by norm_num)
  rwa [hreal, Single.roundoff_format, Single.underflow_format, mul_one] at hquotient

/-- The size of a hole as it is computed. -/
theorem holeFraction_near (profile : ProfileShape) (h : hollow.toNat ≤ 50000) :
    Near (holeFraction profile hollow) (share profile hollow.toNat) (8 / 5 / 2 ^ 24) := by
  have hcast : (hollow.toNat : ℝ) ≤ 50000 := by exact_mod_cast h
  have hhollow : Near hollow.toFloat32 hollow.toNat 0 :=
    .exact (Single.real_toFloat32 hollow).1 (Single.real_toFloat32 hollow).2
  unfold holeFraction share fullSize narrowing
  split
  · obtain ⟨hfinite, hreal⟩ := real_narrowing
    have hsize : |(hollow.toNat : ℝ) / real (1.9 : Float32)| ≤ 26316 := by
      rw [hreal, abs_of_nonneg (by positivity), div_le_iff₀ (by norm_num)]
      linarith
    have hnarrowed := hhollow.div hfinite (by rw [hreal]; norm_num) (V := 26316)
      (by rwa [zero_div, add_zero]) (by norm_num)
    rw [zero_div, zero_add, Single.roundoff_format, Single.underflow_format] at hnarrowed
    have hfraction := div_quanta_near hnarrowed (by norm_num; linarith)
    have hvalue : (hollow.toNat : ℝ) / real (1.9 : Float32) / 50000 =
        (hollow.toNat * 2 ^ 23 : ℕ) / (50000 * 15938355 : ℕ) := by
      rw [hreal]
      push_cast
      ring
    rw [hvalue] at hfraction
    exact hfraction.mono (by norm_num)
  · have hfraction := div_quanta_near hhollow (by rwa [add_zero, abs_of_nonneg (Nat.cast_nonneg _)])
    have hvalue : (hollow.toNat : ℝ) / 50000 = (hollow.toNat * 2 ^ 23 : ℕ) / (50000 * 2 ^ 23 : ℕ) := by
      push_cast
      ring
    rw [hvalue] at hfraction
    exact hfraction.mono (by norm_num)

/-! ### Corners -/

/-- A coordinate of the hole of full size and of the hole of a size: the same number times one and times the
size, or zero. -/
def Scales (f c x : Float32) : Prop := (∃ k, c = k * 1 ∧ x = k * f) ∨ (c = 0.0 ∧ x = 0.0)

/-- A vertex of the hole of full size and the vertex of the hole of a size that has its place. -/
structure Follows (f : Float32) (c p : Point) : Prop where
  x : Scales f c.x p.x
  y : Scales f c.y p.y
  level : c.z = 0 ∧ p.z = 0

theorem Scales.near {c x : Float32} {t : ℝ} (h : Scales f c x) (hc : IsFinite c) (hle : |real c| ≤ 3 / 4)
    (hf : Near f t (8 / 5 / 2 ^ 24)) (ht : |t| ≤ 1) : Near x (t * real c) (1 / 2 ^ 23) := by
  obtain ⟨k, rfl, rfl⟩ | ⟨rfl, rfl⟩ := h
  · have hk : Near k (real k) 0 := .exact (finite_of_mul hc).1 rfl
    rw [real_mul_one hc Single.real_one.2] at hle ⊢
    have hproduct := hk.mul hf hle ht (by norm_num)
    have hvalue : real k * t = t * real k := by ring
    rw [Single.roundoff_format, Single.underflow_format, hvalue] at hproduct
    exact hproduct.mono (by norm_num)
  · have hzero : real (0.0 : Float32) = 0 := by
      have hparts : parts (0.0 : Float32) = .zero .positive := by rfl
      rw [real, hparts, value_zero]
    exact (Near.exact hc (by rw [hzero, mul_zero])).mono (by positivity)

/-- **A hole follows the hole of full size.** -/
theorem holePolygon_follows (shape : HollowShape) (f : Float32) (profile : ProfileShape) :
    ∃ full ring : Ring, holePolygon shape 1 profile = .ofRing full ∧ holePolygon shape f profile = .ofRing ring ∧
      List.Forall₂ (Follows f) full ring := by
  have hmul (k : Float32) : Scales f (k * 1) (k * f) := .inl ⟨k, rfl, rfl⟩
  have hzero : Scales f 0.0 0.0 := .inr ⟨rfl, rfl⟩
  have hcorner (k l : Float32) : Follows f (.flat (k * 1) (l * 1)) (.flat (k * f) (l * f)) :=
    ⟨hmul k, hmul l, rfl, rfl⟩
  have hup (l : Float32) : Follows f (.flat 0.0 (l * 1)) (.flat 0.0 (l * f)) := ⟨hzero, hmul l, rfl, rfl⟩
  have hacross (k : Float32) : Follows f (.flat (k * 1) 0.0) (.flat (k * f) 0.0) := ⟨hmul k, hzero, rfl, rfl⟩
  cases shape with
  | circle =>
    refine ⟨_, _, rfl, rfl, ?_⟩
    rw [List.map_map, List.map_map, List.forall₂_map_left_iff, List.forall₂_map_right_iff, List.forall₂_same]
    exact fun q _ => hcorner q.1 q.2
  | triangle =>
    by_cases h : profile = .square
    · exact ⟨_, _, if_pos h, if_pos h, .cons (hcorner _ _) (.cons (hcorner _ _) (.cons (hcorner _ _) .nil))⟩
    · exact ⟨_, _, if_neg h, if_neg h, .cons (hcorner _ _) (.cons (hcorner _ _) (.cons (hacross _) .nil))⟩
  | square | same =>
    cases profile with
    | circle | equilateralTriangle =>
      exact ⟨_, _, rfl, rfl, .cons (hup _) (.cons (hacross _) (.cons (hup _) (.cons (hacross _) .nil)))⟩
    | square | isometricTriangle | rightTriangle | halfCircle =>
      exact ⟨_, _, rfl, rfl,
        .cons (hcorner _ _) (.cons (hcorner _ _) (.cons (hcorner _ _) (.cons (hcorner _ _) .nil)))⟩

/-! ### Inside and outside -/

/-- The side is no longer than the unit square in either coordinate, and those of the corner are three quarters
at most. -/
def Moderate (a b c : Site) : Prop :=
  |b.x - a.x| ≤ Single.unitsPerOne ∧ |b.y - a.y| ≤ Single.unitsPerOne ∧
    4 * |c.x| ≤ 3 * Single.unitsPerOne ∧ 4 * |c.y| ≤ 3 * Single.unitsPerOne

/-- At a hollow the corner is to the left of the side, by more than the roundings come to. -/
def Inside (profile : ProfileShape) (n : ℕ) (a b c : Site) : Prop :=
  fullSize profile * Single.unitsPerOne ^ 2 < 2 ^ 22 * Site.reach (n * 2 ^ 23) (fullSize profile) a b c

/-- At a hollow the corner is to the right of the side, by more than the roundings come to. -/
def Outside (profile : ProfileShape) (n : ℕ) (a b c : Site) : Prop :=
  2 ^ 22 * Site.reach (n * 2 ^ 23) (fullSize profile) a b c < -(fullSize profile * Single.unitsPerOne ^ 2 : ℕ)

instance (a b c : Site) : Decidable (Moderate a b c) := inferInstanceAs (Decidable (_ ∧ _))

instance (n : ℕ) (a b c : Site) : Decidable (Inside profile n a b c) := Int.decLt _ _

instance (n : ℕ) (a b c : Site) : Decidable (Outside profile n a b c) := Int.decLt _ _

variable {a b c s : Site}

theorem abs_div_unitsPerOne_le {k : ℤ} {u v : ℕ} (hv : 0 < v) (h : v * |k| ≤ u * Single.unitsPerOne) :
    |(k : ℝ) / Single.unitsPerOne| ≤ u / v := by
  have h : (v : ℝ) * |(k : ℝ)| ≤ u * Single.unitsPerOne := by exact_mod_cast h
  rw [abs_div, abs_of_pos unitsPerOne_pos, div_le_div_iff₀ unitsPerOne_pos (Nat.cast_pos.mpr hv)]
  linarith

theorem fullSize_unitsSq_pos (profile : ProfileShape) : (0 : ℝ) < fullSize profile * Single.unitsPerOne ^ 2 :=
  mul_pos (Nat.cast_pos.mpr (fullSize_pos profile)) unitsSq_pos

theorem inside_iff : Inside profile n a b c ↔ 1 / 2 ^ 22 < area a.spot b.spot (share profile n • c.spot) := by
  rw [share, Site.reach_spot (fullSize_pos profile), lt_div_iff₀ (fullSize_unitsSq_pos profile),
    one_div_mul_eq_div, div_lt_iff₀' (by positivity), Inside]
  exact_mod_cast Iff.rfl

theorem outside_iff : Outside profile n a b c ↔ area a.spot b.spot (share profile n • c.spot) < -(1 / 2 ^ 22) := by
  rw [share, Site.reach_spot (fullSize_pos profile), div_lt_iff₀ (fullSize_unitsSq_pos profile), neg_mul,
    one_div_mul_eq_div, ← neg_div, lt_div_iff₀' (by positivity), Outside]
  exact_mod_cast Iff.rfl

/-- The point is where the corner of full size is drawn to, but for roundings. -/
structure Drawn (profile : ProfileShape) (n : ℕ) (c s : Site) : Prop where
  x : |s.spot.1 - share profile n * c.spot.1| ≤ 1 / 2 ^ 23
  y : |s.spot.2 - share profile n * c.spot.2| ≤ 1 / 2 ^ 23

section

variable (hm : Moderate a b c) (hs : Drawn profile n c s)
include hm hs

theorem abs_area_sub_le :
    |area a.spot b.spot s.spot - area a.spot b.spot (share profile n • c.spot)| ≤ 1 / 2 ^ 22 := by
  have hside {k l : ℤ} (h : |l - k| ≤ Single.unitsPerOne) :
      |(l : ℝ) / Single.unitsPerOne - k / Single.unitsPerOne| ≤ 1 := by
    have h := abs_div_unitsPerOne_le (u := 1) (v := 1) Nat.one_pos (by rwa [Nat.cast_one, one_mul, one_mul])
    rw [← sub_div]
    simpa using h
  refine (Plane.abs_area_sub_le (hside hm.1) (hside hm.2.1) hs.x hs.y).trans (by norm_num)

/-- **Inside up to a hollow.** -/
theorem area_pos_of_inside (h₀ : Inside profile 0 a b c) (h : Inside profile m a b c) (hle : n ≤ m) :
    0 < Site.area a b s := by
  rw [inside_iff] at h₀ h
  have hzero : share profile 0 = 0 := by simp [share]
  rw [hzero, zero_smul] at h₀
  have harea := lt_area_smul (share_nonneg profile n) (share_le_share profile hle) h₀ h
  have hnear := (abs_le.mp (abs_area_sub_le hm hs)).1
  have hpos : 0 < area a.spot b.spot s.spot := by linarith
  rw [Site.area_spot] at hpos
  exact_mod_cast (div_pos_iff_of_pos_right unitsSq_pos).mp hpos

/-- **Outside from a hollow on.** -/
theorem area_neg_of_outside (h₀ : Inside profile 0 a b c) (h : Outside profile m a b c) (hle : m ≤ n) :
    Site.area a b s < 0 := by
  rw [inside_iff] at h₀
  rw [outside_iff] at h
  have hzero : share profile 0 = 0 := by simp [share]
  rw [hzero, zero_smul] at h₀
  have harea := area_smul_lt (share_nonneg profile m) (share_le_share profile hle) (by linarith) h
  have hnear := (abs_le.mp (abs_area_sub_le hm hs)).2
  have hneg : area a.spot b.spot s.spot < 0 := by linarith
  rw [Site.area_spot] at hneg
  by_contra hle
  exact hneg.not_ge (div_nonneg (by exact_mod_cast not_lt.mp hle) unitsSq_pos.le)

end

/-- **A vertex is where its corner is drawn to.** -/
theorem exists_drawn (hf : Near f (share profile n) (8 / 5 / 2 ^ 24)) (hn : n ≤ 50000) {p q : Point}
    (h : Follows f p q) (hp : p.site? = some c) (hx : 4 * |c.x| ≤ 3 * Single.unitsPerOne)
    (hy : 4 * |c.y| ≤ 3 * Single.unitsPerOne) : ∃ s, q.site? = some s ∧ Drawn profile n c s := by
  obtain ⟨⟨hpx, hspotx⟩, hpy, hspoty⟩ := Point.spot_of_site? hp
  have hsize : |share profile n| ≤ 1 := by
    rw [abs_of_nonneg (share_nonneg profile n)]
    exact share_le_one profile hn
  have hcorner {k : ℤ} (h : 4 * |k| ≤ 3 * Single.unitsPerOne) : |(k : ℝ) / Single.unitsPerOne| ≤ 3 / 4 :=
    abs_div_unitsPerOne_le (u := 3) (v := 4) (by decide) h
  have hqx := h.x.near hpx (hspotx ▸ hcorner hx) hf hsize
  have hqy := h.y.near hpy (hspoty ▸ hcorner hy) hf hsize
  obtain ⟨s, hs⟩ := Point.exists_site hqx.finite hqy.finite
  obtain ⟨⟨-, hspotx'⟩, -, hspoty'⟩ := Point.spot_of_site? hs
  refine ⟨s, hs, ?_, ?_⟩
  · rw [hspotx, hspotx']
    exact hqx.error
  · rw [hspoty, hspoty']
    exact hqy.error

/-! ### Limits -/

/-- The outlines that are swept along a straight path. -/
def straightOutlines : List (ProfileShape × Hull) :=
  [(.square, square), (.circle, circle), (.equilateralTriangle, prism)]

/-- The shapes of holes. -/
def holeShapes : List HollowShape := [.circle, .square, .triangle]

/-- The largest hollow that keeps a hole inside. -/
def hollowLimit : ProfileShape → HollowShape → ℕ
  | .circle, .square                => 35360
  | .circle, .triangle              => 48465
  | .equilateralTriangle, .square   => 35607
  | .equilateralTriangle, .circle   => 47499
  | _, _                            => 49999

/-- What is asked of a corner up to a hollow. -/
def Fits (profile : ProfileShape) (n : ℕ) (a b c : Site) : Prop :=
  Moderate a b c ∧ Inside profile 0 a b c ∧ Inside profile n a b c

instance (n : ℕ) (a b c : Site) : Decidable (Fits profile n a b c) := inferInstanceAs (Decidable (_ ∧ _))

theorem steps_ne_nil : ∀ o ∈ straightOutlines, Ring.steps o.2.vertices ≠ [] := by
  decide +kernel

/-- All corners are inside at the limit, -/
theorem corners_fit : ∀ o ∈ straightOutlines, ∀ shape ∈ holeShapes, ∀ c ∈ (holePolygon shape 1 o.1).vertices,
    Ring.OnSteps (Fits o.1 (hollowLimit o.1 shape)) o.2.vertices c := by
  decide +kernel

/-- one is outside at the second hollow after it, -/
theorem corners_leave : ∀ o ∈ straightOutlines, ∀ shape ∈ holeShapes, hollowLimit o.1 shape ≠ 49999 →
    ¬∀ c ∈ (holePolygon shape 1 o.1).vertices,
      Ring.OnSteps (fun a b c => ¬Outside o.1 (hollowLimit o.1 shape + 2) a b c) o.2.vertices c := by
  decide +kernel

/-- and at the first the hole is not inside as it is computed, which roundings decide. -/
theorem first_leaves : ∀ o ∈ straightOutlines, ∀ shape ∈ holeShapes, hollowLimit o.1 shape ≠ 49999 →
    ¬∀ p ∈ (holePolygon shape (holeFraction o.1 (.ofNat (hollowLimit o.1 shape + 1))) o.1).vertices,
      Ring.Surrounds o.2.vertices p := by
  decide +kernel

theorem level_of_follows : ∀ {full ring : Ring}, List.Forall₂ (Follows f) full ring → full.Level ∧ ring.Level
  | _, _, .nil => ⟨fun _ h => (List.not_mem_nil h).elim, fun _ h => (List.not_mem_nil h).elim⟩
  | _, _, .cons h hrest => by
    obtain ⟨hfull, hring⟩ := level_of_follows hrest
    exact ⟨List.forall_mem_cons.mpr ⟨h.level.1, hfull⟩, List.forall_mem_cons.mpr ⟨h.level.2, hring⟩⟩

theorem exists_of_forall₂ {α β : Type} {R : α → β → Prop} {l : List α} {k : List β} (h : List.Forall₂ R l k) :
    ∀ a ∈ l, ∃ b ∈ k, R a b := by
  induction h with
  | nil => exact nofun
  | cons hab _ ih =>
    refine List.forall_mem_cons.mpr ⟨⟨_, List.mem_cons_self, hab⟩, fun a ha => ?_⟩
    obtain ⟨b, hb, h⟩ := ih a ha
    exact ⟨b, List.mem_cons_of_mem _ hb, h⟩

section

variable {o : ProfileShape × Hull} (ho : o ∈ straightOutlines) (hshape : shape ∈ holeShapes)
include ho

include hshape in
/-- The corners of a hole, each fit for its limit and followed by a vertex. -/
theorem exists_corners (f : Float32) : ∃ full ring : Ring, holePolygon shape 1 o.1 = .ofRing full ∧
    holePolygon shape f o.1 = .ofRing ring ∧ full.Level ∧ ring.Level ∧ List.Forall₂ (Follows f) full ring ∧
      ∀ p ∈ full, Ring.OnSteps (Fits o.1 (hollowLimit o.1 shape)) o.2.vertices p := by
  obtain ⟨full, ring, hfull, hring, hfollows⟩ := holePolygon_follows shape f o.1
  obtain ⟨hlevel, hlevel'⟩ := level_of_follows hfollows
  have hfit := corners_fit o ho shape hshape
  rw [hfull, Hull.forall_ofRing_iff hlevel] at hfit
  exact ⟨full, ring, hfull, hring, hlevel, hlevel', hfollows, hfit⟩

variable (h : hollow.toNat < 50000)
include h

/-- What follows a fit corner is where that is drawn to. -/
theorem drawn_of_follows {p q : Point} (hp : p.site? = some c) (hsteps : ∀ e ∈ Ring.steps o.2.vertices, ∃ a b,
    e.1.site? = some a ∧ e.2.site? = some b ∧ Fits o.1 m a b c) (hfollow : Follows (holeFraction o.1 hollow) p q) :
    ∃ s, q.site? = some s ∧ Drawn o.1 hollow.toNat c s := by
  obtain ⟨e, he⟩ := List.exists_mem_of_ne_nil _ (steps_ne_nil o ho)
  obtain ⟨_, _, -, -, hm, -⟩ := hsteps e he
  exact exists_drawn (holeFraction_near o.1 h.le) h.le hfollow hp hm.2.2.1 hm.2.2.2

include hshape

/-- **A hole is inside up to its limit** -/
theorem holePolygon_inside (hle : hollow.toNat ≤ hollowLimit o.1 shape) :
    ∀ p ∈ (holePolygon shape (holeFraction o.1 hollow) o.1).vertices, Ring.Surrounds o.2.vertices p := by
  obtain ⟨full, ring, -, hring, -, hlevel, hfollows, hfit⟩ := exists_corners ho hshape (holeFraction o.1 hollow)
  rw [hring]
  refine (Hull.forall_ofRing_iff hlevel).mpr fun q hq => ?_
  obtain ⟨p, hp, hfollow⟩ := exists_of_forall₂ hfollows.flip q hq
  obtain ⟨c, hc, hsteps⟩ := hfit p hp
  obtain ⟨s, hs, hdrawn⟩ := drawn_of_follows ho h hc hsteps hfollow
  refine ⟨s, hs, fun e he => ?_⟩
  obtain ⟨a, b, ha, hb, hm, h₀, hlimit⟩ := hsteps e he
  exact ⟨a, b, ha, hb, area_pos_of_inside hm hdrawn h₀ hlimit hle⟩

/-- and not inside beyond it. -/
theorem holePolygon_leaves (hlt : hollowLimit o.1 shape < hollow.toNat) :
    ¬∀ p ∈ (holePolygon shape (holeFraction o.1 hollow) o.1).vertices, Ring.Surrounds o.2.vertices p := by
  intro hin
  have hne : hollowLimit o.1 shape ≠ 49999 := by omega
  rcases Nat.eq_or_lt_of_le hlt with heq | hlt
  · have hhollow : hollow = .ofNat (hollowLimit o.1 shape + 1) := by
      rw [← Nat.succ_eq_add_one, heq, UInt16.ofNat_toNat]
    exact first_leaves o ho shape hshape hne (hhollow ▸ hin)
  obtain ⟨full, ring, hfull, hring, hlevel, hlevel', hfollows, hfit⟩ :=
    exists_corners ho hshape (holeFraction o.1 hollow)
  rw [hring] at hin
  have hin := (Hull.forall_ofRing_iff hlevel').mp hin
  refine corners_leave o ho shape hshape hne ?_
  rw [hfull]
  refine (Hull.forall_ofRing_iff hlevel).mpr fun p hp => ?_
  obtain ⟨c, hc, hsteps⟩ := hfit p hp
  obtain ⟨q, hq, hfollow⟩ := exists_of_forall₂ hfollows p hp
  obtain ⟨s, hs, hdrawn⟩ := drawn_of_follows ho h hc hsteps hfollow
  refine ⟨c, hc, fun e he => ?_⟩
  obtain ⟨a, b, ha, hb, hm, h₀, -⟩ := hsteps e he
  -- a corner that is outside would have a vertex that is
  refine ⟨a, b, ha, hb, fun hout => ?_⟩
  exact (area_neg_of_outside hm hdrawn h₀ hout hlt).not_gt ((hin q hq).at_step hs he ha hb)

end

/-- The hole of a straight path has the shape that is asked for, or follows the profile. -/
theorem hole?_eq {o : ProfileShape × Hull} (ho : o ∈ straightOutlines) (shape : HollowShape) (h : 0 < hollow) :
    ∃ shape', hole? o.1 shape hollow true = some (holePolygon shape' (holeFraction o.1 hollow) o.1) ∧
      shape' ∈ holeShapes ∧ hollowLimit o.1 shape' = hollowLimit o.1 shape := by
  have hne : hollow ≠ 0 := UInt16.pos_iff_ne_zero.mp h
  unfold hole?
  rw [if_neg hne]
  simp only [straightOutlines, List.mem_cons, List.not_mem_nil, or_false] at ho
  obtain rfl | rfl | rfl := ho <;> cases shape <;> exact ⟨_, rfl, by decide, by decide⟩

/-- **When a hole stays inside its outline.**  Every hollow of a profile on a straight path below that of full
size has a hole.  All vertices of the hole are strictly inside the outline exactly up to a limit: a square hole
leaves a circle from 35361 and a prism from 35608 on, a triangle leaves a circle from 48466 on, and a circle a
prism from 47500 on.  No other shape leaves its outline. -/
theorem hole?_inside_iff {o : ProfileShape × Hull} (ho : o ∈ straightOutlines) (shape : HollowShape)
    (h₀ : 0 < hollow) (h₁ : hollow < cutQuanta) : ∃ hole, hole? o.1 shape hollow true = some hole ∧
      ((∀ p ∈ hole.vertices, Ring.Surrounds o.2.vertices p) ↔ hollow.toNat ≤ hollowLimit o.1 shape) := by
  obtain ⟨shape', hhole, hshape, hlimit⟩ := hole?_eq ho shape h₀
  have h₁ : hollow.toNat < 50000 := UInt16.lt_iff_toNat_lt.mp h₁
  refine ⟨_, hhole, ?_⟩
  rw [← hlimit]
  constructor
  · intro hin
    by_contra hlt
    exact holePolygon_leaves ho hshape h₁ (not_le.mp hlt) hin
  · exact holePolygon_inside ho hshape h₁

/-- The largest square hole inside a circle. -/
theorem hole?_inside_iff_diamond : (.circle, circle) ∈ straightOutlines ∧ 0 < (35360 : UInt16) ∧
    (35360 : UInt16) < cutQuanta ∧ ∃ hole, hole? .circle .square 35360 true = some hole ∧
      ∀ p ∈ hole.vertices, Ring.Surrounds circle.vertices p := by
  have ho : (.circle, circle) ∈ straightOutlines := by simp [straightOutlines]
  obtain ⟨hole, hhole, hin⟩ := hole?_inside_iff ho .square (show 0 < (35360 : UInt16) by decide) (by decide)
  exact ⟨ho, by decide, by decide, hole, hhole, hin.mpr (by decide)⟩

/-- A square hole of eight tenths has all its vertices outside the circle, and what it leaves of the circle is
in four pieces. -/
theorem diamond_leaves_circle : (.circle, circle) ∈ straightOutlines ∧ 0 < (40000 : UInt16) ∧
    (40000 : UInt16) < cutQuanta ∧ ∃ hole, hole? .circle .square 40000 true = some hole ∧ hole.vertexCount = 4 ∧
      (∀ p ∈ hole.vertices, ¬Ring.Surrounds circle.vertices p) ∧ circle.subtract hole = .error (.pieces 4) := by
  exact ⟨by simp [straightOutlines], by decide, by decide, _, rfl, by decide +kernel, by decide +kernel,
    by decide +kernel⟩

end Profile

end Prims

end
