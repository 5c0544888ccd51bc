import Prims.Geometry.Corners
import Prims.Mesh.Edit
import Prims.Proofs.Number.Sign

/-!
# Geometry — Corners

What is measured on three corners does not depend on their winding.  The squares of a difference and of a
cross product are the same numbers when the operands are swapped (`normSq_sub_comm`, `normSq_cross_comm`).
The largest of squares is their maximum in the order of a `rank`, in which an infinity is last and what is no
number first (`rank_greatest`), so it does not depend on the order in which they are compared.  Main
statement: corners are flat when the corners wound the other way are (`isFlat_flip`).
-/

namespace Prims

open Float.Model Float.Model.UnpackedFloat Machine

/-! ### Squares -/

section

variable {F : Type} [Machine F] {x y : F}

theorem Vec.normSq_sub_comm (u v : Vec F) : (u - v).normSq = (v - u).normSq := by
  show (u.x - v.x) * (u.x - v.x) + (u.y - v.y) * (u.y - v.y) + (u.z - v.z) * (u.z - v.z) =
    (v.x - u.x) * (v.x - u.x) + (v.y - u.y) * (v.y - u.y) + (v.z - u.z) * (v.z - u.z)
  rw [sub_mul_self_comm u.x, sub_mul_self_comm u.y, sub_mul_self_comm u.z]

theorem Vec.normSq_cross_comm (u v : Vec F) : (u.cross v).normSq = (v.cross u).normSq := by
  have hswap (a b c d : F) : (a * b - c * d) * (a * b - c * d) = (d * c - b * a) * (d * c - b * a) := by
    rw [sub_mul_self_comm, Machine.mul_comm a b, Machine.mul_comm c d]
  unfold Vec.cross Vec.normSq
  dsimp only
  rw [hswap u.y, hswap u.z, hswap u.x]

/-- The number has no negative sign; also what is no number has none. -/
def IsUnsigned (x : F) : Prop := sign? (parts x) ≠ some .negative

theorem mul_self_isUnsigned (x : F) : IsUnsigned (x * x) := by
  unfold IsUnsigned
  rw [parts_mul, settle_sign?]
  cases parts x with
  | notANumber => exact nofun
  | zero s | infinity s => cases s <;> exact nofun
  | finite s m e hm =>
    show sign? (roundWithAccuracy _ (s * s) _ _ _) ≠ _
    rw [roundWithAccuracy_sign?]
    cases s <;> exact nofun

theorem normalize_sign? (spec : Format) {j : ℤ} (hj : 0 ≤ j) (e : ℤ) :
    sign? (UnpackedFloat.normalize spec j e .positive) = some .positive := by
  unfold UnpackedFloat.normalize
  rcases hj.eq_or_lt with rfl | hj
  · rfl
  · rw [compare_gt_iff_gt.mpr hj]
    exact roundWithAccuracy_sign? _ _ _ _ _

theorem add_isUnsigned (hx : IsUnsigned x) (hy : IsUnsigned y) : IsUnsigned (x + y) := by
  unfold IsUnsigned at hx hy ⊢
  rw [parts_add, settle_sign?]
  revert hx hy
  cases parts x with
  | notANumber => exact fun _ _ => by cases parts y <;> exact nofun
  | infinity s =>
    cases s with
    | negative => exact fun hx => absurd rfl hx
    | positive =>
      cases parts y with
      | notANumber | zero t | finite t n f hn => exact fun _ _ => nofun
      | infinity t =>
        cases t with
        | positive => exact fun _ _ => nofun
        | negative => exact fun _ hy => absurd rfl hy
  | zero s =>
    cases s with
    | negative => exact fun hx => absurd rfl hx
    | positive =>
      cases parts y with
      | notANumber => exact fun _ _ => nofun
      | infinity t | finite t n f hn => exact fun _ hy => hy
      | zero t => cases t <;> exact fun _ _ => nofun
  | finite s m e hm =>
    cases s with
    | negative => exact fun hx => absurd rfl hx
    | positive =>
      cases parts y with
      | notANumber => exact fun _ _ => nofun
      | infinity t => exact fun _ hy => hy
      | zero t => exact fun hx _ => hx
      | finite t n f hn =>
        cases t with
        | negative => exact fun _ hy => absurd rfl hy
        | positive =>
          have hsum (j k : ℕ) : 0 ≤ Sign.positive.apply j + Sign.positive.apply k :=
            add_nonneg (Int.natCast_nonneg j) (Int.natCast_nonneg k)
          intro _ _
          show sign? (UnpackedFloat.normalize _ (_ + _) _ .positive) ≠ _
          rw [normalize_sign? _ (hsum _ _)]
          exact nofun

theorem real_nonneg (hx : IsFinite x) (hu : IsUnsigned x) : 0 ≤ real x := by
  unfold IsFinite at hx
  unfold IsUnsigned at hu
  unfold real
  cases hp : parts x with
  | notANumber | infinity s =>
    rw [hp] at hx
    cases hx
  | zero s => exact (value_zero s).ge
  | finite s m e hm =>
    rw [hp] at hu
    cases s with
    | positive => exact (value_positive_pos hm).le
    | negative => exact absurd rfl hu

/-- The zero without a sign is one number. -/
theorem eq_zero_of_real (hx : IsFinite x) (hu : IsUnsigned x) (h : real x = 0) :
    parts x = .zero .positive := by
  unfold IsFinite at hx
  unfold IsUnsigned at hu
  unfold real at h
  cases hp : parts x with
  | notANumber | infinity s =>
    rw [hp] at hx
    cases hx
  | zero s =>
    cases s with
    | positive => rfl
    | negative =>
      rw [hp] at hu
      exact absurd rfl hu
  | finite s m e hm =>
    rw [hp] at h
    cases s with
    | positive => exact absurd h (value_positive_pos hm).ne'
    | negative => exact absurd h (value_negative_neg hm).ne

theorem Vec.normSq_isUnsigned (v : Vec F) : IsUnsigned v.normSq :=
  add_isUnsigned (add_isUnsigned (mul_self_isUnsigned _) (mul_self_isUnsigned _)) (mul_self_isUnsigned _)

end

/-! ### The largest of squares -/

namespace Double

variable {a b c : Float}

/-- The place of a number without a sign: an infinity is last, what is no number first. -/
noncomputable def rank (a : Float) : EReal :=
  match parts a with
  | .notANumber     => ⊥
  | .infinity _     => ⊤
  | .zero _         => 0
  | .finite s m e h => (value (.finite s m e h) : ℝ)

/-- The three kinds of numbers without a sign. -/
theorem unsigned_cases (ha : IsUnsigned a) : parts a = .notANumber ∧ rank a = ⊥ ∨
    parts a = .infinity .positive ∧ rank a = ⊤ ∨ IsFinite a ∧ rank a = (real a : ℝ) := by
  unfold IsUnsigned at ha
  unfold IsFinite rank real
  cases hp : parts a with
  | notANumber => exact .inl ⟨rfl, rfl⟩
  | zero s | finite s m e hm => exact .inr (.inr ⟨rfl, rfl⟩)
  | infinity s =>
    cases s with
    | positive => exact .inr (.inl ⟨rfl, rfl⟩)
    | negative =>
      rw [hp] at ha
      exact absurd rfl ha

theorem isNaN_iff_rank (ha : IsUnsigned a) : a.isNaN = true ↔ rank a = ⊥ := by
  have hnan : a.isNaN = true ↔ parts a = .notANumber := by
    show (parts a).isNaN = true ↔ _
    exact isNaN_iff
  rw [hnan]
  rcases unsigned_cases ha with ⟨hp, hr⟩ | ⟨hp, hr⟩ | ⟨hp, hr⟩
  · exact iff_of_true hp hr
  · exact iff_of_false (by rw [hp]; exact nofun) (by rw [hr]; exact top_ne_bot)
  · refine iff_of_false (fun h => ?_) (by rw [hr]; exact EReal.coe_ne_bot _)
    rw [IsFinite, h] at hp
    cases hp

theorem lt_iff_rank (ha : IsUnsigned a) (hb : IsUnsigned b) (hna : rank a ≠ ⊥) (hnb : rank b ≠ ⊥) :
    a < b ↔ rank a < rank b := by
  rcases unsigned_cases ha with ⟨-, hr⟩ | ⟨hp, hr⟩ | ⟨hp, hr⟩
  · exact absurd hr hna
  · refine iff_of_false ?_ (by rw [hr]; exact not_top_lt)
    rw [lt_iff', hp]
    rcases unsigned_cases hb with ⟨-, hr⟩ | ⟨hpb, -⟩ | ⟨hpb, -⟩
    · exact absurd hr hnb
    · rw [hpb]
      decide
    · unfold IsFinite at hpb
      cases hq : parts b with
      | notANumber | infinity t =>
        rw [hq] at hpb
        cases hpb
      | zero t | finite t n f hn => exact nofun
  · rcases unsigned_cases hb with ⟨-, hrb⟩ | ⟨hpb, hrb⟩ | ⟨hpb, hrb⟩
    · exact absurd hrb hnb
    · refine iff_of_true ?_ (by rw [hr, hrb]; exact EReal.coe_lt_top _)
      rw [lt_iff', hpb]
      unfold IsFinite at hp
      cases hq : parts a with
      | notANumber | infinity t =>
        rw [hq] at hp
        cases hp
      | zero t => rfl
      | finite t n f hn => cases t <;> rfl
    · rw [lt_iff hp hpb, hr, hrb, EReal.coe_lt_coe_iff]

/-- Numbers without a sign are what their rank says. -/
theorem rank_injective (ha : IsUnsigned a) (hb : IsUnsigned b) (h : rank a = rank b) : a = b := by
  refine injective ?_
  rcases unsigned_cases ha with ⟨hp, hr⟩ | ⟨hp, hr⟩ | ⟨hp, hr⟩ <;>
    rcases unsigned_cases hb with ⟨hpb, hrb⟩ | ⟨hpb, hrb⟩ | ⟨hpb, hrb⟩ <;> rw [hr, hrb] at h
  · rw [hp, hpb]
  · exact absurd h bot_ne_top
  · exact absurd h (EReal.bot_ne_coe _)
  · exact absurd h top_ne_bot
  · rw [hp, hpb]
  · exact absurd h (EReal.top_ne_coe _)
  · exact absurd h (EReal.coe_ne_bot _)
  · exact absurd h (EReal.coe_ne_top _)
  · have hreal : real a = real b := EReal.coe_injective h
    rcases eq_or_ne (real a) 0 with h0 | h0
    · rw [eq_zero_of_real hp ha h0, eq_zero_of_real hpb hb (hreal ▸ h0)]
    · exact parts_eq_of_real hp hpb hreal h0

/-- **The larger of two** is the one with the larger rank. -/
theorem rank_greatest (ha : IsUnsigned a) (hb : IsUnsigned b) :
    rank (greatest a b) = max (rank a) (rank b) ∧ IsUnsigned (greatest a b) := by
  have hna := isNaN_iff_rank ha
  have hnb := isNaN_iff_rank hb
  unfold greatest
  split
  next h => exact ⟨by rw [hnb.mp h, max_bot_right], ha⟩
  next hb' =>
    split
    next h => exact ⟨by rw [hna.mp h, max_bot_left], hb⟩
    next ha' =>
      have hlt := lt_iff_rank hb ha (fun h => hb' (hnb.mpr h)) (fun h => ha' (hna.mpr h))
      split
      next h => exact ⟨(max_eq_left (hlt.mp h).le).symm, ha⟩
      next h => exact ⟨(max_eq_right (not_lt.mp fun h' => h (hlt.mpr h'))).symm, hb⟩

/-- Of two finite ones it is the maximum. -/
theorem greatest_real (ha : IsUnsigned a) (hb : IsUnsigned b) (haf : IsFinite a) (hbf : IsFinite b) :
    IsFinite (greatest a b) ∧ real (greatest a b) = max (real a) (real b) := by
  have hcoe {a : Float} (ha : IsUnsigned a) (haf : IsFinite a) : rank a = (real a : ℝ) := by
    rcases unsigned_cases ha with ⟨hp, -⟩ | ⟨hp, -⟩ | ⟨-, hr⟩
    · rw [IsFinite, hp] at haf
      cases haf
    · rw [IsFinite, hp] at haf
      cases haf
    · exact hr
  obtain ⟨hrank, hunsigned⟩ := rank_greatest ha hb
  rw [hcoe ha haf, hcoe hb hbf, ← EReal.coe_strictMono.monotone.map_max] at hrank
  rcases unsigned_cases hunsigned with ⟨-, hr⟩ | ⟨-, hr⟩ | ⟨hp, hr⟩
  · exact absurd (hr.symm.trans hrank) (EReal.coe_ne_bot _).symm
  · exact absurd (hr.symm.trans hrank) (EReal.coe_ne_top _).symm
  · exact ⟨hp, EReal.coe_injective (hr.symm.trans hrank)⟩

/-- **The largest of three** does not depend on their order. -/
theorem greatest_reverse (ha : IsUnsigned a) (hb : IsUnsigned b) (hc : IsUnsigned c) :
    greatest (greatest a b) c = greatest (greatest c b) a := by
  obtain ⟨hab, hu⟩ := rank_greatest ha hb
  obtain ⟨habc, hu'⟩ := rank_greatest hu hc
  obtain ⟨hcb, hv⟩ := rank_greatest hc hb
  obtain ⟨hcba, hv'⟩ := rank_greatest hv ha
  refine rank_injective hu' hv' ?_
  rw [habc, hab, hcba, hcb]
  ac_rfl

end Double

/-! ### Winding -/

namespace Corners

/-- The corners, wound the other way. -/
def flip (k : Corners) : Corners := ⟨k.a, k.c, k.b⟩

theorem doubleArea_flip (k : Corners) : k.flip.doubleArea = k.doubleArea :=
  congrArg Float.sqrt (Vec.normSq_cross_comm _ _)

theorem longestSq_flip (k : Corners) : k.flip.longestSq = k.longestSq := by
  show Double.greatest (Double.greatest (k.c.widen - k.a.widen).normSq (k.b.widen - k.c.widen).normSq)
    (k.a.widen - k.b.widen).normSq = Double.greatest (Double.greatest (k.b.widen - k.a.widen).normSq
      (k.c.widen - k.b.widen).normSq) (k.a.widen - k.c.widen).normSq
  rw [Vec.normSq_sub_comm k.c.widen k.a.widen, Vec.normSq_sub_comm k.b.widen k.c.widen,
    Vec.normSq_sub_comm k.a.widen k.b.widen]
  exact Double.greatest_reverse (Vec.normSq_isUnsigned _) (Vec.normSq_isUnsigned _) (Vec.normSq_isUnsigned _)

/-- **Corners are flat either way round.** -/
theorem isFlat_flip (k : Corners) : k.flip.isFlat = k.isFlat := by
  unfold isFlat
  rw [doubleArea_flip, longestSq_flip]

end Corners

end Prims
