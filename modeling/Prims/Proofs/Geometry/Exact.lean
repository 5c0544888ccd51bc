import Prims.Geometry.Vec
import Prims.Proofs.Number.Near

/-!
# Geometry — Exact

Vectors of machine numbers beside the exact ones.  A difference of positions is exact but for one rounding
(`Follows`), a component of the cross product of two such differences is off by a multiple of the roundoff
times the larger squared length (`det_error`), and a squared length by a multiple of itself
(`normSq_error`).  Numbers of moderate size do not overflow on the way.
-/

namespace Prims

open Machine

variable {F : Type} [Machine F]

/-! ### Numbers -/

/-- The number is `X`, but for one rounding. -/
def Follows (x : F) (X : ℝ) : Prop := IsFinite x ∧ |real x - X| ≤ roundoff (format F) * |X|

section

variable [Precise F] {a b c d x y : F} {A B C D X Y K : ℝ}

/-- **Differences** are exact but for one rounding. -/
theorem sub_follows (hx : IsFinite x) (hy : IsFinite y) (h : |real x - real y| ≤ 2 ^ 127) :
    Follows (x - y) (real x - real y) := by
  have hfinite := (sub_results hx hy).finite (h.trans Precise.le_ceiling)
  exact ⟨hfinite, sub_error hfinite⟩

/-- The error of a product, from those of its factors. -/
theorem mul_follows (ha : Follows a A) (hb : Follows b B) (h : |A * B| ≤ 2 ^ 100) : IsFinite (a * b) ∧
    |real (a * b) - A * B| ≤ 16 / 5 * roundoff (format F) * |A * B| + underflow (format F) := by
  obtain ⟨hu, hu'⟩ := roundoff_bounds (F := F)
  obtain ⟨haf, ha⟩ := ha
  obtain ⟨hbf, hb⟩ := hb
  set u := roundoff (format F)
  have hB : |real b| ≤ (1 + u) * |B| := by linarith [abs_sub_abs_le_abs_sub (real b) B]
  have hexact : |real a * real b - A * B| ≤ (2 * u + u ^ 2) * |A * B| := by
    calc |real a * real b - A * B| = |(real a - A) * real b + A * (real b - B)| := by ring_nf
      _ ≤ |real a - A| * |real b| + |A| * |real b - B| := by
          rw [← abs_mul, ← abs_mul]
          exact abs_add_le _ _
      _ ≤ u * |A| * ((1 + u) * |B|) + |A| * (u * |B|) := by gcongr
      _ = (2 * u + u ^ 2) * |A * B| := by
          rw [abs_mul]
          ring
  have hsize : |real a * real b| ≤ (1 + (2 * u + u ^ 2)) * |A * B| := by
    linarith [abs_sub_abs_le_abs_sub (real a * real b) (A * B)]
  have hsmall : u ^ 2 ≤ u / 2 ^ 24 := by nlinarith
  have hfinite : IsFinite (a * b) := by
    refine (mul_results haf hbf).finite (le_trans ?_ Precise.le_ceiling)
    nlinarith [abs_nonneg (A * B)]
  refine ⟨hfinite, ?_⟩
  have herror := mul_error hfinite
  have htri := abs_sub_le (real (a * b)) (real a * real b) (A * B)
  have hround : u * |real a * real b| ≤ u * ((1 + (2 * u + u ^ 2)) * |A * B|) :=
    mul_le_mul_of_nonneg_left hsize hu.le
  have hcoefficient : u * (1 + (2 * u + u ^ 2)) + (2 * u + u ^ 2) ≤ 16 / 5 * u := by nlinarith
  have := mul_le_mul_of_nonneg_right hcoefficient (abs_nonneg (A * B))
  linarith

/-- **The error of a determinant.** -/
theorem det_error (ha : Follows a A) (hb : Follows b B) (hc : Follows c C) (hd : Follows d D)
    (h : A ^ 2 + B ^ 2 + (C ^ 2 + D ^ 2) ≤ 2 * K) (hK : K ≤ 2 ^ 60) : IsFinite (a * b - c * d) ∧
      |real (a * b - c * d) - (A * B - C * D)| ≤
        9 / 2 * roundoff (format F) * K + 3 * underflow (format F) := by
  obtain ⟨hu, hu'⟩ := roundoff_bounds (F := F)
  obtain ⟨hη, hη'⟩ := underflow_bounds (F := F)
  have hAB : 2 * |A * B| ≤ A ^ 2 + B ^ 2 := by
    rw [abs_mul, ← sq_abs A, ← sq_abs B]
    linarith [two_mul_le_add_sq |A| |B|]
  have hCD : 2 * |C * D| ≤ C ^ 2 + D ^ 2 := by
    rw [abs_mul, ← sq_abs C, ← sq_abs D]
    linarith [two_mul_le_add_sq |C| |D|]
  have hsum : |A * B| + |C * D| ≤ K := by linarith
  have hABnonneg := abs_nonneg (A * B)
  have hCDnonneg := abs_nonneg (C * D)
  obtain ⟨hpf, hp⟩ := mul_follows ha hb (by linarith)
  obtain ⟨hqf, hq⟩ := mul_follows hc hd (by linarith)
  set u := roundoff (format F)
  set η := underflow (format F)
  have hexact : |real (a * b) - real (c * d) - (A * B - C * D)| ≤ 16 / 5 * u * K + 2 * η := by
    have htri := abs_sub (real (a * b) - A * B) (real (c * d) - C * D)
    have heq : real (a * b) - real (c * d) - (A * B - C * D) =
        real (a * b) - A * B - (real (c * d) - C * D) := by ring
    have hscale : 16 / 5 * u * (|A * B| + |C * D|) ≤ 16 / 5 * u * K :=
      mul_le_mul_of_nonneg_left hsum (by positivity)
    rw [heq]
    linarith
  have hsize : |real (a * b) - real (c * d)| ≤ K + (16 / 5 * u * K + 2 * η) := by
    have htri := abs_sub_abs_le_abs_sub (real (a * b) - real (c * d)) (A * B - C * D)
    have := abs_sub (A * B) (C * D)
    linarith
  have hfinite : IsFinite (a * b - c * d) := by
    refine (sub_results hpf hqf).finite (hsize.trans (le_trans ?_ Precise.le_ceiling))
    have : u * K ≤ 1 * K := mul_le_mul_of_nonneg_right (by linarith) (by linarith)
    linarith
  refine ⟨hfinite, ?_⟩
  have herror : _ ≤ u * _ := sub_error hfinite
  have htri := abs_sub_le (real (a * b - c * d)) (real (a * b) - real (c * d)) (A * B - C * D)
  have hround : u * |real (a * b) - real (c * d)| ≤ u * (K + (16 / 5 * u * K + 2 * η)) :=
    mul_le_mul_of_nonneg_left hsize hu.le
  have huK : 0 ≤ u * K := mul_nonneg hu.le (by linarith)
  have huuK : u * (u * K) ≤ 1 / 2 ^ 24 * (u * K) := mul_le_mul_of_nonneg_right hu' huK
  have huη : u * η ≤ 1 / 2 ^ 24 * η := mul_le_mul_of_nonneg_right hu' hη.le
  linarith

/-- The error of a sum of what is not negative, from those of its terms. -/
theorem add_near {δ ε ε' : ℝ} (hX : 0 ≤ X) (hY : 0 ≤ Y) (hx : |real x - X| ≤ δ * X + ε)
    (hy : |real y - Y| ≤ δ * Y + ε') (h : IsFinite (x + y)) : |real (x + y) - (X + Y)| ≤
      (δ + roundoff (format F) * (1 + δ)) * (X + Y) + (1 + roundoff (format F)) * (ε + ε') := by
  obtain ⟨hu, -⟩ := roundoff_bounds (F := F)
  have herror := add_error h
  set u := roundoff (format F)
  have hexact : |real x + real y - (X + Y)| ≤ δ * (X + Y) + (ε + ε') := by
    calc |real x + real y - (X + Y)| = |(real x - X) + (real y - Y)| := by ring_nf
      _ ≤ |real x - X| + |real y - Y| := abs_add_le _ _
      _ ≤ δ * (X + Y) + (ε + ε') := by linarith
  have hsize : |real x + real y| ≤ (X + Y) + (δ * (X + Y) + (ε + ε')) := by
    have htri := abs_sub_abs_le_abs_sub (real x + real y) (X + Y)
    rw [abs_of_nonneg (add_nonneg hX hY)] at htri
    linarith
  have hround := mul_le_mul_of_nonneg_left hsize hu.le
  have htri := abs_sub_le (real (x + y)) (real x + real y) (X + Y)
  linarith

end

/-! ### Vectors -/

namespace Vec

variable {v : Vec F}

/-- The vector of the reals that the components stand for. -/
noncomputable def exact (v : Vec F) : Vec ℝ := v.map real

/-- All components are finite. -/
def IsFinite (v : Vec F) : Prop := Machine.IsFinite v.x ∧ Machine.IsFinite v.y ∧ Machine.IsFinite v.z

/-- The vector is `V`, but for one rounding in each component. -/
def Tracks (v : Vec F) (V : Vec ℝ) : Prop := Follows v.x V.x ∧ Follows v.y V.y ∧ Follows v.z V.z

/-- No component differs by more than `r`. -/
def Within (r : ℝ) (V W : Vec ℝ) : Prop := |V.x - W.x| ≤ r ∧ |V.y - W.y| ≤ r ∧ |V.z - W.z| ≤ r

theorem Tracks.isFinite {V : Vec ℝ} (h : v.Tracks V) : v.IsFinite := ⟨h.1.1, h.2.1.1, h.2.2.1⟩

theorem normSq_nonneg (v : Vec ℝ) : 0 ≤ v.normSq :=
  add_nonneg (add_nonneg (mul_self_nonneg v.x) (mul_self_nonneg v.y)) (mul_self_nonneg v.z)

theorem normSq_sub_swap (V W : Vec ℝ) : (V - W).normSq = (W - V).normSq := by
  show (V.x - W.x) * (V.x - W.x) + (V.y - W.y) * (V.y - W.y) + (V.z - W.z) * (V.z - W.z) =
    (W.x - V.x) * (W.x - V.x) + (W.y - V.y) * (W.y - V.y) + (W.z - V.z) * (W.z - V.z)
  ring

theorem isFinite_of_normSq (h : Machine.IsFinite v.normSq) : v.IsFinite := by
  obtain ⟨hxy, hz⟩ := finite_of_add h
  obtain ⟨hx, hy⟩ := finite_of_add hxy
  exact ⟨(finite_of_mul hx).1, (finite_of_mul hy).1, (finite_of_mul hz).1⟩

section

variable [Precise F]

/-- **The error of a squared length.** -/
theorem normSq_error (h : Machine.IsFinite v.normSq) : |real v.normSq - v.exact.normSq| ≤
    4 * roundoff (format F) * v.exact.normSq + 4 * underflow (format F) := by
  obtain ⟨hu, hu'⟩ := roundoff_bounds (F := F)
  have hη := underflow_pos (format F)
  obtain ⟨hxy, hz⟩ := finite_of_add h
  obtain ⟨hx, hy⟩ := finite_of_add hxy
  have hX := mul_self_nonneg (real v.x)
  have hY := mul_self_nonneg (real v.y)
  have hZ := mul_self_nonneg (real v.z)
  have herrorx := mul_error hx
  have herrory := mul_error hy
  have herrorz := mul_error hz
  rw [abs_mul_self] at herrorx herrory herrorz
  have herrorxy := add_near hX hY herrorx herrory hxy
  set u := roundoff (format F)
  set η := underflow (format F)
  have herrorz' : |real (v.z * v.z) - real v.z * real v.z| ≤
      (u + u * (1 + u)) * (real v.z * real v.z) + η := by
    have : 0 ≤ u * (1 + u) * (real v.z * real v.z) := by positivity
    linarith
  have hall := add_near (add_nonneg hX hY) hZ herrorxy herrorz' h
  have hsquare : u * u ≤ 1 / 2 ^ 24 * u := mul_le_mul_of_nonneg_right hu' hu.le
  have hcube : u * (u * u) ≤ 1 / 2 ^ 24 * (u * u) := mul_le_mul_of_nonneg_right hu' (by positivity)
  have hrelative : u + u * (1 + u) + u * (1 + (u + u * (1 + u))) ≤ 4 * u := by linarith
  have hproduct : u * η ≤ 1 / 2 ^ 24 * η := mul_le_mul_of_nonneg_right hu' hη.le
  have hproduct' : u * (u * η) ≤ 1 / 2 ^ 24 * (u * η) := mul_le_mul_of_nonneg_right hu' (by positivity)
  have habsolute : (1 + u) * ((1 + u) * (η + η) + η) ≤ 4 * η := by linarith
  have hscale := mul_le_mul_of_nonneg_right hrelative v.exact.normSq_nonneg
  exact hall.trans (add_le_add hscale habsolute)

/-- Squared lengths up to a quarter of the range do not overflow. -/
theorem normSq_finite (hv : v.IsFinite) (h : v.exact.normSq ≤ 2 ^ 125) : Machine.IsFinite v.normSq := by
  obtain ⟨hu, hu'⟩ := roundoff_bounds (F := F)
  obtain ⟨hη, hη'⟩ := underflow_bounds (F := F)
  have hX := mul_self_nonneg (real v.x)
  have hY := mul_self_nonneg (real v.y)
  have hZ := mul_self_nonneg (real v.z)
  have hceiling := Precise.le_ceiling (F := F)
  change real v.x * real v.x + real v.y * real v.y + real v.z * real v.z ≤ _ at h
  have hsquare {x : F} (hx : Machine.IsFinite x) (hle : real x * real x ≤ 2 ^ 125) :
      Machine.IsFinite (x * x) ∧ |real (x * x)| ≤ 2 * (real x * real x) + 1 := by
    have hfinite : Machine.IsFinite (x * x) :=
      (mul_results hx hx).finite (by rw [abs_mul_self]; linarith)
    have herror := mul_error hfinite
    rw [abs_mul_self] at herror
    have htri := abs_sub_abs_le_abs_sub (real (x * x)) (real x * real x)
    rw [abs_mul_self] at htri
    exact ⟨hfinite, by nlinarith [mul_self_nonneg (real x)]⟩
  obtain ⟨hxf, hx⟩ := hsquare hv.1 (by linarith)
  obtain ⟨hyf, hy⟩ := hsquare hv.2.1 (by linarith)
  obtain ⟨hzf, hz⟩ := hsquare hv.2.2 (by linarith)
  have hxyf : Machine.IsFinite (v.x * v.x + v.y * v.y) :=
    (add_results hxf hyf).finite (by linarith [abs_add_le (real (v.x * v.x)) (real (v.y * v.y))])
  refine (add_results hxyf hzf).finite ?_
  have herror := add_error hxyf
  have htri := abs_sub_abs_le_abs_sub (real (v.x * v.x + v.y * v.y)) (real (v.x * v.x) + real (v.y * v.y))
  have hxy := abs_add_le (real (v.x * v.x)) (real (v.y * v.y))
  have hround : roundoff (format F) * |real (v.x * v.x) + real (v.y * v.y)| ≤
      1 / 2 ^ 24 * |real (v.x * v.x) + real (v.y * v.y)| := mul_le_mul_of_nonneg_right hu' (abs_nonneg _)
  linarith [abs_add_le (real (v.x * v.x + v.y * v.y)) (real (v.z * v.z))]

/-! ### Edges -/

variable {p q d e : Vec F} {D E : Vec ℝ} {K : ℝ}

/-- **Edges** are exact but for one rounding. -/
theorem sub_tracks (hp : p.IsFinite) (hq : q.IsFinite) (h : (p.exact - q.exact).normSq ≤ 2 ^ 60) :
    (p - q).Tracks (p.exact - q.exact) := by
  change (real p.x - real q.x) * (real p.x - real q.x) + (real p.y - real q.y) * (real p.y - real q.y) +
    (real p.z - real q.z) * (real p.z - real q.z) ≤ _ at h
  have hx := mul_self_nonneg (real p.x - real q.x)
  have hy := mul_self_nonneg (real p.y - real q.y)
  have hz := mul_self_nonneg (real p.z - real q.z)
  have hside {X : ℝ} (hX : X * X ≤ 2 ^ 60) : |X| ≤ 2 ^ 127 :=
    (abs_le_of_sq_le_sq (by linarith [sq X]) (by norm_num) : |X| ≤ 2 ^ 30).trans (by norm_num)
  exact ⟨sub_follows hp.1 hq.1 (hside (by linarith)), sub_follows hp.2.1 hq.2.1 (hside (by linarith)),
    sub_follows hp.2.2 hq.2.2 (hside (by linarith))⟩

/-- **The error of a cross product** of edges. -/
theorem Tracks.cross (hd : d.Tracks D) (he : e.Tracks E) (hD : D.normSq ≤ K) (hE : E.normSq ≤ K)
    (hK : K ≤ 2 ^ 60) : (d.cross e).IsFinite ∧
      Within (9 / 2 * roundoff (format F) * K + 3 * underflow (format F)) (d.cross e).exact (D.cross E) := by
  obtain ⟨hdx, hdy, hdz⟩ := hd
  obtain ⟨hex, hey, hez⟩ := he
  unfold normSq at hD hE
  have hsides : D.x ^ 2 + D.y ^ 2 + D.z ^ 2 + (E.x ^ 2 + E.y ^ 2 + E.z ^ 2) ≤ 2 * K := by linarith
  have hDx := sq_nonneg D.x
  have hDy := sq_nonneg D.y
  have hDz := sq_nonneg D.z
  have hEx := sq_nonneg E.x
  have hEy := sq_nonneg E.y
  have hEz := sq_nonneg E.z
  obtain ⟨hxf, hx⟩ := det_error hdy hez hdz hey (by linarith) hK
  obtain ⟨hyf, hy⟩ := det_error hdz hex hdx hez (by linarith) hK
  obtain ⟨hzf, hz⟩ := det_error hdx hey hdy hex (by linarith) hK
  exact ⟨⟨hxf, hyf, hzf⟩, hx, hy, hz⟩

/-- **The error of the squared length** of an edge. -/
theorem Tracks.normSq (hd : d.Tracks D) (hD : D.normSq ≤ 2 ^ 60) : Machine.IsFinite d.normSq ∧
    |real d.normSq - D.normSq| ≤ 7 * roundoff (format F) * D.normSq + 4 * underflow (format F) := by
  obtain ⟨hu, hu'⟩ := roundoff_bounds (F := F)
  obtain ⟨⟨-, hx⟩, ⟨-, hy⟩, ⟨-, hz⟩⟩ := id hd
  have hsquare {x X : ℝ} (h : |x - X| ≤ roundoff (format F) * |X|) :
      |x * x - X * X| ≤ 9 / 4 * roundoff (format F) * (X * X) := by
    have hsum : |x + X| ≤ (2 + roundoff (format F)) * |X| := by
      have htri := abs_add_le (x - X) (2 * X)
      rw [abs_mul, abs_two, show x - X + 2 * X = x + X by ring] at htri
      linarith
    calc |x * x - X * X| = |x - X| * |x + X| := by rw [← abs_mul]; ring_nf
      _ ≤ roundoff (format F) * |X| * ((2 + roundoff (format F)) * |X|) := by gcongr
      _ = roundoff (format F) * (2 + roundoff (format F)) * (X * X) := by
          rw [← abs_mul_abs_self X]
          ring
      _ ≤ 9 / 4 * roundoff (format F) * (X * X) :=
          mul_le_mul_of_nonneg_right (by nlinarith) (mul_self_nonneg X)
  have hexact : |d.exact.normSq - D.normSq| ≤ 9 / 4 * roundoff (format F) * D.normSq := by
    have hx' := abs_le.mp (hsquare hx)
    have hy' := abs_le.mp (hsquare hy)
    have hz' := abs_le.mp (hsquare hz)
    change |real d.x * real d.x + real d.y * real d.y + real d.z * real d.z -
      (D.x * D.x + D.y * D.y + D.z * D.z)| ≤ _ * (D.x * D.x + D.y * D.y + D.z * D.z)
    refine abs_le.mpr ⟨?_, ?_⟩ <;> linarith
  have hnonneg := D.normSq_nonneg
  have hsize : d.exact.normSq ≤ 2 * D.normSq := by
    have := abs_le.mp hexact
    nlinarith
  have hfinite := normSq_finite hd.isFinite (by linarith)
  refine ⟨hfinite, ?_⟩
  have herror := normSq_error hfinite
  have htri := abs_sub_le (real d.normSq) d.exact.normSq D.normSq
  have hround : roundoff (format F) * d.exact.normSq ≤
      roundoff (format F) * ((1 + 9 / 4 * roundoff (format F)) * D.normSq) :=
    mul_le_mul_of_nonneg_left (by linarith [(abs_le.mp hexact).2]) hu.le
  have huu : roundoff (format F) * (roundoff (format F) * D.normSq) ≤
      1 / 2 ^ 24 * (roundoff (format F) * D.normSq) :=
    mul_le_mul_of_nonneg_right hu' (mul_nonneg hu.le hnonneg)
  have huD := mul_nonneg hu.le hnonneg
  linarith

end

end Vec

end Prims
