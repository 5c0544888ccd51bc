import Mathlib.Data.List.Forall2
import Prims.Proofs.Geometry.Direction
import Prims.Proofs.Number.Units
import Prims.Proofs.Sphere.Subdivision

/-!
# Sphere — Depth

How deep faces are split.  The corners are on the sphere but for roundings (`OnSphere`), and so is the point
that a midpoint is pushed out to (`OnSphere.midpoint_drawn`).  Points drawn from the origin onto the sphere
move apart by no more than the way that they go out (`Vec.normSq_sub_scale_le`), so with edges up to `√(7/25)`
a split leaves edges of three fifths the length (`Short.quarter`), and a face is fine after as many splits as
it takes to get below the bound (`exists_subdivides`).  The faces of the icosahedron take two
(`unitFaces_subdivides`).
-/

namespace Prims

open Float.Model Machine Single

/-! ### Drawing onto a sphere -/

namespace Vec

variable {P Q V W p q : Vec ℝ} {m n κ η : ℝ}

/-- The way between two vectors that are drawn out, or in, to length one half. -/
theorem normSq_sub_scale_le (hm : 2 / 5 ≤ m) (hm' : m ≤ 3 / 5) (hn : 2 / 5 ≤ n) (hn' : n ≤ 3 / 5)
    (hV : |m ^ 2 - V.normSq| ≤ κ) (hW : |n ^ 2 - W.normSq| ≤ κ) :
    (V.scale (1 / (2 * m)) - W.scale (1 / (2 * n))).normSq ≤ ((V - W).normSq + κ) / (4 * (m * n)) := by
  have hquotient {m : ℝ} {V : Vec ℝ} (hm : 2 / 5 ≤ m) (hV : |m ^ 2 - V.normSq| ≤ κ) :
      |m - V.normSq / m| ≤ 5 / 2 * κ := by
    have hpos : 0 < m := by linarith
    rw [sub_div' hpos.ne', ← sq, abs_div, abs_of_pos hpos, div_le_iff₀ hpos]
    nlinarith [abs_nonneg (m ^ 2 - V.normSq)]
  have hmpos : 0 < m := by linarith
  have hnpos : 0 < n := by linarith
  have hexpand : (V.scale (1 / (2 * m)) - W.scale (1 / (2 * n))).normSq * (4 * (m * n)) =
      (V - W).normSq + (n - m) * (V.normSq / m - W.normSq / n) := by
    show ((V.x * (1 / (2 * m)) - W.x * (1 / (2 * n))) * (V.x * (1 / (2 * m)) - W.x * (1 / (2 * n))) +
      (V.y * (1 / (2 * m)) - W.y * (1 / (2 * n))) * (V.y * (1 / (2 * m)) - W.y * (1 / (2 * n))) +
      (V.z * (1 / (2 * m)) - W.z * (1 / (2 * n))) * (V.z * (1 / (2 * m)) - W.z * (1 / (2 * n)))) * _ =
      (V.x - W.x) * (V.x - W.x) + (V.y - W.y) * (V.y - W.y) + (V.z - W.z) * (V.z - W.z) +
      (n - m) * ((V.x * V.x + V.y * V.y + V.z * V.z) / m - (W.x * W.x + W.y * W.y + W.z * W.z) / n)
    field_simp
    ring
  -- the lengths that are used differ little, and each is close to the true one
  have hcross : (n - m) * (n - W.normSq / n - (m - V.normSq / m)) ≤ κ := by
    calc (n - m) * (n - W.normSq / n - (m - V.normSq / m))
        ≤ |n - m| * |n - W.normSq / n - (m - V.normSq / m)| := by
          rw [← abs_mul]
          exact le_abs_self _
      _ ≤ 1 / 5 * (5 / 2 * κ + 5 / 2 * κ) := by
          refine mul_le_mul (abs_le.mpr ⟨by linarith, by linarith⟩) ?_ (abs_nonneg _) (by norm_num)
          exact (abs_sub _ _).trans (add_le_add (hquotient hn hW) (hquotient hm hV))
      _ = κ := by ring
  have hsplit : (n - m) * (V.normSq / m - W.normSq / n) =
      (n - m) * (n - W.normSq / n - (m - V.normSq / m)) - (n - m) ^ 2 := by ring
  rw [le_div_iff₀ (by positivity), hexpand, hsplit]
  linarith [sq_nonneg (n - m)]

theorem abs_le_of_normSq_le {r : ℝ} (hr : 0 ≤ r) (h : V.normSq ≤ r ^ 2) : |V.x| ≤ r ∧ |V.y| ≤ r ∧ |V.z| ≤ r := by
  change V.x * V.x + V.y * V.y + V.z * V.z ≤ _ at h
  have hx := mul_self_nonneg V.x
  have hy := mul_self_nonneg V.y
  have hz := mul_self_nonneg V.z
  refine ⟨abs_le_of_sq_le_sq ?_ hr, abs_le_of_sq_le_sq ?_ hr, abs_le_of_sq_le_sq ?_ hr⟩ <;> linarith

/-- Squared lengths of vectors that are close. -/
theorem abs_normSq_sub_le {r : ℝ} (h : p.Within η P) (hr : 0 ≤ r) (hP : P.normSq ≤ r ^ 2) :
    |p.normSq - P.normSq| ≤ 3 * (η * (2 * r + η)) := by
  obtain ⟨hx, hy, hz⟩ := h
  obtain ⟨hPx, hPy, hPz⟩ := abs_le_of_normSq_le hr hP
  have hsquare {X Y : ℝ} (h : |X - Y| ≤ η) (hY : |Y| ≤ r) : |X * X - Y * Y| ≤ η * (2 * r + η) := by
    have hsum : |X + Y| ≤ 2 * r + η := by
      have htri := abs_add_le (X - Y) (2 * Y)
      rw [abs_mul, abs_two, show X - Y + 2 * Y = X + Y by ring] at htri
      linarith
    calc |X * X - Y * Y| = |X - Y| * |X + Y| := by rw [← abs_mul]; ring_nf
      _ ≤ η * (2 * r + η) := mul_le_mul h hsum (abs_nonneg _) ((abs_nonneg _).trans h)
  have hx := abs_le.mp (hsquare hx hPx)
  have hy := abs_le.mp (hsquare hy hPy)
  have hz := abs_le.mp (hsquare hz hPz)
  show |p.x * p.x + p.y * p.y + p.z * p.z - (P.x * P.x + P.y * P.y + P.z * P.z)| ≤ _
  exact abs_le.mpr ⟨by linarith, by linarith⟩

theorem Within.sub (hp : p.Within η P) (hq : q.Within η Q) : (p - q).Within (2 * η) (P - Q) := by
  have hside {x y X Y : ℝ} (hx : |x - X| ≤ η) (hy : |y - Y| ≤ η) : |x - y - (X - Y)| ≤ 2 * η := by
    calc |x - y - (X - Y)| = |x - X - (y - Y)| := by ring_nf
      _ ≤ |x - X| + |y - Y| := abs_sub _ _
      _ ≤ 2 * η := by linarith
  exact ⟨hside hp.1 hq.1, hside hp.2.1 hq.2.1, hside hp.2.2 hq.2.2⟩

end Vec

namespace Sphere

/-! ### Midpoints in singles -/

theorem real_half : Machine.IsFinite (0.5 : Float32) ∧ real (0.5 : Float32) = 1 / 2 := by
  have hparts : parts (0.5 : Float32) = .finite .positive (2 ^ 23) (-24) (by decide) := by rfl
  exact exact_of_parts hparts (by norm_num [unit])

/-- Half of a number of moderate size. -/
theorem mul_half_near {x : Float32} {v ε : ℝ} (hx : Near x v ε) (h : |v| + ε ≤ 2) :
    Near (x * 0.5) (v / 2) (ε / 2 + 1 / 10 ^ 7) := by
  have hhalf : |(1 / 2 : ℝ)| ≤ 1 / 2 := (abs_of_pos (by norm_num)).le
  have hmul := hx.mul (.exact real_half.1 real_half.2) le_rfl hhalf (by linarith)
  rw [roundoff_format, underflow_format] at hmul
  rw [div_eq_mul_one_div v]
  exact hmul.mono (by linarith)

/-- Half of a sum. -/
theorem half_sum_near {x y : Float32} (hx : Machine.IsFinite x) (hy : Machine.IsFinite y)
    (hX : |real x| ≤ 51 / 100) (hY : |real y| ≤ 51 / 100) :
    Near ((x + y) * 0.5) ((real x + real y) / 2) (2 / 10 ^ 7) := by
  have hsize := abs_add_le (real x) (real y)
  have hfinite : Machine.IsFinite (x + y) := by
    refine (add_results hx hy).finite (hsize.trans ?_)
    rw [Single.ceiling_format]
    linarith
  have herror := add_error hfinite
  rw [roundoff_format] at herror
  have hnear : Near (x + y) (real x + real y) (1 / 10 ^ 7) := ⟨hfinite, by linarith⟩
  exact (mul_half_near hnear (by linarith)).mono (by norm_num)

/-- The point is finite and on the sphere, but for roundings. -/
structure OnSphere (p : Point) : Prop where
  finite : p.IsFinite
  error  : |p.exact.normSq - 1 / 4| ≤ 1 / 10 ^ 5

/-- The point is a vector drawn from the origin onto the sphere, but for roundings.  The vector counts as one
of length `m`, which is its length up to `κ`. -/
structure Drawn (κ : ℝ) (p : Point) (V : Vec ℝ) (m : ℝ) : Prop where
  finite : p.IsFinite
  least  : 53 / 125 ≤ m
  most   : m ≤ 3 / 5
  length : |m ^ 2 - V.normSq| ≤ κ
  near   : p.exact.Within (1 / 10 ^ 6) (V.scale (1 / (2 * m)))

variable {a b p q : Point} {V W : Vec ℝ} {m n κ : ℝ}

/-- Halfway between two points. -/
noncomputable def middle (a b : Point) : Vec ℝ := (a.exact + b.exact).scale (1 / (2 : ℕ))

theorem middle_comm (a b : Point) : middle a b = middle b a := by
  show (⟨_, _, _⟩ : Vec ℝ) = ⟨_, _, _⟩
  congr 1 <;> exact congrArg (· * (1 / 2)) (add_comm _ _)

theorem normSq_middle_sub (a b c : Point) :
    (middle a b - middle a c).normSq = (b.exact - c.exact).normSq / 4 := by
  show ((_ + _) * (1 / 2) - (_ + _) * (1 / 2)) * ((_ + _) * (1 / 2) - (_ + _) * (1 / 2)) +
    ((_ + _) * (1 / 2) - (_ + _) * (1 / 2)) * ((_ + _) * (1 / 2) - (_ + _) * (1 / 2)) +
    ((_ + _) * (1 / 2) - (_ + _) * (1 / 2)) * ((_ + _) * (1 / 2) - (_ + _) * (1 / 2)) =
    ((_ - _) * (_ - _) + (_ - _) * (_ - _) + (_ - _) * (_ - _)) / 4
  ring

theorem normSq_middle (a b : Point) : (middle a b).normSq =
    a.exact.normSq / 2 + b.exact.normSq / 2 - (a.exact - b.exact).normSq / 4 := by
  show (_ + _) * (1 / 2) * ((_ + _) * (1 / 2)) + (_ + _) * (1 / 2) * ((_ + _) * (1 / 2)) +
    (_ + _) * (1 / 2) * ((_ + _) * (1 / 2)) = (_ * _ + _ * _ + _ * _) / 2 + (_ * _ + _ * _ + _ * _) / 2 -
    ((_ - _) * (_ - _) + (_ - _) * (_ - _) + (_ - _) * (_ - _)) / 4
  ring

theorem OnSphere.middle_near (ha : OnSphere a) (hb : OnSphere b) : ((a + b).scale 0.5).IsFinite ∧
    ((a + b).scale 0.5).exact.Within (2 / 10 ^ 7) (middle a b) := by
  have hside {p : Point} (hp : OnSphere p) : |real p.x| ≤ 51 / 100 ∧ |real p.y| ≤ 51 / 100 ∧
      |real p.z| ≤ 51 / 100 :=
    Vec.abs_le_of_normSq_le (V := p.exact) (by norm_num) (by linarith [(abs_le.mp hp.error).2])
  obtain ⟨hax, hay, haz⟩ := hside ha
  obtain ⟨hbx, hby, hbz⟩ := hside hb
  have hx := half_sum_near ha.finite.1 hb.finite.1 hax hbx
  have hy := half_sum_near ha.finite.2.1 hb.finite.2.1 hay hby
  have hz := half_sum_near ha.finite.2.2 hb.finite.2.2 haz hbz
  simp only [div_eq_mul_one_div (_ + _)] at hx hy hz
  exact ⟨⟨hx.finite, hy.finite, hz.finite⟩, hx.error, hy.error, hz.error⟩

/-- **Midpoints are drawn onto the sphere.** -/
theorem OnSphere.midpoint_drawn (ha : OnSphere a) (hb : OnSphere b)
    (hab : (a.exact - b.exact).normSq ≤ 7 / 25) :
    ∃ m, Drawn (1 / 10 ^ 6) (radialMidpoint a b) (middle a b) m := by
  obtain ⟨hfinite, hnear⟩ := ha.middle_near hb
  have hA := abs_le.mp ha.error
  have hB := abs_le.mp hb.error
  have hmiddle := normSq_middle a b
  have hnonneg := (a.exact - b.exact).normSq_nonneg
  set v := (a + b).scale 0.5
  have hexact := Vec.abs_normSq_sub_le hnear (r := 51 / 100) (by norm_num) (by linarith)
  have hlength := Vec.normSq_finite hfinite (by linarith [(abs_le.mp hexact).2])
  have hsquare := Vec.normSq_error hlength
  rw [roundoff_format, underflow_format] at hsquare
  have hexact' := abs_le.mp hexact
  have hsquare' := abs_le.mp hsquare
  have hmeasurable : Point.Measurable v := Point.measurable_iff.mpr ⟨hlength, by linarith⟩
  obtain ⟨hpos, -, -⟩ := hmeasurable.norm_bounds
  have hnorm := abs_le.mp hmeasurable.sq_norm_error
  obtain ⟨hx, hy, hz⟩ := hmeasurable.sq_le
  set n := real (Point.norm v)
  have hn : |n ^ 2 - (middle a b).normSq| ≤ 1 / 10 ^ 6 := abs_le.mpr ⟨by linarith, by linarith⟩
  have hn' := abs_le.mp hn
  have hleast : 53 / 125 ≤ n := le_of_sq_le_sq (by linarith) hpos.le
  have hmost : n ≤ 3 / 5 := le_of_sq_le_sq (by linarith) (by norm_num)
  have hcoordinate {x : Float32} {X : ℝ} (hxf : Machine.IsFinite x) (hx : real x ^ 2 ≤ 4 * real v.normSq)
      (hX : |X| ≤ 51 / 100) (hxX : |real x - X| ≤ 2 / 10 ^ 7) :
      Near (x / Point.norm v * radius) (X * (1 / (2 * n))) (1 / 10 ^ 6) := by
    obtain ⟨hquotient, hthree, herror⟩ := hmeasurable.quotient hxf hx
    have hdrawn : |real x / n - X / n| ≤ 5 / 10 ^ 7 := by
      rw [← sub_div, abs_div, abs_of_pos hpos, div_le_iff₀ hpos]
      linarith
    have hsize : |X / n| ≤ 5 / 4 := by
      rw [abs_div, abs_of_pos hpos, div_le_iff₀ hpos]
      linarith
    have hnear : Near (x / Point.norm v) (X / n) (7 / 10 ^ 7) :=
      ⟨hquotient, (abs_sub_le _ (real x / n) _).trans (by linarith)⟩
    have hhalf : X * (1 / (2 * n)) = X / n / 2 := by
      field_simp
    rw [hhalf]
    exact (mul_half_near hnear (by linarith)).mono (by norm_num)
  obtain ⟨hX, hY, hZ⟩ := Vec.abs_le_of_normSq_le (V := middle a b) (r := 51 / 100) (by norm_num) (by linarith)
  have hx := hcoordinate hfinite.1 hx hX hnear.1
  have hy := hcoordinate hfinite.2.1 hy hY hnear.2.1
  have hz := hcoordinate hfinite.2.2 hz hZ hnear.2.2
  exact ⟨n, ⟨hx.finite, hy.finite, hz.finite⟩, hleast, hmost, hn, hx.error, hy.error, hz.error⟩

/-- What is drawn onto the sphere is on it. -/
theorem Drawn.onSphere (h : Drawn (1 / 10 ^ 6) p V m) : OnSphere p := by
  have hleast := h.least
  have hsq : 719 / 1000 ≤ 4 * m ^ 2 := by nlinarith
  have hscale : (V.scale (1 / (2 * m))).normSq = V.normSq / (4 * m ^ 2) := by
    show V.x * (1 / (2 * m)) * (V.x * (1 / (2 * m))) + V.y * (1 / (2 * m)) * (V.y * (1 / (2 * m))) +
      V.z * (1 / (2 * m)) * (V.z * (1 / (2 * m))) = (V.x * V.x + V.y * V.y + V.z * V.z) / (4 * m ^ 2)
    field_simp
    ring
  have hlength : |(V.scale (1 / (2 * m))).normSq - 1 / 4| ≤ 2 / 10 ^ 6 := by
    have hquotient : V.normSq / (4 * m ^ 2) - 1 / 4 = (V.normSq - m ^ 2) / (4 * m ^ 2) := by
      field_simp
    rw [hscale, hquotient, abs_div, abs_of_pos (by positivity : 0 < 4 * m ^ 2), abs_sub_comm,
      div_le_iff₀ (by positivity)]
    linarith [h.length]
  have hlength' := abs_le.mp hlength
  have hnear := abs_le.mp (Vec.abs_normSq_sub_le h.near (r := 51 / 100) (by norm_num) (by linarith))
  exact ⟨h.finite, abs_le.mpr ⟨by linarith, by linarith⟩⟩

/-- A point of the sphere is drawn from itself. -/
theorem OnSphere.drawn (h : OnSphere p) : Drawn (1 / 10 ^ 5) p (middle p p) (1 / 2) := by
  have hself (x : Float32) : (real x + real x) * (1 / 2) = real x := by ring
  have hmiddle : middle p p = p.exact := by
    show (⟨_, _, _⟩ : Vec ℝ) = ⟨_, _, _⟩
    congr 1
    · exact hself p.x
    · exact hself p.y
    · exact hself p.z
  rw [hmiddle]
  refine ⟨h.finite, by norm_num, by norm_num, ?_, ?_⟩
  · rw [abs_sub_comm]
    convert h.error using 2
    norm_num
  · have hone (x : Float32) : |real x - real x * (1 / (2 * (1 / 2)))| ≤ 1 / 10 ^ 6 := by norm_num
    exact ⟨hone p.x, hone p.y, hone p.z⟩

theorem Drawn.mono (h : Drawn (1 / 10 ^ 6) p V m) : Drawn (1 / 10 ^ 5) p V m :=
  { h with length := h.length.trans (by norm_num) }

/-- **Points drawn onto the sphere** are apart by less than three fifths of twice the way between the vectors. -/
theorem Drawn.normSq_sub_le (hp : Drawn (1 / 10 ^ 5) p V m) (hq : Drawn (1 / 10 ^ 5) q W n) {E : ℝ}
    (hE : 37 / 1000 ≤ E) (hE' : E ≤ 7 / 25) (h : (V - W).normSq ≤ E / 4) :
    (p.exact - q.exact).normSq ≤ 9 / 25 * E := by
  have hm := hp.least
  have hn := hq.least
  have hexact := Vec.normSq_sub_scale_le (by linarith) hp.most (by linarith) hq.most hp.length hq.length
  have hmn : 719 / 1000 ≤ 4 * (m * n) := by nlinarith
  have hbound : ((V - W).normSq + 1 / 10 ^ 5) / (4 * (m * n)) ≤ 7 / 20 * E := by
    rw [div_le_iff₀ (by positivity)]
    nlinarith
  have hnear := Vec.abs_normSq_sub_le (hp.near.sub hq.near) (r := 1) (by norm_num) (by linarith)
  linarith [(abs_le.mp hnear).2]

/-! ### Splits -/

/-- Corners on the sphere with edges whose squares are at most `E`. -/
structure Short (E : ℝ) (k : Corners) : Prop where
  a  : OnSphere k.a
  b  : OnSphere k.b
  c  : OnSphere k.c
  ab : (k.a.exact - k.b.exact).normSq ≤ E
  bc : (k.b.exact - k.c.exact).normSq ≤ E
  ca : (k.c.exact - k.a.exact).normSq ≤ E

variable {k : Corners} {E : ℝ}

/-- **One split** leaves edges of three fifths the length. -/
theorem Short.quarter (h : Short E k) (hE : 37 / 1000 ≤ E) (hE' : E ≤ 7 / 25) (i : Fin 4) :
    Short (9 / 25 * E) (quarter k i) := by
  obtain ⟨ha, hb, hc, hab, hbc, hca⟩ := h
  obtain ⟨m, hm⟩ := ha.midpoint_drawn hb (hab.trans hE')
  obtain ⟨n, hn⟩ := hb.midpoint_drawn hc (hbc.trans hE')
  obtain ⟨l, hl⟩ := hc.midpoint_drawn ha (hca.trans hE')
  -- two vectors halfway from one corner differ by half of an edge
  have hedge {p q r P Q : Point} {m n : ℝ} (hP : Drawn (1 / 10 ^ 5) P (middle p q) m)
      (hQ : Drawn (1 / 10 ^ 5) Q (middle p r) n) (hqr : (q.exact - r.exact).normSq ≤ E) :
      (P.exact - Q.exact).normSq ≤ 9 / 25 * E :=
    hP.normSq_sub_le hQ hE hE' (by rw [normSq_middle_sub]; linarith)
  have hm₁ := hm.mono
  have hn₁ := hn.mono
  have hl₁ := hl.mono
  have hm₂ := middle_comm k.a k.b ▸ hm₁
  have hn₂ := middle_comm k.b k.c ▸ hn₁
  have hl₂ := middle_comm k.c k.a ▸ hl₁
  match i with
  | 0 => exact ⟨ha, hm.onSphere, hl.onSphere, hedge ha.drawn hm₁ hab, hedge hm₁ hl₂ hbc, hedge hl₂ ha.drawn hca⟩
  | 1 => exact ⟨hm.onSphere, hb, hn.onSphere, hedge hm₂ hb.drawn hab, hedge hb.drawn hn₁ hbc, hedge hn₁ hm₂ hca⟩
  | 2 => exact ⟨hl.onSphere, hn.onSphere, hc, hedge hl₁ hn₂ hab, hedge hn₂ hc.drawn hbc, hedge hc.drawn hl₁ hca⟩
  | 3 =>
    rw [Vec.normSq_sub_swap] at hab hbc hca
    exact ⟨hm.onSphere, hn.onSphere, hl.onSphere, hedge hm₂ hn₁ hca, hedge hn₂ hl₁ hab, hedge hl₂ hm₁ hbc⟩

theorem real_longestEdge : Machine.IsFinite longestEdge ∧ 1 / 5 ≤ real longestEdge := by
  have hparts : parts longestEdge = .finite .positive 13421773 (-26) (by decide) := by rfl
  obtain ⟨hfinite, hreal⟩ := exact_of_parts hparts rfl
  refine ⟨hfinite, ?_⟩
  rw [hreal, unit]
  norm_num

theorem norm_sub_lt (ha : OnSphere a) (hb : OnSphere b) (h : (a.exact - b.exact).normSq ≤ 37 / 1000) :
    Point.norm (a - b) < longestEdge := by
  obtain ⟨hlongest, hlong⟩ := real_longestEdge
  have hnonneg := (a.exact - b.exact).normSq_nonneg
  obtain ⟨hsquare, herror⟩ := (Vec.sub_tracks ha.finite hb.finite (by linarith)).normSq (by linarith)
  rw [roundoff_format, underflow_format] at herror
  have hroot : √(real (a - b).normSq) ≤ 193 / 1000 :=
    Real.sqrt_le_iff.mpr ⟨by norm_num, by linarith [(abs_le.mp herror).2]⟩
  have hresults : Results √(real (a - b).normSq) (Point.norm (a - b)) :=
    sqrt_results hsquare (real_nonneg hsquare (Vec.normSq_isUnsigned _))
  have hfinite : Machine.IsFinite (Point.norm (a - b)) := by
    refine hresults.finite ?_
    rw [abs_of_nonneg (Real.sqrt_nonneg _), Single.ceiling_format]
    linarith
  have hround := hresults.error hfinite
  rw [abs_of_nonneg (Real.sqrt_nonneg _), roundoff_format, underflow_format] at hround
  rw [lt_iff hfinite hlongest]
  linarith [(abs_le.mp hround).2]

theorem Short.mono {E' : ℝ} (h : Short E k) (hE : E ≤ E') : Short E' k :=
  { h with ab := h.ab.trans hE, bc := h.bc.trans hE, ca := h.ca.trans hE }

theorem Short.isFine (h : Short (37 / 1000) k) : isFine k = true := by
  rw [Sphere.isFine, Bool.and_eq_true, Bool.and_eq_true]
  exact ⟨⟨decide_eq_true (norm_sub_lt h.a h.b h.ab), decide_eq_true (norm_sub_lt h.b h.c h.bc)⟩,
    decide_eq_true (norm_sub_lt h.c h.a h.ca)⟩

/-- **Splits end** when they have made the edges short. -/
theorem exists_subdivides (n : ℕ) (h : Short E k) (hE : E ≤ 7 / 25) (hn : E * (9 / 25) ^ n ≤ 37 / 1000) :
    ∃ s, Subdivides k s ∧ s.height ≤ n := by
  induction n generalizing k E with
  | zero =>
    rw [pow_zero, mul_one] at hn
    exact ⟨.face k, .face (h.mono hn).isFine, Nat.le_refl 0⟩
  | succ n ih =>
    cases hk : isFine k with
    | true => exact ⟨.face k, .face hk, Nat.zero_le _⟩
    | false =>
      have hcoarse : 37 / 1000 ≤ E := by
        by_contra hlt
        exact Bool.false_ne_true (hk.symm.trans (h.mono (not_le.mp hlt).le).isFine)
      have hquarter (i : Fin 4) : ∃ s, Subdivides (Sphere.quarter k i) s ∧ s.height ≤ n := by
        refine ih (h.quarter hcoarse hE i) (by linarith) ?_
        rw [mul_comm (9 / 25) E, mul_assoc, ← pow_succ']
        exact hn
      obtain ⟨s, hs, hs'⟩ := hquarter 0
      obtain ⟨t, ht, ht'⟩ := hquarter 1
      obtain ⟨u, hu, hu'⟩ := hquarter 2
      obtain ⟨v, hv, hv'⟩ := hquarter 3
      exact ⟨.split s t u v, .split hk hs ht hu hv, by rw [Subdivision.height]; omega⟩

/-! ### The icosahedron -/

/-- The coordinates in units; those that are not finite count as zero. -/
def units (p : Point) : Vec ℤ := p.map fun x => (units? x).getD 0

/-- The point is on the sphere, in units. -/
def OnSphereInUnits (p : Point) : Prop :=
  p.all (fun x => (units? x).isSome) = true ∧
    10 ^ 5 * |4 * (units p).normSq - (unitsPerOne : ℤ) ^ 2| ≤ 4 * (unitsPerOne : ℤ) ^ 2

/-- The edge is short enough for splits to end, in units. -/
def ShortInUnits (p q : Point) : Prop := 25 * (units p - units q).normSq ≤ 7 * (unitsPerOne : ℤ) ^ 2

instance : DecidablePred OnSphereInUnits := fun _ => inferInstanceAs (Decidable (_ ∧ _))

instance (p q : Point) : Decidable (ShortInUnits p q) := Int.decLe _ _

/-- A vector of units as the reals that they stand for. -/
noncomputable def ofUnits (v : Vec ℤ) : Vec ℝ := v.map fun k : ℤ => (k : ℝ) / unitsPerOne

theorem normSq_ofUnits (v : Vec ℤ) : (ofUnits v).normSq = v.normSq / unitsPerOne ^ 2 := by
  show v.x / unitsPerOne * (v.x / unitsPerOne) + v.y / unitsPerOne * (v.y / unitsPerOne) +
    v.z / unitsPerOne * (v.z / unitsPerOne) = ((v.x * v.x + v.y * v.y + v.z * v.z : ℤ) : ℝ) / unitsPerOne ^ 2
  push_cast
  ring

theorem normSq_ofUnits_sub (v w : Vec ℤ) :
    (ofUnits v - ofUnits w).normSq = (v - w).normSq / unitsPerOne ^ 2 := by
  rw [← normSq_ofUnits]
  show (_ / _ - _ / _) * (_ / _ - _ / _) + (_ / _ - _ / _) * (_ / _ - _ / _) +
    (_ / _ - _ / _) * (_ / _ - _ / _) = ((v.x - w.x : ℤ) : ℝ) / unitsPerOne * (((v.x - w.x : ℤ) : ℝ) / unitsPerOne) +
    ((v.y - w.y : ℤ) : ℝ) / unitsPerOne * (((v.y - w.y : ℤ) : ℝ) / unitsPerOne) +
    ((v.z - w.z : ℤ) : ℝ) / unitsPerOne * (((v.z - w.z : ℤ) : ℝ) / unitsPerOne)
  push_cast
  ring

theorem exact_eq_ofUnits {p : Point} (h : p.all (fun x => (units? x).isSome) = true) :
    p.IsFinite ∧ p.exact = ofUnits (units p) := by
  have hcoordinate {x : Float32} (hx : (units? x).isSome = true) :
      Machine.IsFinite x ∧ real x = (units? x).getD 0 / unitsPerOne := by
    obtain ⟨k, hk⟩ := Option.isSome_iff_exists.mp hx
    rw [hk]
    exact units?_eq_some_iff.mp hk
  simp only [Vec.all, Bool.and_eq_true] at h
  obtain ⟨⟨hx, hy⟩, hz⟩ := h
  obtain ⟨hxf, hx⟩ := hcoordinate hx
  obtain ⟨hyf, hy⟩ := hcoordinate hy
  obtain ⟨hzf, hz⟩ := hcoordinate hz
  refine ⟨⟨hxf, hyf, hzf⟩, ?_⟩
  show (⟨real p.x, real p.y, real p.z⟩ : Vec ℝ) = _
  rw [hx, hy, hz]
  rfl

theorem OnSphereInUnits.onSphere (h : OnSphereInUnits p) : OnSphere p := by
  obtain ⟨hfinite, hexact⟩ := exact_eq_ofUnits h.1
  have hpos : (0 : ℝ) < unitsPerOne := by rw [unitsPerOne_eq]; positivity
  have hunits : (10 : ℝ) ^ 5 * |4 * ((units p).normSq : ℝ) - (unitsPerOne : ℝ) ^ 2| ≤
      4 * (unitsPerOne : ℝ) ^ 2 := by exact_mod_cast h.2
  refine ⟨hfinite, ?_⟩
  have hquotient : ((units p).normSq / unitsPerOne ^ 2 - 1 / 4 : ℝ) =
      (4 * (units p).normSq - unitsPerOne ^ 2) / (4 * unitsPerOne ^ 2) := by
    field_simp
  rw [hexact, normSq_ofUnits, hquotient, abs_div, abs_of_pos (by positivity : (0 : ℝ) < 4 * unitsPerOne ^ 2),
    div_le_iff₀ (by positivity)]
  linarith

theorem ShortInUnits.normSq_sub_le (hp : OnSphereInUnits p) (hq : OnSphereInUnits q) (h : ShortInUnits p q) :
    (p.exact - q.exact).normSq ≤ 7 / 25 := by
  have hpos : (0 : ℝ) < unitsPerOne := by rw [unitsPerOne_eq]; positivity
  have hunits : 25 * ((units p - units q).normSq : ℝ) ≤ 7 * unitsPerOne ^ 2 := by exact_mod_cast h
  rw [(exact_eq_ofUnits hp.1).2, (exact_eq_ofUnits hq.1).2, normSq_ofUnits_sub, div_le_iff₀ (by positivity)]
  linarith

theorem unitFaces_inUnits : ∀ k ∈ unitFaces,
    (OnSphereInUnits k.a ∧ OnSphereInUnits k.b ∧ OnSphereInUnits k.c) ∧
    ShortInUnits k.a k.b ∧ ShortInUnits k.b k.c ∧ ShortInUnits k.c k.a := by decide +kernel

theorem unitFaces_short : ∀ k ∈ unitFaces, Short (7 / 25) k := by
  intro k hk
  obtain ⟨⟨ha, hb, hc⟩, hab, hbc, hca⟩ := unitFaces_inUnits k hk
  exact ⟨ha.onSphere, hb.onSphere, hc.onSphere, hab.normSq_sub_le ha hb, hbc.normSq_sub_le hb hc,
    hca.normSq_sub_le hc ha⟩

/-- **Two splits suffice** for a face of the icosahedron. -/
theorem unitFaces_subdivides : ∀ k ∈ unitFaces, ∃ s, Subdivides k s ∧ s.height ≤ 2 :=
  fun k hk => exists_subdivides 2 (unitFaces_short k hk) le_rfl (by norm_num)

/-- **The subdivisions of the icosahedron are those of the recursion**: all leaves are fine, and a higher
bound gives the same ones. -/
theorem subdivisions_subdivide : List.Forall₂ Subdivides unitFaces subdivisions ∧
    (∀ s ∈ subdivisions, ∀ l ∈ s.leaves, isFine l = true) ∧
    ∀ bound, 2 ≤ bound → unitFaces.map (subdivide bound) = subdivisions := by
  have hface (k : Corners) (hk : k ∈ unitFaces) : ∃ s, Subdivides k s ∧
      ∀ bound, 2 ≤ bound → subdivide bound k = s := by
    obtain ⟨s, hs, hheight⟩ := unitFaces_subdivides k hk
    exact ⟨s, hs, fun bound hbound => subdivide_eq hs (hheight.trans hbound)⟩
  have hdepth : 2 ≤ depth := by decide
  have hsubdivides (k : Corners) (hk : k ∈ unitFaces) : Subdivides k (subdivide depth k) := by
    obtain ⟨s, hs, heq⟩ := hface k hk
    rwa [heq depth hdepth]
  refine ⟨List.forall₂_map_right_iff.mpr (List.forall₂_same.mpr hsubdivides), fun s hs => ?_,
    fun bound hbound => List.map_congr_left fun k hk => ?_⟩
  · obtain ⟨k, hk, rfl⟩ := List.mem_map.mp hs
    exact isFine_of_mem_leaves (hsubdivides k hk)
  · obtain ⟨s, -, heq⟩ := hface k hk
    rw [heq bound hbound, heq depth hdepth]

end Sphere

end Prims
