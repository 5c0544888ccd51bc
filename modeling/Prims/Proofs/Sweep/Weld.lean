import Prims.Proofs.Geometry.Exact
import Prims.Proofs.Number.Sign
import Prims.Sweep.Surface

/-!
# Sweep — Weld

When a sweep is welded shut: it has three layers or more, and its path brings every vertex of the profile
back to where it began (`weldsShut_iff`, `weldsShut_layers_iff`).  The largest component of a difference is
that of the reals (`Point.reach_exact`), so the positions themselves decide, but for the rounding of their
differences (`within_of_weldsShut`, `weldsShut_of_within`).  The ends of a straight sweep are one apart, and
it is never welded (`weldsShut_linear`).
-/

namespace Prims

open Float.Model Float.Model.UnpackedFloat Machine

/-! ### The largest component -/

section

variable {a b t : Float32} {v : Point}

namespace Point

theorem larger_exact (ha : IsFinite a) (hb : IsFinite b) :
    IsFinite (larger a b) ∧ real (larger a b) = max (real a) (real b) := by
  unfold larger
  split
  next h => exact ⟨ha, (max_eq_left ((le_iff hb ha).mp h)).symm⟩
  next h => exact ⟨hb, (max_eq_right (not_le.mp fun h' => h ((le_iff hb ha).mpr h')).le).symm⟩

/-- **The largest component** is that of the reals. -/
theorem reach_exact (hv : v.IsFinite) :
    IsFinite v.reach ∧ real v.reach = max (max |real v.x| |real v.y|) |real v.z| := by
  obtain ⟨hx, hX⟩ := Single.abs_exact hv.1
  obtain ⟨hy, hY⟩ := Single.abs_exact hv.2.1
  obtain ⟨hz, hZ⟩ := Single.abs_exact hv.2.2
  obtain ⟨hxy, hXY⟩ := larger_exact hx hy
  obtain ⟨hxyz, hXYZ⟩ := larger_exact hxy hz
  exact ⟨hxyz, by rw [reach, hXYZ, hXY, hX, hY, hZ]⟩

theorem reach_le_iff (hv : v.IsFinite) (ht : IsFinite t) :
    v.reach ≤ t ↔ |real v.x| ≤ real t ∧ |real v.y| ≤ real t ∧ |real v.z| ≤ real t := by
  obtain ⟨hfinite, hreal⟩ := reach_exact hv
  rw [le_iff hfinite ht, hreal, max_le_iff, max_le_iff, and_assoc]

/-- The last component to be compared counts, whatever the others are. -/
theorem le_of_larger_le (hb : IsFinite b) (ht : IsFinite t) (h : larger a b ≤ t) : b ≤ t := by
  unfold larger at h
  split at h
  next hba =>
    have ha := isFinite_of_le_of_le hb ht hba h
    exact (le_iff hb ht).mpr (((le_iff hb ha).mp hba).trans ((le_iff ha ht).mp h))
  next => exact h

end Point

end

/-! ### Ends of a sweep -/

variable {layers : List (List Point)} {path : SweepPath} {profile : List Point} {p q : Point}

/-- The vertices of the first layer beside those of the last one. -/
def ends (layers : List (List Point)) : List (Point × Point) :=
  match layers.head?, layers.getLast? with
  | some first, some last => first.zip last
  | _,          _         => []

/-- **Welded** are three layers or more of which the ends coincide. -/
theorem weldsShut_iff : weldsShut layers = true ↔
    3 ≤ layers.length ∧ ∀ e ∈ ends layers, (e.1 - e.2).reach ≤ weldTolerance := by
  unfold weldsShut ends
  cases layers with
  | nil => simp
  | cons first rest =>
    rw [List.head?_cons, List.getLast?_cons]
    simp only [layersCoincide, Bool.and_eq_true, decide_eq_true_eq, List.all_eq_true]
    exact Iff.rfl

/-- Only sweeps of three layers or more are welded. -/
theorem three_le_of_weldsShut (h : weldsShut layers = true) : 3 ≤ layers.length := (weldsShut_iff.mp h).1

/-- The ends of a sweep are where the path begins and stops. -/
theorem ends_layers : ends (path.layers profile) =
    profile.map fun v => (path.place 0 v, path.place path.steps v) := by
  have hhead : (path.layers profile).head? = some (profile.map (path.place 0)) := by
    rw [SweepPath.layers, List.range_succ_eq_map]
    rfl
  have hlast : (path.layers profile).getLast? = some (profile.map (path.place path.steps)) := by
    rw [SweepPath.layers, List.range_succ, List.map_append]
    exact List.getLast?_concat
  rw [ends, hhead, hlast]
  exact List.zip_map'

/-- **A path is welded** when it has two steps or more and brings every vertex of the profile back. -/
theorem weldsShut_layers_iff : weldsShut (path.layers profile) = true ↔
    2 ≤ path.steps ∧ ∀ v ∈ profile, (path.place 0 v - path.place path.steps v).reach ≤ weldTolerance := by
  have hlen : (path.layers profile).length = path.steps + 1 := by simp [SweepPath.layers]
  rw [weldsShut_iff, hlen, ends_layers, List.forall_mem_map, Nat.succ_le_succ_iff]

/-! ### Tolerance -/

theorem weldTolerance_exact : IsFinite weldTolerance ∧ real weldTolerance = 10995116 / 2 ^ 40 := by
  have hparts : parts weldTolerance = .finite .positive 10995116 (-40) (by decide) := rfl
  exact exact_of_parts hparts (by norm_num [unit])

/-- What coincides is within a hundred-thousandth, but for the rounding of the difference. -/
theorem within_of_reach_le (hfinite : (p - q).IsFinite) (h : (p - q).reach ≤ weldTolerance) :
    Vec.Within (1 / 99999) p.exact q.exact := by
  obtain ⟨htol, hreal⟩ := weldTolerance_exact
  have hcomponent {x y : Float32} (hxy : IsFinite (x - y)) (h : |real (x - y)| ≤ real weldTolerance) :
      |real x - real y| ≤ 1 / 99999 := by
    have herror := sub_error hxy
    have htri := abs_sub_abs_le_abs_sub (real x - real y) (real (x - y))
    rw [abs_sub_comm, Single.roundoff_format] at herror
    rw [hreal] at h
    linarith
  obtain ⟨hx, hy, hz⟩ := (Point.reach_le_iff hfinite htol).mp h
  exact ⟨hcomponent hfinite.1 hx, hcomponent hfinite.2.1 hy, hcomponent hfinite.2.2 hz⟩

/-- **What is within a hundred-thousandth** coincides, but for the rounding of the difference. -/
theorem reach_le_of_within (hp : p.IsFinite) (hq : q.IsFinite) (h : Vec.Within (1 / 100001) p.exact q.exact) :
    (p - q).reach ≤ weldTolerance := by
  obtain ⟨htol, hreal⟩ := weldTolerance_exact
  have hcomponent {x y : Float32} (hx : IsFinite x) (hy : IsFinite y) (h : |real x - real y| ≤ 1 / 100001) :
      IsFinite (x - y) ∧ |real (x - y)| ≤ real weldTolerance := by
    obtain ⟨hfinite, herror⟩ := sub_follows hx hy (h.trans (by norm_num))
    have htri := abs_sub_abs_le_abs_sub (real (x - y)) (real x - real y)
    rw [Single.roundoff_format] at herror
    rw [hreal]
    exact ⟨hfinite, by linarith⟩
  have hx : IsFinite (p - q).x ∧ |real (p - q).x| ≤ real weldTolerance := hcomponent hp.1 hq.1 h.1
  have hy : IsFinite (p - q).y ∧ |real (p - q).y| ≤ real weldTolerance := hcomponent hp.2.1 hq.2.1 h.2.1
  have hz : IsFinite (p - q).z ∧ |real (p - q).z| ≤ real weldTolerance := hcomponent hp.2.2 hq.2.2 h.2.2
  exact (Point.reach_le_iff ⟨hx.1, hy.1, hz.1⟩ htol).mpr ⟨hx.2, hy.2, hz.2⟩

/-- The ends of a welded sweep are close. -/
theorem within_of_weldsShut (h : weldsShut layers = true) {e : Point × Point} (he : e ∈ ends layers)
    (hfinite : (e.1 - e.2).IsFinite) : Vec.Within (1 / 99999) e.1.exact e.2.exact :=
  within_of_reach_le hfinite ((weldsShut_iff.mp h).2 e he)

/-- **Sweeps with close ends are welded.** -/
theorem weldsShut_of_within (hlen : 3 ≤ layers.length) (h : ∀ e ∈ ends layers,
    e.1.IsFinite ∧ e.2.IsFinite ∧ Vec.Within (1 / 100001) e.1.exact e.2.exact) : weldsShut layers = true := by
  refine weldsShut_iff.mpr ⟨hlen, fun e he => ?_⟩
  obtain ⟨hp, hq, hwithin⟩ := h e he
  exact reach_le_of_within hp hq hwithin

/-! ### Straight sweeps -/

/-- A few halves come out exactly. -/
theorem exact_halves {z : Float32} {r : ℝ} {j : ℤ} (h : Results r z) (hr : r = j / 2) (hj : j.natAbs ≤ 2) :
    IsFinite z ∧ real z = r := by
  have hle : |(j : ℝ)| ≤ 2 := by
    rw [← Int.cast_abs, Int.abs_eq_natAbs]
    exact_mod_cast hj
  refine h.exact (j := j) (e := -1) (by rw [hr]; ring) (lt_of_le_of_lt hj (by decide)) (by decide) ?_
  rw [hr, abs_div, Single.ceiling_format, abs_of_pos (two_pos : (0 : ℝ) < 2)]
  norm_num
  linarith

/-- The first step of a path is at zero and the last one at one. -/
theorem ratio_exact {n : ℕ} (hn : 0 < n) (hlt : n < 2 ^ 23) :
    (IsFinite (ratio 0 n) ∧ real (ratio 0 n) = 0) ∧ IsFinite (ratio n n) ∧ real (ratio n n) = 1 := by
  obtain ⟨hfinite, hreal⟩ := Single.real_ofNat hlt
  obtain ⟨hfinite₀, hreal₀⟩ := Single.real_ofNat (show 0 < 2 ^ 23 by decide)
  have hne : (n : ℝ) ≠ 0 := by exact_mod_cast hn.ne'
  have hfirst : Results _ (ratio 0 n) := div_results hfinite₀ hfinite (by rwa [hreal])
  have hlast : Results _ (ratio n n) := div_results hfinite hfinite (by rwa [hreal])
  rw [hreal₀, Nat.cast_zero, zero_div] at hfirst
  rw [hreal, div_self hne] at hlast
  exact ⟨exact_halves (j := 0) hfirst (by norm_num) (by decide),
    exact_halves (j := 2) hlast (by norm_num) (by decide)⟩

/-- **A straight sweep** ends one apart from where it begins, so it is never welded. -/
theorem weldsShut_linear {path : LinearPath} (hsteps : path.steps < 2 ^ 23) (hprofile : profile ≠ []) :
    weldsShut ((SweepPath.linear path).layers profile) = false := by
  refine Bool.eq_false_iff.mpr fun hweld => ?_
  obtain ⟨htwo, hends⟩ := weldsShut_layers_iff.mp hweld
  obtain ⟨v, hv⟩ := List.exists_mem_of_ne_nil profile hprofile
  obtain ⟨⟨hfinite₀, hreal₀⟩, hfinite₁, hreal₁⟩ := ratio_exact (Nat.zero_lt_of_lt htwo) hsteps
  have hhalf : IsFinite (-0.5 : Float32) ∧ real (-0.5 : Float32) = -1 / 2 := by
    have hparts : parts (-0.5 : Float32) = .finite .negative (2 ^ 23) (-24) (by decide) := rfl
    exact exact_of_parts hparts (by norm_num [unit])
  obtain ⟨hbegin, hbegin'⟩ := exact_halves (j := -1) (add_results hhalf.1 hfinite₀)
    (by rw [hhalf.2, hreal₀]; norm_num) (by decide)
  obtain ⟨hend, hend'⟩ := exact_halves (j := 1) (add_results hhalf.1 hfinite₁)
    (by rw [hhalf.2, hreal₁]; norm_num) (by decide)
  rw [hhalf.2, hreal₀] at hbegin'
  rw [hhalf.2, hreal₁] at hend'
  obtain ⟨hz, hz'⟩ := exact_halves (j := -2) (sub_results hbegin hend)
    (by rw [hbegin', hend']; norm_num) (by decide)
  obtain ⟨habs, habs'⟩ := Single.abs_exact hz
  have hle : _ ≤ weldTolerance := Point.le_of_larger_le habs weldTolerance_exact.1 (hends v hv)
  rw [le_iff habs weldTolerance_exact.1, habs', hz', hbegin', hend', weldTolerance_exact.2] at hle
  norm_num at hle

end Prims
