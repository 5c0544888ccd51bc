import Prims.Build.Extrude
import Prims.Proofs.Number.Whole
import Prims.Proofs.Shape.Fault

/-!
# Sweep — Cut

When a path cut leaves nothing.  The two ends of a cut are singles that are rounded separately, but the
quanta are so far apart that rounding does not disturb their order (`pathCutBegin_lt_pathCutEnd_iff`), and a
begin and an end at the same place are the same number.  So the cut of a valid shape leaves something exactly
when its quanta leave room (`hasCut_ofShape_iff`), and its path is swept whole, with a warning, exactly when
they do not (`effective_ofShape`, `reportCut_ofShape`).
-/

namespace Prims

open Float.Model Machine

namespace Quanta

variable {x y : Float32} {m n : ℕ} {first last : UInt16}

/-- The single that stands for one fifty-thousandth. -/
noncomputable def quantum : ℝ := ((10995116 : ℕ) : ℝ) * ((2 : ℕ) : ℝ) ^ (-39 : ℤ)

theorem real_quantum : IsFinite (0.00002 : Float32) ∧ real (0.00002 : Float32) = quantum := by
  have hparts : parts (0.00002 : Float32) = .finite .positive 10995116 (-39) (by decide) := rfl
  exact exact_of_parts hparts (by norm_num [unit, quantum])

/-- A fraction of the path is closer to its exact value than a tenth of a quantum. -/
theorem quantum_mul (hx : IsFinite x) (hreal : real x = n) (hn : n ≤ 50000) :
    IsFinite (0.00002 * x) ∧ |real (0.00002 * x) - quantum * n| ≤ quantum / 10 := by
  have hresults := mul_results real_quantum.1 hx
  rw [real_quantum.2, hreal] at hresults
  have hn : (n : ℝ) ≤ 50000 := by exact_mod_cast hn
  have hpos : 0 < quantum := by norm_num [quantum]
  have hone : quantum * n ≤ 1 := by
    refine (mul_le_mul_of_nonneg_left hn hpos.le).trans ?_
    norm_num [quantum]
  have habs : |quantum * n| = quantum * n := abs_of_nonneg (by positivity)
  have hfinite : IsFinite (0.00002 * x) := hresults.finite (by
    rw [habs, Single.ceiling_format]
    exact hone.trans (by norm_num))
  have herror := hresults.error hfinite
  rw [habs, Single.roundoff_format, Single.underflow_format] at herror
  refine ⟨hfinite, herror.trans ?_⟩
  calc 1 / (2 : ℝ) ^ 24 * (quantum * n) + 1 / 2 ^ 150
      ≤ 1 / 2 ^ 24 * 1 + 1 / 2 ^ 150 := by gcongr
    _ ≤ quantum / 10 := by norm_num [quantum]

/-- **Fractions of the path are ordered as their quanta.** -/
theorem quantum_mul_lt_iff (hx : IsFinite x) (hm : real x = m) (hmle : m ≤ 50000) (hy : IsFinite y)
    (hn : real y = n) (hnle : n ≤ 50000) : 0.00002 * x < 0.00002 * y ↔ m < n := by
  obtain ⟨hxf, hxm⟩ := quantum_mul hx hm hmle
  obtain ⟨hyf, hyn⟩ := quantum_mul hy hn hnle
  have hpos : 0 < quantum := by norm_num [quantum]
  have hgap (i j : ℕ) (h : i < j) : quantum * i + quantum ≤ quantum * j := by
    have : (i : ℝ) + 1 ≤ j := by exact_mod_cast h
    rw [← mul_add_one]
    exact mul_le_mul_of_nonneg_left this hpos.le
  rw [abs_le] at hxm hyn
  rw [lt_iff hxf hyf]
  rcases lt_trichotomy m n with h | rfl | h
  · exact iff_of_true (by linarith [hgap m n h]) h
  · rw [real_mul_congr real_quantum.1 hx hy (hm.trans hn.symm)]
    exact iff_of_false (lt_irrefl _) (lt_irrefl _)
  · exact iff_of_false (by linarith [hgap n m h]) (by omega)

/-- **A cut begins before it ends** exactly when its quanta leave room. -/
theorem pathCutBegin_lt_pathCutEnd_iff (hfirst : first.toNat ≤ 50000) (hlast : last.toNat ≤ 50000) :
    pathCutBegin first < pathCutEnd last ↔ first.toNat + last.toNat < 50000 := by
  obtain ⟨hx, hm⟩ := Single.real_toFloat32 first
  have hrest : Float32.ofInt (50000 - last.toNat) = Float32.ofNat (50000 - last.toNat) := by
    rw [show (50000 : ℤ) - last.toNat = Int.ofNat (50000 - last.toNat) by
      rw [Int.ofNat_eq_natCast]
      omega]
    rfl
  obtain ⟨hy, hn⟩ := Single.real_ofNat (n := 50000 - last.toNat) (by omega)
  rw [pathCutBegin, pathCutEnd, hrest, quantum_mul_lt_iff hx hm hfirst hy hn (by omega)]
  omega

end Quanta

/-- The cuts from the two ends of the path meet or cross. -/
def Shape.CutsCross (s : Shape) : Prop := cutQuanta.toNat ≤ s.pathBegin.toNat + s.pathEnd.toNat

instance (s : Shape) : Decidable s.CutsCross := Nat.decLe _ _

namespace CircularPath

variable {s : Shape} {p q : CircularPath}

/-- **The cut of a valid shape** leaves something of the path exactly when its ends do not meet. -/
theorem hasCut_ofShape_iff (h : s.error? = none) : (ofShape s).hasCut = true ↔ ¬ s.CutsCross := by
  have hlimits := (Shape.error?_eq_none_iff.mp h).2
  simp only [Shape.limitedFields, LimitedField.Beyond, List.forall_mem_cons, not_lt] at hlimits
  obtain ⟨-, -, hbegin, hend, -⟩ := hlimits
  rw [hasCut, decide_eq_true_iff]
  exact (Quanta.pathCutBegin_lt_pathCutEnd_iff hbegin hend).trans not_le.symm

theorem effective_of_hasCut (h : p.hasCut = true) : p.effective = p := if_pos h

/-- Without cuts the whole path is swept. -/
theorem effective_uncut (s : Shape) :
    (ofShape (s.withPathCut 0 0)).effective = ofShape (s.withPathCut 0 0) := by
  have hlt : Quanta.pathCutBegin 0 < Quanta.pathCutEnd 0 :=
    (Quanta.pathCutBegin_lt_pathCutEnd_iff (by decide) (by decide)).mpr (by decide)
  exact effective_of_hasCut (decide_eq_true hlt)

/-- **The path of a valid shape is swept as it is**, or whole when its cuts cross. -/
theorem effective_ofShape (h : s.error? = none) :
    (ofShape s).effective = if s.CutsCross then ofShape (s.withPathCut 0 0) else ofShape s := by
  have hcut := hasCut_ofShape_iff h
  split
  next hcross => exact if_neg fun h => hcut.mp h hcross
  next hapart => exact effective_of_hasCut (hcut.mpr hapart)

/-- The sweep of a path whose cuts cross is reported, and no other. -/
theorem reportCut_ofShape (h : s.error? = none) : (SweepPath.circular (ofShape s)).reportCut.trace.events =
    if s.CutsCross then [.cutLeavesNothing (ofShape s).cutBegin (ofShape s).cutEnd] else [] := by
  have hcut := hasCut_ofShape_iff h
  show (Build.reportIf (!(ofShape s).hasCut) _).trace.events = _
  split
  next hcross =>
    rw [Bool.eq_false_iff.mpr fun h => hcut.mp h hcross]
    rfl
  next hapart =>
    rw [hcut.mpr hapart]
    rfl

/-- What is swept is the effective path. -/
theorem layers_congr (h : p.effective = q.effective) :
    (SweepPath.circular p).layers = (SweepPath.circular q).layers := by
  have hsteps : (SweepPath.circular p).steps = (SweepPath.circular q).steps := congrArg CircularPath.steps h
  have hplace : (SweepPath.circular p).place = (SweepPath.circular q).place :=
    congrArg (fun path k => place path path.steps k) h
  unfold SweepPath.layers
  rw [hsteps, hplace]

end CircularPath

end Prims
