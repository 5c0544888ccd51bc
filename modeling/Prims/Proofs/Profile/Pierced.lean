import Prims.Mesher.Extrusion
import Prims.Proofs.Delaunay.Rings
import Prims.Proofs.Hull.Containment

/-!
# Profile — Pierced

Outlines with a hole taken out as a second ring.  A hole strictly inside its outline is inside the seed
triangle as well (`Ring.Surrounds.enclosed`), so triangulation meets the rings of every pierced outline
that can be filled, and of no other (`Profile.pierce_meetsRings_iff`).  Holes close to their outline bar
it: at seven tenths a square hole costs a prism one of its three sides (`Profile.prism_side_lost`).
-/

noncomputable section

namespace Prims

open Plane Triangulation

/-! ### Surrounded points -/

namespace Ring

variable {P : Site → Site → Site → Prop}

/-- The point has a site that stands in a relation to the ends of every step of the ring. -/
def OnSteps (P : Site → Site → Site → Prop) (ring : Ring) (p : Point) : Prop :=
  ∃ s, p.site? = some s ∧ ∀ e ∈ steps ring, ∃ a b, e.1.site? = some a ∧ e.2.site? = some b ∧ P a b s

theorem any_steps_iff [∀ a b s, Decidable (P a b s)] {ring : Ring} {p : Point} :
    (p.site?.any fun s => (steps ring).all fun e =>
      e.1.site?.any fun a => e.2.site?.any fun b => decide (P a b s)) = true ↔ OnSteps P ring p := by
  simp only [OnSteps, Option.any_eq_true, List.all_eq_true, decide_eq_true_eq]
  refine exists_congr fun s => and_congr_right fun _ => forall₂_congr fun e _ => ?_
  constructor
  · rintro ⟨a, ha, b, hb, h⟩
    exact ⟨a, b, ha, hb, h⟩
  · rintro ⟨a, b, ha, hb, h⟩
    exact ⟨a, ha, b, hb, h⟩

instance [∀ a b s, Decidable (P a b s)] (ring : Ring) (p : Point) : Decidable (OnSteps P ring p) :=
  decidable_of_iff _ any_steps_iff

/-- The relation at a step and a point whose sites are known. -/
theorem OnSteps.at_step {ring : Ring} {p : Point} {a b s : Site} (h : OnSteps P ring p) (hs : p.site? = some s)
    {e : Point × Point} (he : e ∈ steps ring) (ha : e.1.site? = some a) (hb : e.2.site? = some b) : P a b s := by
  obtain ⟨s', hs', hsteps⟩ := h
  obtain ⟨a', b', ha', hb', h⟩ := hsteps e he
  obtain rfl := Option.some.inj (hs.symm.trans hs')
  obtain rfl := Option.some.inj (ha.symm.trans ha')
  obtain rfl := Option.some.inj (hb.symm.trans hb')
  exact h

/-- The point has finite planar coordinates and lies strictly to the left of every step of the ring. -/
def Surrounds (ring : Ring) (p : Point) : Prop :=
  ∃ s, p.site? = some s ∧ ∀ e ∈ steps ring, ∃ a b, e.1.site? = some a ∧ e.2.site? = some b ∧
    0 < Site.area a b s

instance (ring : Ring) (p : Point) : Decidable (Surrounds ring p) :=
  decidable_of_iff (p.site?.any fun s => (steps ring).all fun e =>
    e.1.site?.any fun a => e.2.site?.any fun b => decide (0 < Site.area a b s)) any_steps_iff

/-- No height falls at every step round a ring. -/
theorem exists_not_falling {ring : Ring} (hne : ring ≠ []) (g : Point → ℝ) :
    ∃ e ∈ steps ring, g e.1 ≤ g e.2 := by
  by_contra hall
  push Not at hall
  have hsteps : steps ring ≠ [] := by
    intro hnil
    exact hne (by rw [← steps_snd ring, hnil, List.map_nil])
  obtain ⟨e, he⟩ := List.exists_mem_of_ne_nil _ hsteps
  have hsum : ((steps ring).map fun e => g e.2).sum = ((steps ring).map fun e => g e.1).sum := by
    have hfst := ((steps_fst_perm ring).map g).sum_eq
    have hsnd := congrArg (fun l => (l.map g).sum) (steps_snd ring)
    simp only [List.map_map] at hfst hsnd
    exact hsnd.trans hfst.symm
  exact hsum.not_lt (List.sum_lt_sum _ _ (fun e he => (hall e he).le) ⟨e, he, hall e he⟩)

end Ring

/-! ### Inside the seed triangle -/

namespace Plane

/-- Points to the left of a line, seen from a point that is not, have directions in a half-plane.  At a
step that turns left about the point, the way along the line falls in proportion to the way from it. -/
theorem turn_slope {u v a b p : Plane} (ha : 0 < area u v a) (hb : 0 < area u v b) (hp : area u v p ≤ 0)
    (h : 0 < area a b p) :
    ((v.1 - u.1) * (b.1 - p.1) + (v.2 - u.2) * (b.2 - p.2)) / (area u v b - area u v p) <
      ((v.1 - u.1) * (a.1 - p.1) + (v.2 - u.2) * (a.2 - p.2)) / (area u v a - area u v p) := by
  have huv : 0 < (v.1 - u.1) ^ 2 + (v.2 - u.2) ^ 2 := by
    refine lt_of_le_of_ne (by positivity) fun h0 => ha.ne' ?_
    have h₁ : v.1 - u.1 = 0 := by nlinarith [sq_nonneg (v.1 - u.1), sq_nonneg (v.2 - u.2)]
    have h₂ : v.2 - u.2 = 0 := by nlinarith [sq_nonneg (v.1 - u.1), sq_nonneg (v.2 - u.2)]
    rw [area, h₁, h₂, zero_mul, zero_mul, sub_zero]
  have key : ((v.1 - u.1) ^ 2 + (v.2 - u.2) ^ 2) * area a b p =
      ((v.1 - u.1) * (a.1 - p.1) + (v.2 - u.2) * (a.2 - p.2)) * (area u v b - area u v p) -
        ((v.1 - u.1) * (b.1 - p.1) + (v.2 - u.2) * (b.2 - p.2)) * (area u v a - area u v p) := by
    unfold area; ring
  rw [div_lt_div_iff₀ (by linarith) (by linarith), ← sub_pos, ← key]
  exact mul_pos huv h

end Plane

namespace Ring

/-- A point that a ring surrounds is to the left of every line that the vertices are to the left of. -/
theorem Surrounds.left {ring : Ring} {p : Point} (hp : Surrounds ring p) (hne : ring ≠ []) {s : Site}
    (hs : p.site? = some s) {u v : Plane}
    (hv : ∀ q ∈ ring, ∀ t, q.site? = some t → 0 < area u v t.spot) : 0 < area u v s.spot := by
  obtain ⟨s', hs', hsteps⟩ := hp
  obtain rfl : s = s' := Option.some.inj (hs.symm.trans hs')
  by_contra hle
  let spot : Point → Plane := fun q => q.site?.elim 0 Site.spot
  obtain ⟨e, he, hfall⟩ := exists_not_falling hne fun q =>
    ((v.1 - u.1) * ((spot q).1 - s.spot.1) + (v.2 - u.2) * ((spot q).2 - s.spot.2)) /
      (area u v (spot q) - area u v s.spot)
  obtain ⟨a, b, ha, hb, hab⟩ := hsteps e he
  obtain ⟨hm₁, hm₂⟩ := mem_of_mem_steps he
  have hturn : 0 < area a.spot b.spot s.spot := by
    rw [Site.area_spot]
    exact div_pos (Int.cast_pos.mpr hab) unitsSq_pos
  have h₁ : spot e.1 = a.spot := by simp [spot, ha]
  have h₂ : spot e.2 = b.spot := by simp [spot, hb]
  rw [h₁, h₂] at hfall
  exact hfall.not_gt (turn_slope (hv _ hm₁ a ha) (hv _ hm₂ b hb) (not_lt.mp hle) hturn)

/-- A point that a ring inside the seed triangle surrounds is inside the seed triangle. -/
theorem Surrounds.enclosed {ring : Ring} {p : Point} (hp : Surrounds ring p) (hne : ring ≠ [])
    (he : ∀ q ∈ ring, q.Enclosed) : p.Enclosed := by
  have hring : ∀ q ∈ ring, ∀ t, q.site? = some t →
      t.spot ∈ interior (Plane.triangle (0, -10) (10, 10) (-10, 10)) := by
    intro q hq t ht
    obtain ⟨t', ht', hin⟩ := he q hq
    obtain rfl : t = t' := Option.some.inj (ht.symm.trans ht')
    exact Site.enclosed_iff.mp hin
  have hT : 0 < area (0, -10) (10, 10) (-10, 10) := by norm_num [area]
  have hp' := hp
  obtain ⟨s, hs, -⟩ := hp'
  refine ⟨s, hs, Site.enclosed_iff.mpr ((mem_interior_iff hT).mpr ⟨?_, ?_, ?_⟩)⟩
  · exact hp.left hne hs fun q hq t ht => ((mem_interior_iff hT).mp (hring q hq t ht)).1
  · exact hp.left hne hs fun q hq t ht => ((mem_interior_iff hT).mp (hring q hq t ht)).2.1
  · exact hp.left hne hs fun q hq t ht => ((mem_interior_iff hT).mp (hring q hq t ht)).2.2

end Ring

/-! ### Outlines with a hole -/

namespace Hull

/-- The outline and, as a second ring, the hole. -/
def pierce (outline hole : Hull) : Hull := outline.addBreak.addRing hole.vertices

theorem addVertex_vertices (h : Hull) (p : Point) :
    (h.addVertex p).vertices = h.vertices ∨ (h.addVertex p).vertices = h.vertices ++ [p] := by
  have happend : Hull.vertices ⟨h.points ++ [.vertex p]⟩ = h.vertices ++ [p] := by
    rw [vertices, List.filterMap_append]
    rfl
  unfold addVertex
  split
  · split
    · exact .inl rfl
    · exact .inr happend
  · exact .inr happend

/-- A ring adds some of its vertices, in their order. -/
theorem addRing_vertices : ∀ (ring : Ring) (h : Hull),
    ∃ kept, kept.Sublist ring ∧ (h.addRing ring).vertices = h.vertices ++ kept
  | [], h => ⟨[], .slnil, (List.append_nil _).symm⟩
  | p :: ring, h => by
    obtain ⟨kept, hsub, hv⟩ := addRing_vertices ring (h.addVertex p)
    rcases h.addVertex_vertices p with hp | hp
    · exact ⟨kept, hsub.cons p, hv.trans (by rw [hp])⟩
    · exact ⟨p :: kept, hsub.cons_cons p, hv.trans (by rw [hp, List.append_assoc]; rfl)⟩

theorem addBreak_vertices (h : Hull) : h.addBreak.vertices = h.vertices := by
  unfold addBreak
  split
  · rw [vertices, List.filterMap_append]
    exact List.append_nil _
  · rfl

theorem pierce_vertices (outline hole : Hull) : ∃ kept, kept.Sublist hole.vertices ∧
    (outline.pierce hole).vertices = outline.vertices ++ kept := by
  obtain ⟨kept, hsub, hv⟩ := addRing_vertices hole.vertices outline.addBreak
  exact ⟨kept, hsub, hv.trans (by rw [addBreak_vertices])⟩

theorem ofPlanar_count (ring : List (Float32 × Float32)) : (ofPlanar ring).vertexCount ≤ ring.length := by
  obtain ⟨kept, hsub, hv⟩ := addRing_vertices (ring.map fun q => Point.flat q.1 q.2) empty
  show (empty.addRing _).vertices.length ≤ _
  rw [hv]
  exact hsub.length_le.trans (List.length_map _).le

end Hull

namespace Profile

/-- The outlines of the prim families, with the shapes they stand for. -/
def outlines : List (ProfileShape × Hull) :=
  [(.square, square), (.circle, circle), (.equilateralTriangle, prism), (.equilateralTriangle, ring)]

/-- The holes of a profile, on straight and on circular paths. -/
inductive IsHole (profile : ProfileShape) (hollow : UInt16) : Hull → Prop
  | polygon (shape : HollowShape) (straight : Bool) {hole : Hull}
      (h : hole? profile shape hollow straight = some hole) : IsHole profile hollow hole
  | circularTriangle : IsHole profile hollow (circularTriangleHole profile hollow)

theorem holePolygon_count (shape : HollowShape) (f : Float32) (profile : ProfileShape) :
    (holePolygon shape f profile).vertexCount ≤ 24 := by
  unfold holePolygon
  split
  · refine (Hull.ofPlanar_count _).trans (le_of_eq ?_)
    rw [List.length_map, List.length_reverse]
    rfl
  · split <;> exact (Hull.ofPlanar_count _).trans (by simp)
  · split <;> exact (Hull.ofPlanar_count _).trans (by simp)
  · split <;> exact (Hull.ofPlanar_count _).trans (by simp)

theorem IsHole.count {profile : ProfileShape} {hollow : UInt16} {hole : Hull}
    (h : IsHole profile hollow hole) : hole.vertexCount ≤ 24 := by
  cases h with
  | polygon shape straight h =>
    unfold hole? at h
    split at h
    · cases h
    · obtain ⟨shape, -, rfl⟩ := Option.map_eq_some_iff.mp h
      exact holePolygon_count _ _ _
  | circularTriangle =>
    unfold circularTriangleHole
    dsimp only
    split <;> exact (Hull.ofPlanar_count _).trans (by simp)

/-- Outlines are inside the seed triangle. -/
theorem outlines_enclosed : ∀ o ∈ outlines,
    o.2.vertices ≠ [] ∧ o.2.vertexCount ≤ 24 ∧ ∀ p ∈ o.2.vertices, p.Enclosed := by
  decide +kernel

/-- The mesher takes its holes from these outlines. -/
theorem family_isHole {kind : PrimKind} {f : Family} (hf : Family.ofKind? kind = some f) {s : Shape}
    {hole : Hull} (hh : f.hole? s = some hole) :
    (f.profile, f.outline) ∈ outlines ∧ IsHole f.profile s.profileHollow hole := by
  constructor
  · cases kind <;> cases hf <;> simp [outlines]
  · unfold Family.hole? at hh
    split at hh
    · exact .polygon _ _ hh
    · split at hh
      · cases hh
      · split at hh
        · obtain rfl := Option.some.inj hh
          exact .circularTriangle
        · exact .polygon _ _ hh

/-- **When a pierced outline is closed.**  Of an outline with a hole strictly inside it, triangulation
meets the rings exactly when they can be filled. -/
theorem pierce_meetsRings_iff {o : ProfileShape × Hull} (ho : o ∈ outlines) {hollow : UInt16}
    {hole : Hull} (hh : IsHole o.1 hollow hole)
    (hin : ∀ p ∈ hole.vertices, Ring.Surrounds o.2.vertices p) (sink : DumpSink) (prim : String) :
    (∃ t, ((o.2.pierce hole).triangulate sink prim).result = .ok t ∧ t.MeetsRings) ↔
      (o.2.pierce hole).Fillable := by
  obtain ⟨hne, hcount, he⟩ := outlines_enclosed o ho
  obtain ⟨kept, hsub, hv⟩ := Hull.pierce_vertices o.2 hole
  have hlen : (o.2.pierce hole).vertexCount = o.2.vertexCount + kept.length := by
    rw [Hull.vertexCount, hv, List.length_append, Hull.vertexCount]
  have hkept : kept.length ≤ 24 := hsub.length_le.trans hh.count
  have hpos : 0 < o.2.vertexCount := List.length_pos_iff.mpr hne
  refine Hull.triangulate_meetsRings_iff (fun p hp => ?_) (by omega) (by omega) sink prim
  rw [hv] at hp
  rcases List.mem_append.mp hp with hp | hp
  · exact he p hp
  · exact (hin p (hsub.subset hp)).enclosed hne he

theorem exists_ok {ε α : Type} {r : Except ε α} {p : α → Prop} [DecidablePred p]
    (h : r.toOption.any fun a => decide (p a)) : ∃ a, r = .ok a ∧ p a := by
  cases r with
  | error e => cases h
  | ok a => exact ⟨a, rfl, of_decide_eq_true h⟩

/-- A square hole of four tenths leaves a prism closed. -/
theorem pierce_meetsRings_prism :
    let hole := holePolygon .square (holeFraction .equilateralTriangle 20000) .equilateralTriangle
    (.equilateralTriangle, prism) ∈ outlines ∧ IsHole .equilateralTriangle 20000 hole ∧
      (∀ p ∈ hole.vertices, Ring.Surrounds prism.vertices p) ∧ (prism.pierce hole).Fillable := by
  intro hole
  have ho : (.equilateralTriangle, prism) ∈ outlines := by simp [outlines]
  have hh : IsHole .equilateralTriangle 20000 hole := .polygon .square true rfl
  have hin : ∀ p ∈ hole.vertices, Ring.Surrounds prism.vertices p := by decide +kernel
  have hmeets : ∃ t, ((prism.pierce hole).triangulate .disabled "").result = .ok t ∧ t.MeetsRings :=
    exists_ok (by decide +kernel)
  exact ⟨ho, hh, hin, (pierce_meetsRings_iff ho hh hin .disabled "").mp hmeets⟩

/-- A square hole of seven tenths is strictly inside the prism, and costs it its left side, whose ends
are the first two vertices. -/
theorem prism_side_lost :
    let hole := holePolygon .square (holeFraction .equilateralTriangle 35000) .equilateralTriangle
    (.equilateralTriangle, prism) ∈ outlines ∧ IsHole .equilateralTriangle 35000 hole ∧
      (∀ p ∈ hole.vertices, Ring.Surrounds prism.vertices p) ∧
      (∃ t, ((prism.pierce hole).triangulate .disabled "").result = .ok t ∧
        (0, 1) ∈ t.outlineEdges ∧ ∀ s ∈ t.mesh.triangles, Edge.between 0 1 ∉ s.edges) ∧
      ¬∃ t, ((prism.pierce hole).triangulate .disabled "").result = .ok t ∧ t.MeetsRings := by
  intro hole
  have hlost : ∃ t, ((prism.pierce hole).triangulate .disabled "").result = .ok t ∧
      (0, 1) ∈ t.outlineEdges ∧ ∀ s ∈ t.mesh.triangles, Edge.between 0 1 ∉ s.edges :=
    exists_ok (by decide +kernel)
  refine ⟨by simp [outlines], .polygon .square true rfl,
    by decide +kernel, hlost, ?_⟩
  rintro ⟨t, ht, hmeets⟩
  obtain ⟨t', ht', hside, hnone⟩ := hlost
  obtain rfl : t = t' := Except.ok.inj (ht.symm.trans ht')
  have h1 := hmeets.ring (Edge.between 0 1) (List.mem_map_of_mem (f := Edge.ofArc) hside)
  have hpos : 0 < t.mesh.triangles.countP fun s => Edge.between 0 1 ∈ s.edges := by omega
  obtain ⟨s, hs, he⟩ := List.countP_pos_iff.mp hpos
  exact hnone s hs (of_decide_eq_true he)

end Profile

end Prims

end
