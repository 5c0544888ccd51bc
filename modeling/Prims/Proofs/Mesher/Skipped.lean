import Prims.Proofs.Mesher.Influence
import Prims.Proofs.Mesher.Stages
import Prims.Proofs.Sweep.Cut

/-!
# Mesher — Skipped

A cut or a hollow that cannot be applied is skipped, and then nothing of it is left but the event that says
so.  What a build delivers and dumps is compared by `Build.Alike`, which ignores the events and composes
along `bind`.  A profile cut that cannot be subtracted leaves the outline as it is (`cutOutline_of_fails`),
not turned around either; a hollow that is too large or cannot be subtracted leaves the hull as it is
(`hollowOut_of_fails`); path cuts that cross leave the path whole (`path_crossed`).  Main statements: a prim
is built like the one without the features that are skipped (`createMesh_skipped`), and like the one without
path cuts when they leave nothing (`createMesh_crossedCuts`).
-/

namespace Prims

namespace Build

variable {α β : Type} {x y z : Build α} {f g : α → Build β}

/-- The builds end alike and write the same dumps; what they report may differ. -/
structure Alike (x y : Build α) : Prop where
  result : x.result = y.result
  dumps : x.trace.dumps = y.trace.dumps

namespace Alike

theorem refl (x : Build α) : x.Alike x := ⟨rfl, rfl⟩

theorem trans (h : x.Alike y) (h' : y.Alike z) : x.Alike z :=
  ⟨h.result.trans h'.result, h.dumps.trans h'.dumps⟩

theorem of_silent (hx : x.Silent) (hy : y.Silent) (h : x.result = y.result) : x.Alike y :=
  ⟨h, hx.trans hy.symm⟩

theorem bind (h : x.Alike y) (hf : ∀ a, x.result = .ok a → (f a).Alike (g a)) :
    (x >>= f).Alike (y >>= g) := by
  cases hx : x.result with
  | error e =>
    have hy := h.result.symm.trans hx
    refine ⟨?_, ?_⟩
    · rw [result_bind, result_bind, hx, hy]
      rfl
    · rw [dumps_bind_error hx, dumps_bind_error hy, h.dumps]
  | ok a =>
    have hy := h.result.symm.trans hx
    obtain ⟨hresult, hdumps⟩ := hf a hx
    refine ⟨?_, ?_⟩
    · rw [result_bind_ok hx, result_bind_ok hy, hresult]
    · rw [dumps_bind_ok hx, dumps_bind_ok hy, h.dumps, hdumps]

end Alike

end Build

open Build

/-! ### Shapes that differ in one feature -/

namespace Shape

variable {s s' : Shape} {kind : PrimKind}

/-- Taking back limited fields to zero makes a shape neither invalid nor another kind. -/
theorem kind_of_zeroed (h : s.kind = .ok kind) (hown : s'.ownKind? = s.ownKind?)
    (hmap : s'.LacksMap → s.LacksMap)
    (hlimits : ∀ l ∈ s'.limitedFields, l ∈ s.limitedFields ∨ l.value = 0) : s'.kind = .ok kind := by
  obtain ⟨hvalid, hkind⟩ := kind_eq_ok_iff.mp h
  obtain ⟨hlacks, hwithin⟩ := error?_eq_none_iff.mp hvalid
  refine kind_eq_ok_iff.mpr
    ⟨error?_eq_none_iff.mpr ⟨fun hl => hlacks (hmap hl), fun l hl => ?_⟩, hown ▸ hkind⟩
  rcases hlimits l hl with hl | hzero
  · exact hwithin l hl
  · exact Nat.not_lt.mpr (hzero ▸ Nat.zero_le _)

theorem kind_uncutProfile (h : s.kind = .ok kind) : (s.withProfileCut 0 0).kind = .ok kind :=
  kind_of_zeroed h rfl id (by simp [limitedFields, withProfileCut])

theorem kind_uncutPath (h : s.kind = .ok kind) : (s.withPathCut 0 0).kind = .ok kind :=
  kind_of_zeroed h rfl id (by simp [limitedFields, withPathCut])

end Shape

namespace Mesher

variable {m : Mesher} {r : Request} {s : Shape} {kind : PrimKind}

/-- **Requests for two shapes of one kind** are built alike when its processor builds them alike. -/
theorem createMesh_alike (hk : r.shape.kind = .ok kind) (hk' : s.kind = .ok kind)
    (h : ∀ p, m.processor? kind = some p →
      (p.run kind r m.sink).Alike (p.run kind { r with shape := s } m.sink)) :
    (m.createMesh r).Alike (m.createMesh { r with shape := s }) := by
  have hdispatch : (m.dispatch kind r).Alike (m.dispatch kind { r with shape := s }) := by
    unfold dispatch
    cases hp : m.processor? kind with
    | none => exact .refl _
    | some p => exact .bind (.refl _) fun _ _ => .bind (h p hp) fun _ _ => .refl _
  unfold createMesh
  split
  · exact .refl _
  · split
    · exact .refl _
    · refine .bind (.of_silent (.reportIf _ _) (.reportIf _ _) ?_) fun _ _ => ?_
      · rw [result_reportIf, result_reportIf]
      refine .bind (.of_silent (classify_silent _) (classify_silent _) ?_) fun k hclassify => ?_
      · rw [classify_result hk, classify_result hk']
      cases (classify_result hk).symm.trans hclassify
      exact hdispatch

end Mesher

/-! ### Skipped features -/

namespace Family

variable {f : Family} {difference : Hull.PolygonDifference} {kind : PrimKind} {r r' : Request} {s : Shape}
  {h : Hull}

/-- The cut of the shape cannot be subtracted from the outline. -/
def CutFails (f : Family) (difference : Hull.PolygonDifference) (s : Shape) : Prop :=
  ∃ cut e, Profile.cut? s.profileBegin s.profileEnd f.cutOffset = some cut ∧
    Hull.subtractWith difference f.outline cut = .error e

/-- The hollow is larger than the profile, or its hole cannot be subtracted from what the cut leaves. -/
def HollowFails (f : Family) (difference : Hull.PolygonDifference) (kind : PrimKind) (r : Request) : Prop :=
  cutQuanta < r.shape.profileHollow ∨
  ∃ outline hole e, (f.cutOutline difference kind r).result = .ok outline ∧ f.hole? r.shape = some hole ∧
    Hull.subtractWith difference outline hole = .error e

/-- Without a cut the outline is left as it is, -/
theorem cutOutline_uncut (f : Family) (difference : Hull.PolygonDifference) (kind : PrimKind) {r : Request}
    (hbegin : r.shape.profileBegin = 0) (hend : r.shape.profileEnd = 0) :
    (f.cutOutline difference kind r).result = .ok f.outline := by
  have hcut : Profile.cut? r.shape.profileBegin r.shape.profileEnd f.cutOffset = none := by
    rw [hbegin, hend]
    rfl
  rw [cutOutline, hcut]
  rfl

/-- and with a cut that fails as well. -/
theorem cutOutline_of_fails (hfails : f.CutFails difference r.shape) :
    (f.cutOutline difference kind r).result = .ok f.outline := by
  obtain ⟨cut, e, hcut, herror⟩ := hfails
  rw [cutOutline, hcut]
  dsimp only
  rw [herror]
  rfl

/-- A hull without a hollow is left as it is, -/
theorem hollowOut_unhollowed (f : Family) (difference : Hull.PolygonDifference) {r : Request}
    (hhollow : r.shape.profileHollow = 0) (h : Hull) : (f.hollowOut difference r h).result = .ok h := by
  have hhole : f.hole? r.shape = none := by
    unfold hole? Profile.hole?
    rw [hhollow]
    split <;> rfl
  rw [hollowOut, hhollow, if_neg (by decide), hhole]
  rfl

/-- and one with a hollow that fails as well. -/
theorem hollowOut_of_fails (hcut : (f.cutOutline difference kind r).result = .ok h)
    (hfails : f.HollowFails difference kind r) : (f.hollowOut difference r h).result = .ok h := by
  unfold hollowOut
  rcases hfails with hlarge | ⟨outline, hole, e, houtline, hhole, herror⟩
  · rw [if_pos hlarge]
    rfl
  · cases hcut.symm.trans houtline
    split
    · rfl
    · rw [hhole]
      dsimp only
      rw [herror]
      rfl

/-- What a hull loses to its hollow is not in the cut of the shape. -/
theorem hollowOut_withProfileCut (f : Family) (difference : Hull.PolygonDifference) (r : Request)
    (first last : UInt16) (h : Hull) : f.hollowOut difference r h =
      f.hollowOut difference { r with shape := r.shape.withProfileCut first last } h := rfl

theorem hull_result_of_cut (hcut : (f.cutOutline difference kind r).result = .ok h) :
    (f.hull difference kind r).result = (f.hollowOut difference r h).result :=
  result_bind_ok hcut _

/-- **A cut that fails is no cut.** -/
theorem hull_of_cutFails (hfails : f.CutFails difference r.shape) : (f.hull difference kind r).result =
    (f.hull difference kind { r with shape := r.shape.withProfileCut 0 0 }).result := by
  have huncut := f.cutOutline_uncut difference kind
    (r := { r with shape := r.shape.withProfileCut 0 0 }) rfl rfl
  rw [hull_result_of_cut (cutOutline_of_fails hfails), hull_result_of_cut huncut,
    hollowOut_withProfileCut f difference r 0 0]

/-- **A hollow that fails is no hollow.** -/
theorem hull_of_hollowFails (hfails : f.HollowFails difference kind r) : (f.hull difference kind r).result =
    (f.hull difference kind { r with shape := r.shape.withHollow 0 }).result := by
  obtain ⟨h, hcut⟩ := f.cutOutline_result difference kind r
  have hcut' : (f.cutOutline difference kind { r with shape := r.shape.withHollow 0 }).result = .ok h := hcut
  rw [hull_result_of_cut hcut, hull_result_of_cut hcut', hollowOut_of_fails hcut hfails,
    hollowOut_unhollowed f difference rfl h]

/-- After a cut that fails, the hollow fails for the uncut shape too. -/
theorem HollowFails.uncut (hcut : f.CutFails difference r.shape) (hfails : f.HollowFails difference kind r) :
    f.HollowFails difference kind { r with shape := r.shape.withProfileCut 0 0 } := by
  rcases hfails with hlarge | ⟨outline, hole, e, houtline, hhole, herror⟩
  · exact .inl hlarge
  · cases (cutOutline_of_fails hcut).symm.trans houtline
    exact .inr ⟨_, hole, e, f.cutOutline_uncut difference kind rfl rfl, hhole, herror⟩

end Family

section

variable {difference : Hull.PolygonDifference} {kind : PrimKind} {r : Request} {s : Shape} {f : Family}

/-- **Prims of the profile kinds** are built alike from the same hull, when their paths fit and sweep a
profile alike. -/
theorem extrudePrim_alike (hf : Family.ofKind? kind = some f)
    (hhull : (f.hull difference kind r).result = (f.hull difference kind { r with shape := s }).result)
    (hsweep : ∀ (t : Triangulation) (size : Point), (f.path r.shape).fit t = (f.path s).fit t ∧
      t.extrude? (f.path r.shape) size = t.extrude? (f.path s) size) (sink : DumpSink) :
    (extrudePrim difference kind r sink).Alike (extrudePrim difference kind { r with shape := s } sink) := by
  have hextrude (t : Triangulation) (size : Point) :
      (t.extrude (f.path r.shape) size).Alike (t.extrude (f.path s) size) := by
    refine .of_silent (t.extrude_silent _ _) (t.extrude_silent _ _) ?_
    have hswept := (hsweep t size).2
    cases hm : t.extrude? (f.path r.shape) size with
    | none =>
      rw [Triangulation.extrude, Triangulation.extrude, ← hswept, hm]
    | some m =>
      rw [Triangulation.extrude_result hm, Triangulation.extrude_result (hswept.symm.trans hm)]
  unfold extrudePrim
  rw [hf]
  refine .bind (.of_silent (f.hull_silent _ _ _) (f.hull_silent _ _ _) hhull) fun h _ => ?_
  refine .bind (.refl _) fun t _ => ?_
  dsimp only
  rw [(hsweep t r.size).1]
  refine .bind (.refl _) fun _ _ => .bind (hextrude _ _) fun m _ => ?_
  exact .refl _

end

namespace Mesher

variable {difference : Hull.PolygonDifference} {decode : ImageDecoder} {files : FileSystem}
  {config : Config} {r : Request} {s : Shape} {kind : PrimKind} {f : Family}

/-- A request is built like the one for a shape of its kind with the same hull and the same sweep. -/
theorem createMesh_of_hull (hk : r.shape.kind = .ok kind) (hk' : s.kind = .ok kind)
    (hf : Family.ofKind? kind = some f)
    (hhull : (f.hull difference kind r).result = (f.hull difference kind { r with shape := s }).result)
    (hsweep : ∀ (t : Triangulation) (size : Point), (f.path r.shape).fit t = (f.path s).fit t ∧
      t.extrude? (f.path r.shape) size = t.extrude? (f.path s) size) :
    ((standard difference decode files config).createMesh r).Alike
      ((standard difference decode files config).createMesh { r with shape := s }) := by
  refine createMesh_alike hk hk' fun p hp => ?_
  obtain rfl : p = extrusionProcessor difference := by
    rw [standard_processor?] at hp
    cases kind with
    | sphere | sculpt => cases hf
    | box | cylinder | prism | tube | torus | ring => exact (Option.some.inj hp).symm
  exact extrudePrim_alike hf hhull hsweep _

/-- **A skipped feature leaves no trace.**  Whatever the polygon difference answers: a prim of a profile kind
whose cut fails is built like the one without a cut, its outline not turned around either; one whose hollow
fails like the one without a hollow; and one whose cut and hollow both fail like the one without both.  They
end alike, with the same mesh or the same error, and dump the same files. -/
theorem createMesh_skipped (difference : Hull.PolygonDifference) (decode : ImageDecoder) (files : FileSystem)
    (config : Config) (r : Request) (kind : PrimKind) (f : Family) (hk : r.shape.kind = .ok kind)
    (hf : Family.ofKind? kind = some f) :
    let build (s : Shape) := (standard difference decode files config).createMesh { r with shape := s }
    (f.CutFails difference r.shape → (build r.shape).Alike (build (r.shape.withProfileCut 0 0))) ∧
    (f.HollowFails difference kind r → (build r.shape).Alike (build (r.shape.withHollow 0))) ∧
    (f.CutFails difference r.shape → f.HollowFails difference kind r →
      (build r.shape).Alike (build ((r.shape.withProfileCut 0 0).withHollow 0))) := by
  intro build
  have hkcut := Shape.kind_uncutProfile hk
  have hcut (hfails : f.CutFails difference r.shape) :
      (build r.shape).Alike (build (r.shape.withProfileCut 0 0)) :=
    createMesh_of_hull hk hkcut hf (Family.hull_of_cutFails hfails) fun _ _ => ⟨rfl, rfl⟩
  refine ⟨hcut, fun hhollow => ?_, fun hfails hhollow => (hcut hfails).trans ?_⟩
  · exact createMesh_of_hull hk hk hf (Family.hull_of_hollowFails hhollow) fun _ _ => ⟨rfl, rfl⟩
  · exact createMesh_of_hull (r := { r with shape := r.shape.withProfileCut 0 0 }) hkcut hkcut hf
      (Family.hull_of_hollowFails (hhollow.uncut hfails)) fun _ _ => ⟨rfl, rfl⟩

/-- Nothing can be subtracted from a hull with a difference that leaves nothing. -/
theorem subtractWith_nothing (outer inner : Hull) :
    ∃ e, Hull.subtractWith (fun _ _ => []) outer inner = .error e := by
  unfold Hull.subtractWith
  dsimp only
  split
  · exact ⟨_, rfl⟩
  · split
    · exact ⟨_, rfl⟩
    · exact ⟨_, rfl⟩

/-- A box with a quarter of its profile cut away and half of it hollow. -/
def slicedBox : Request := ⟨"box", (Shape.box.withProfileCut 12500 0).withHollow 25000, ⟨1, 2, -3⟩, 4⟩

/-- At a difference that leaves nothing the box is built whole, with its twelve triangles. -/
theorem createMesh_skipped_slicedBox :
    let mesher := standard (fun _ _ => []) Image.decode? noFiles .quiet
    let build (s : Shape) := mesher.createMesh { slicedBox with shape := s }
    ∃ f, slicedBox.shape.kind = .ok .box ∧ Family.ofKind? .box = some f ∧
      f.CutFails (fun _ _ => []) slicedBox.shape ∧ f.HollowFails (fun _ _ => []) .box slicedBox ∧
      (build slicedBox.shape).Alike (build (Shape.box.withHollow 25000)) ∧
      (build slicedBox.shape).Alike (build (Shape.box.withProfileCut 12500 0)) ∧
      (build slicedBox.shape).Alike (build Shape.box) ∧
      ∃ m, (build slicedBox.shape).result = .ok m ∧ m.triangleCount = 12 := by
  intro mesher build
  have hk : slicedBox.shape.kind = .ok .box := by decide +kernel
  let f : Family := ⟨.square, Profile.square, Family.boxCutOffset, false⟩
  have hcut : f.CutFails (fun _ _ => []) slicedBox.shape := by
    have hwedge : (Profile.Wedge.ofCut? 12500 0 f.cutOffset).isSome = true := by decide +kernel
    obtain ⟨w, hw⟩ := Option.isSome_iff_exists.mp hwedge
    obtain ⟨e, he⟩ := subtractWith_nothing f.outline w.hull
    exact ⟨w.hull, e, congrArg (Option.map Profile.Wedge.hull) hw, he⟩
  have hhollow : f.HollowFails (fun _ _ => []) .box slicedBox := by
    obtain ⟨e, he⟩ := subtractWith_nothing f.outline
      (Profile.holePolygon .square (Quanta.hollowFraction 25000) .square)
    exact .inr ⟨_, _, e, Family.cutOutline_of_fails hcut, rfl, he⟩
  obtain ⟨hcuts, hhollows, hboth⟩ :=
    createMesh_skipped (fun _ _ => []) Image.decode? noFiles .quiet slicedBox .box f hk rfl
  have hcount : ∃ m ∈ (build Shape.box).result.toOption, m.triangleCount = 12 := by decide +kernel
  obtain ⟨m, hm, hcount⟩ := hcount
  exact ⟨f, hk, rfl, hcut, hhollow, hcuts hcut, hhollows hhollow, hboth hcut hhollow, m,
    (hboth hcut hhollow).result.trans (mem_toOption.mp hm), hcount⟩

end Mesher

/-! ### Crossed path cuts -/

namespace Family

variable {s : Shape}

/-- Of the path of a kind, the cut does not matter to how it fits and sweeps a profile when it crosses. -/
theorem path_crossed (f : Family) (hvalid : s.error? = none) (hcross : s.CutsCross) (t : Triangulation)
    (size : Point) : (f.path s).fit t = (f.path (s.withPathCut 0 0)).fit t ∧
      t.extrude? (f.path s) size = t.extrude? (f.path (s.withPathCut 0 0)) size := by
  unfold path
  split
  · have heffective : (CircularPath.ofShape s).effective =
        (CircularPath.ofShape (s.withPathCut 0 0)).effective := by
      rw [CircularPath.effective_ofShape hvalid, if_pos hcross, CircularPath.effective_uncut]
    refine ⟨rfl, ?_⟩
    unfold Triangulation.extrude?
    rw [CircularPath.layers_congr heffective]
  · exact ⟨rfl, rfl⟩

end Family

namespace Mesher

variable {difference : Hull.PolygonDifference} {decode : ImageDecoder} {files : FileSystem}
  {config : Config} {r : Request}

/-- A prim whose path cuts cross is built like the one without path cuts. -/
theorem createMesh_alike_uncutPath (hvalid : r.shape.error? = none) (hcross : r.shape.CutsCross) :
    ((standard difference decode files config).createMesh r).Alike
      ((standard difference decode files config).createMesh { r with shape := r.shape.withPathCut 0 0 }) := by
  obtain ⟨kind, hk⟩ : ∃ kind, r.shape.kind = .ok kind := ⟨_, Shape.kind_eq_ok_iff.mpr ⟨hvalid, rfl⟩⟩
  have hk' := Shape.kind_uncutPath hk
  cases hf : Family.ofKind? kind with
  | some f =>
    have hhull : f.hull difference kind r =
        f.hull difference kind { r with shape := r.shape.withPathCut 0 0 } :=
      f.hull_congr rfl ⟨rfl, rfl, rfl, rfl⟩ difference kind
    exact createMesh_of_hull hk hk' hf (congrArg Build.result hhull)
      fun t size => f.path_crossed hvalid hcross t size
  | none =>
    refine createMesh_alike hk hk' fun p hp => ?_
    rw [standard_processor?] at hp
    cases hp
    cases kind with
    | sphere | sculpt => exact .refl _
    | box | cylinder | prism | tube | torus | ring => cases hf

/-- **Path cuts that leave nothing are no path cuts**, and no others are skipped.  A valid request whose path
cuts meet or cross is built like the one without them, whatever its kind, its size and its level of detail.
A circular path is swept whole, and a warning given, exactly when its cuts meet or cross; otherwise, however
narrow the cut, the path is swept as it is. -/
theorem createMesh_crossedCuts (difference : Hull.PolygonDifference) (decode : ImageDecoder)
    (files : FileSystem) (config : Config) :
    (∀ r : Request, r.shape.error? = none → r.shape.CutsCross →
      ((standard difference decode files config).createMesh r).Alike
        ((standard difference decode files config).createMesh { r with shape := r.shape.withPathCut 0 0 })) ∧
    ∀ s : Shape, s.error? = none →
      let path := CircularPath.ofShape s
      let whole := CircularPath.ofShape (s.withPathCut 0 0)
      let warnings := (SweepPath.circular path).reportCut.trace.events
      (s.CutsCross → path.effective = whole ∧
        (SweepPath.circular path).layers = (SweepPath.circular whole).layers ∧
        warnings = [.cutLeavesNothing path.cutBegin path.cutEnd]) ∧
      (¬ s.CutsCross → path.effective = path ∧ path.cutBegin < path.cutEnd ∧ warnings = []) := by
  refine ⟨fun r => createMesh_alike_uncutPath, fun s hvalid => ⟨fun hcross => ?_, fun hapart => ?_⟩⟩
  · have heffective := CircularPath.effective_ofShape hvalid
    rw [if_pos hcross] at heffective
    refine ⟨heffective, CircularPath.layers_congr ?_, ?_⟩
    · rw [heffective, CircularPath.effective_uncut]
    · rw [CircularPath.reportCut_ofShape hvalid, if_pos hcross]
  · refine ⟨?_, of_decide_eq_true ((CircularPath.hasCut_ofShape_iff hvalid).mpr hapart), ?_⟩
    · rw [CircularPath.effective_ofShape hvalid, if_neg hapart]
    · rw [CircularPath.reportCut_ofShape hvalid, if_neg hapart]

/-- A torus with cuts of the whole path, from both ends, and one with a single quantum left. -/
theorem createMesh_crossedCuts_torus :
    let mesher := ofConfig noFiles .quiet
    let torus (s : Shape) := mesher.createMesh ⟨"torus", s, ⟨1, 2, -3⟩, 4⟩
    let crossed := Shape.torus.withPathCut 20000 30000
    let narrow := Shape.torus.withPathCut 20000 29999
    let rest := CircularPath.ofShape narrow
    (crossed.error? = none ∧ crossed.CutsCross ∧ (torus crossed).Alike (torus Shape.torus)) ∧
    (CircularPath.ofShape crossed).effective = CircularPath.ofShape Shape.torus ∧
    narrow.error? = none ∧ ¬ narrow.CutsCross ∧ rest.effective = rest ∧ rest.cutBegin < rest.cutEnd ∧
      (SweepPath.circular rest).reportCut.trace.events = [] := by
  intro mesher torus crossed narrow rest
  obtain ⟨hbuild, hpath⟩ := createMesh_crossedCuts Overlay.difference Image.decode? noFiles .quiet
  have hcrossed : crossed.error? = none := by decide
  have hmeet : crossed.CutsCross := by decide
  obtain ⟨heffective, -, -⟩ := (hpath crossed hcrossed).1 hmeet
  have hnarrow : narrow.error? = none := by decide
  have hapart : ¬ narrow.CutsCross := by decide
  exact ⟨⟨hcrossed, hmeet, hbuild ⟨"torus", crossed, ⟨1, 2, -3⟩, 4⟩ hcrossed hmeet⟩, heffective,
    hnarrow, hapart, (hpath narrow hnarrow).2 hapart⟩

end Mesher

end Prims
