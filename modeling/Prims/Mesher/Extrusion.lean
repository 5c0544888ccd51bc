import Prims.Build.Extrude
import Prims.Build.Triangulate
import Prims.Mesher.Processor
import Prims.Profile.Cut
import Prims.Profile.Hole

/-!
# Mesher — Extrusion

Boxes, cylinders, prisms, tubes, tori and rings.  The outline of the family loses its cut and its
hollow, is triangulated and then swept.  A cut or hollow that cannot be subtracted is skipped, which
is reported; the polygon difference that subtracts them is open.
-/

namespace Prims

open Hull (PolygonDifference)

/-- What the prims of one kind have in common. -/
structure Family where
  profile   : ProfileShape
  outline   : Hull
  /-- By how many degrees the cut is turned back. -/
  cutOffset : Float
  circular  : Bool

namespace Family

/-- The cut of a box starts from a corner. -/
def boxCutOffset : Float := 135

def ofKind? : PrimKind → Option Family
  | .box      => some ⟨.square, Profile.square, boxCutOffset, false⟩
  | .cylinder => some ⟨.circle, Profile.circle, 0, false⟩
  | .prism    => some ⟨.equilateralTriangle, Profile.prism, 0, false⟩
  | .tube     => some ⟨.square, Profile.square, 0, true⟩
  | .torus    => some ⟨.circle, Profile.circle, 0, true⟩
  | .ring     => some ⟨.equilateralTriangle, Profile.ring, 0, true⟩
  | .sphere   => none
  | .sculpt   => none

/-- The hole of a shape, if it has one. -/
def hole? (f : Family) (s : Shape) : Option Hull :=
  if !f.circular then Profile.hole? f.profile s.hollow s.profileHollow true
  else if s.profileHollow = 0 then none
  else
    match Profile.circularHollow f.profile s.hollow with
    | .triangle => some (Profile.circularTriangleHole f.profile s.profileHollow)
    | hollow    => Profile.hole? f.profile hollow s.profileHollow false

/-- The outline after the profile cut; that of a torus is turned around. -/
def cutOutline (f : Family) (difference : PolygonDifference) (kind : PrimKind) (r : Request) :
    Build Hull :=
  match Profile.cut? r.shape.profileBegin r.shape.profileEnd f.cutOffset with
  | none     => pure f.outline
  | some cut =>
    match Hull.subtractWith difference f.outline cut with
    | .ok h    => pure (if kind = .torus then h.rotateZ Single.pi else h)
    | .error e => do
      Build.report (.cutSkipped r.name e)
      return f.outline

/-- A hull after the hollow. -/
def hollowOut (f : Family) (difference : PolygonDifference) (r : Request) (h : Hull) :
    Build Hull :=
  if cutQuanta < r.shape.profileHollow then do
    Build.report (.hollowOversized r.name r.shape.profileHollow)
    return h
  else
    match f.hole? r.shape with
    | none      => pure h
    | some hole =>
      match Hull.subtractWith difference h hole with
      | .ok hollowed => pure hollowed
      | .error e     => do
        Build.report (.hollowSkipped r.name e)
        return h

/-- The hull that is swept. -/
def hull (f : Family) (difference : PolygonDifference) (kind : PrimKind) (r : Request) :
    Build Hull := do
  let cut ← f.cutOutline difference kind r
  f.hollowOut difference r cut

/-- The path of a shape. -/
def path (f : Family) (s : Shape) : SweepPath :=
  if f.circular then .circular (.ofShape s) else .linear (.ofShape s)

end Family

/-- A profile scaled for its path. -/
def SweepPath.fit (path : SweepPath) (profile : Triangulation) : Triangulation :=
  match path with
  | .linear _   => profile
  | .circular p =>
    let scale := p.profileScale
    { profile with
      mesh := profile.mesh.mapVertices fun v => ⟨v.x * scale.x, v.y * scale.y, v.z⟩ }

/-- The mesh of a prim of a profile kind. -/
def extrudePrim (difference : PolygonDifference) (kind : PrimKind) (r : Request)
    (sink : DumpSink) : Build Mesh :=
  match Family.ofKind? kind with
  | none        => .fail (.notExtruded kind)
  | some family => do
    let hull ← family.hull difference kind r
    let profile ← hull.triangulate sink r.name
    let path := family.path r.shape
    let profile := path.fit profile
    Build.report
      (.extruding r.name kind profile.mesh.vertexCount profile.mesh.triangleCount)
    let mesh ← profile.extrude path r.size
    sink.dump mesh r.name "Z extruded"
    return mesh

def extrusionProcessor (difference : PolygonDifference) : Processor where
  kinds := [.box, .cylinder, .prism, .tube, .torus, .ring]
  run   := extrudePrim difference

end Prims
