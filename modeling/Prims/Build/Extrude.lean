import Prims.Build.Basic
import Prims.Sweep.Surface

/-!
# Build — Extrude

Sweeping a profile along a path.  A circular path whose cut leaves nothing is swept whole, which is
reported.
-/

namespace Prims

/-- The event of a path that is swept whole because of its empty cut. -/
def SweepPath.reportCut : SweepPath → Build Unit
  | .linear _   => pure ()
  | .circular p => Build.reportIf (!p.hasCut) (.cutLeavesNothing p.cutBegin p.cutEnd)

/-- The surface of a profile swept along a path, scaled to a size. -/
def Triangulation.extrude (t : Triangulation) (path : SweepPath) (size : Point) : Build Mesh :=
  match t.extrude? path size with
  | none   => .fail .emptyProfile
  | some m => do
    path.reportCut
    return m

end Prims
