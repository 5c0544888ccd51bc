import Prims.Build.Basic

/-!
# Mesher — Processor

A request for a mesh, and what answers requests of certain kinds.
-/

namespace Prims

/-- One prim to be meshed. -/
structure Request where
  /-- Used in events and in the names of dumps. -/
  name   : String
  shape  : Shape
  size   : Point
  /-- Level of detail of sculpt maps. -/
  detail : Float32

structure Processor where
  kinds : List PrimKind
  run   : PrimKind → Request → DumpSink → Build Mesh

end Prims
