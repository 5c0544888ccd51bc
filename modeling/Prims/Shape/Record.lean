import Prims.Json
import Prims.Shape.Basic

/-!
# Shape — Record

Shapes as JSON.  A shape is written as an object of its fields, and read from such an object in any
order and with other keys in it, or from the list of all values in field order.  An object that gives
a field of the shape twice is refused; other keys may come more than once.
-/

namespace Prims

namespace Json

def ofUInt8 (n : UInt8) : Json := .integer n.toNat
def ofUInt16 (n : UInt16) : Json := .integer n.toNat
def ofInt8 (n : Int8) : Json := .integer n.toInt
def ofInt16 (n : Int16) : Json := .integer n.toInt
def ofBytes (b : ByteArray) : Json := .array (b.data.toList.map ofUInt8)

def uint8? (j : Json) : Option UInt8 := (j.integerIn? 0 255).map fun n => UInt8.ofNat n.toNat
def uint16? (j : Json) : Option UInt16 := (j.integerIn? 0 65535).map fun n => UInt16.ofNat n.toNat
def int8? (j : Json) : Option Int8 := (j.integerIn? (-128) 127).map Int8.ofInt
def int16? (j : Json) : Option Int16 := (j.integerIn? (-32768) 32767).map Int16.ofInt

def bytes? (j : Json) : Option ByteArray := do
  let items ← j.items?
  let bytes ← items.mapM uint8?
  return ⟨bytes.toArray⟩

end Json

namespace Shape

/-- The names of the fields, in field order. -/
def fieldNames : List String :=
  ["profile_curve", "profile_begin", "profile_end", "profile_hollow", "path_curve", "path_begin",
    "path_end", "path_scale_x", "path_scale_y", "path_shear_x", "path_shear_y", "path_twist",
    "path_twist_begin", "path_radius_offset", "path_taper_x", "path_taper_y", "path_revolutions",
    "path_skew", "sculpt_entry", "sculpt_type", "sculpt_data"]

open Json in
/-- The values of the fields, in field order. -/
def toValues (s : Shape) : List Json :=
  [ofUInt8 s.profileCurve, ofUInt16 s.profileBegin, ofUInt16 s.profileEnd,
    ofUInt16 s.profileHollow, ofUInt8 s.pathCurve, ofUInt16 s.pathBegin, ofUInt16 s.pathEnd,
    ofUInt8 s.pathScaleX, ofUInt8 s.pathScaleY, ofUInt8 s.pathShearX, ofUInt8 s.pathShearY,
    ofInt16 s.pathTwist, ofInt16 s.pathTwistBegin, ofInt8 s.pathRadiusOffset,
    ofInt8 s.pathTaperX, ofInt8 s.pathTaperY, ofUInt8 s.pathRevolutions, ofInt8 s.pathSkew,
    .bool s.sculptEntry, ofUInt8 s.sculptType, ofBytes s.sculptData]

/-- The shape with these values; there must be one for every field, each of its field's type. -/
def ofValues? : List Json → Option Shape
  | [profileCurve, profileBegin, profileEnd, profileHollow, pathCurve, pathBegin, pathEnd,
      pathScaleX, pathScaleY, pathShearX, pathShearY, pathTwist, pathTwistBegin,
      pathRadiusOffset, pathTaperX, pathTaperY, pathRevolutions, pathSkew, sculptEntry,
      sculptType, sculptData] => do
    return {
      profileCurve     := ← profileCurve.uint8?
      profileBegin     := ← profileBegin.uint16?
      profileEnd       := ← profileEnd.uint16?
      profileHollow    := ← profileHollow.uint16?
      pathCurve        := ← pathCurve.uint8?
      pathBegin        := ← pathBegin.uint16?
      pathEnd          := ← pathEnd.uint16?
      pathScaleX       := ← pathScaleX.uint8?
      pathScaleY       := ← pathScaleY.uint8?
      pathShearX       := ← pathShearX.uint8?
      pathShearY       := ← pathShearY.uint8?
      pathTwist        := ← pathTwist.int16?
      pathTwistBegin   := ← pathTwistBegin.int16?
      pathRadiusOffset := ← pathRadiusOffset.int8?
      pathTaperX       := ← pathTaperX.int8?
      pathTaperY       := ← pathTaperY.int8?
      pathRevolutions  := ← pathRevolutions.uint8?
      pathSkew         := ← pathSkew.int8?
      sculptEntry      := ← sculptEntry.bool?
      sculptType       := ← sculptType.uint8?
      sculptData       := ← sculptData.bytes? }
  | _ => none

/-- The shape as an object. -/
def toJson (s : Shape) : Json := .object (fieldNames.zip s.toValues)

/-- The shape in a JSON value, in either layout. -/
def ofJson? : Json → Option Shape
  | .object fields => (fieldNames.mapM fun name => Json.field? name fields) >>= ofValues?
  | .array values  => ofValues? values
  | _              => none

end Shape

end Prims
