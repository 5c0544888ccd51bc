import Prims.Image.Bmp
import Prims.Image.Png

/-!
# Image — Decode

Images in a format that their first bytes tell.
-/

namespace Prims.Image

def startsWith (b : ByteArray) (signature : List UInt8) : Bool :=
  (b.extract 0 signature.length).data.toList == signature

/-- The image in a file, of any format that is known. -/
def decode? (b : ByteArray) : Option Raster :=
  if startsWith b Png.signature then Png.decode? b
  else if startsWith b Bmp.signature then Bmp.decode? b
  else none

end Prims.Image
