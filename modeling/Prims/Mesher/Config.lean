/-!
# Mesher — Config

What a mesher writes beside its meshes, and how two environment variables set it.
-/

namespace Prims

namespace Text

/-- Unicode white space. -/
def isBlank (c : Char) : Bool :=
  let n := c.toNat
  (0x09 ≤ n && n ≤ 0x0d) || n == 0x20 || n == 0x85 || n == 0xa0 || n == 0x1680 ||
    (0x2000 ≤ n && n ≤ 0x200a) || n == 0x2028 || n == 0x2029 || n == 0x202f || n == 0x205f ||
    n == 0x3000

/-- A text without white space at its ends. -/
def trimmed (s : String) : List Char :=
  ((s.toList.dropWhile isBlank).reverse.dropWhile isBlank).reverse

/-- Trimmed and with small ASCII letters, one of the words that switch something on. -/
def isOn (s : String) : Bool :=
  ["1", "true", "yes", "on"].contains (String.ofList ((trimmed s).map Char.toLower))

end Text

structure Config where
  /-- The directory of raw dumps. -/
  dumpDirectory : Option String
  /-- Report the parameters of every shape. -/
  reportShapes  : Bool
deriving DecidableEq

namespace Config

/-- Neither dumps nor reports. -/
def quiet : Config := ⟨none, false⟩

/-- The text of a variable; one that is not in UTF-8 counts as unset. -/
def textOf (value : Option ByteArray) : Option String := value.bind String.fromUTF8?

/-- The configuration of two variables.  A dump directory of white space is none. -/
def ofEnvironment (dumpDirectory reportShapes : Option ByteArray) : Config where
  dumpDirectory := (textOf dumpDirectory).filter fun s => !(Text.trimmed s).isEmpty
  reportShapes  := (textOf reportShapes).any Text.isOn

end Config

end Prims
