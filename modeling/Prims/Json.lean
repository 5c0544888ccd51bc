/-!
# Json

JSON values.  A number written without fraction and exponent is an integer of any size; every
other number, and a zero with a sign, is kept apart as a decimal.
-/

namespace Prims

inductive Json where
  | null
  | bool (b : Bool)
  | integer (n : Int)
  | decimal (mantissa : Int) (places : Nat)
  | string (s : String)
  | array (items : List Json)
  | object (fields : List (String × Json))
deriving Inhabited

namespace Json

def bool? : Json → Option Bool
  | .bool b => some b
  | _       => none

/-- An integer of a range. -/
def integerIn? (low high : Int) : Json → Option Int
  | .integer n => if low ≤ n ∧ n ≤ high then some n else none
  | _          => none

def items? : Json → Option (List Json)
  | .array l => some l
  | _        => none

/-- The value of a field that is given once.  There is none for a field that is missing, nor for one
that is given again. -/
def field? (name : String) (fields : List (String × Json)) : Option Json :=
  match fields.filter fun f => f.1 == name with
  | [f] => some f.2
  | _   => none

end Json

end Prims
