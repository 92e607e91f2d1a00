/-
Property keys: a free name together with the declared type.

Two keys are equal when both parts are; they are ordered by name, then by type.
-/
import Steward.Name

namespace Steward

/-- The key of a property or slot. -/
structure Key where
  name : String
  type : Name
  deriving DecidableEq, Repr, Inhabited

namespace Key

/-- How a key is written. -/
def display (k : Key) : String :=
  k.name ++ ":" ++ k.type.text

instance : ToString Key where
  toString := display

/-- Whether two keys share their name, whatever their types. -/
def sameName (a b : Key) : Bool :=
  a.name == b.name

/-- By name, then by type. -/
instance : Ord Key where
  compare a b := (compare a.name b.name).then (compare a.type b.type)

/-- Keys in ascending order. -/
def sorted (keys : List Key) : List Key :=
  keys.mergeSort (fun a b => (compare a b).isLE)

end Key

end Steward
