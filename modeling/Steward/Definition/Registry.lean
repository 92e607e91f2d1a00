/-
Definitions and registries: a definition is a type or a contract, and a registry
is the list of definitions that were registered, in that order, at most one
under each name.
-/
import Steward.Definition.ObjectType

namespace Steward

/-- A type or a contract. -/
inductive Definition where
  | type (type : ObjectType)
  | contract (contract : Contract)

namespace Definition

def name : Definition → Name
  | type t => t.name
  | contract c => c.name

def type? : Definition → Option ObjectType
  | type t => some t
  | contract _ => none

def contract? : Definition → Option Contract
  | contract c => some c
  | type _ => none

/-- Whether the definition is compatible with the one called `target`. -/
def isNamed : Definition → Name → Bool
  | type t, target => t.isNamed target
  | contract c, target => c.isNamed target

/-- Whether `a` can stand where `b` is asked for. -/
def is (a b : Definition) : Bool :=
  a.isNamed b.name

/-- Whether both are one definition, and not only of one name. -/
def same : Definition → Definition → Bool
  | type a, type b => a.stamp == b.stamp
  | contract a, contract b => a.stamp == b.stamp
  | _, _ => false

/-- The properties visible to everyone. -/
def publicKeys : Definition → List Key
  | type t => t.publicKeys
  | contract c => c.required

end Definition

/-- Definitions in the order of their registration. -/
structure Registry where
  definitions : List Definition := []

namespace Registry

def find? (r : Registry) (name : Name) : Option Definition :=
  r.definitions.find? (·.name == name)

def type? (r : Registry) (name : Name) : Option ObjectType :=
  (r.find? name).bind Definition.type?

def contract? (r : Registry) (name : Name) : Option Contract :=
  (r.find? name).bind Definition.contract?

def contains (r : Registry) (name : Name) : Bool :=
  (r.find? name).isSome

def size (r : Registry) : Nat :=
  r.definitions.length

/-- Registers a definition, unless its name is taken. -/
def register (r : Registry) (d : Definition) : Except Error Registry :=
  if r.contains d.name then
    .error (.definition d.name.text [.alreadyDefined d.name.text])
  else .ok ⟨r.definitions ++ [d]⟩

end Registry

end Steward
