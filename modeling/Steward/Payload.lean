/-
Payloads: the host values an object can carry, and their kinds.

A type that binds payloads names the kind it asks for; `Kind.accepts` says which
kinds then fit.  A host object is opaque and equal only to itself, so it carries
the number under which it was made.
-/

namespace Steward

/-- A kind of host value. -/
inductive Kind where
  | any
  | bool
  | int
  | float
  | number
  | text
  /-- Host objects of the type with this name. -/
  | host (type : String)
  deriving DecidableEq, Repr

namespace Kind

/-- How a kind is written. -/
def display : Kind → String
  | any => "any"
  | bool => "bool"
  | int => "int"
  | float => "float"
  | number => "number"
  | text => "string"
  | host type => "host<" ++ type ++ ">"

instance : ToString Kind where
  toString := display

/-- The kinds that fit where `required` is asked for: all of them for `any`, the
three numeric ones for `number`, and otherwise only the kind itself. -/
def accepts (required candidate : Kind) : Bool :=
  match required with
  | any => true
  | number => candidate == number || candidate == int || candidate == float
  | _ => required == candidate

end Kind

/-- An opaque object of the host. -/
structure HostObject where
  /-- The name of its host type. -/
  type : String
  label : String
  /-- The number under which the host made it. -/
  id : Nat
  deriving DecidableEq, Repr

/-- A host value. -/
inductive Payload where
  | bool (value : Bool)
  | int (value : Int64)
  | float (value : Float)
  | text (value : String)
  | host (object : HostObject)

namespace Payload

def kind : Payload → Kind
  | bool _ => .bool
  | int _ => .int
  | float _ => .float
  | text _ => .text
  | host object => .host object.type

/-- Equality of payloads: floats by their arithmetic, host objects by identity. -/
def equal : Payload → Payload → Bool
  | bool a, bool b => a == b
  | int a, int b => a == b
  | float a, float b => a == b
  | text a, text b => a == b
  | host a, host b => a.id == b.id
  | _, _ => false

instance : BEq Payload where
  beq := equal

def bool? : Payload → Option Bool
  | bool b => some b
  | _ => none

def int? : Payload → Option Int64
  | int i => some i
  | _ => none

def float? : Payload → Option Float
  | float x => some x
  | _ => none

def text? : Payload → Option String
  | text s => some s
  | _ => none

/-- The host object inside, if it is of the given host type. -/
def host? (type : String) : Payload → Option HostObject
  | host object => if object.type = type then some object else none
  | _ => none

end Payload

/-- A payload as a host writes it down: a host object gets its number only when
it is made. -/
inductive Literal where
  | bool (value : Bool)
  | int (value : Int64)
  | float (value : Float)
  | text (value : String)
  | host (type label : String)

/-- The payload a literal makes, a host object under the number `id`. -/
def Literal.make (id : Nat) : Literal → Payload
  | bool b => .bool b
  | int i => .int i
  | float x => .float x
  | text s => .text s
  | host type label => .host ⟨type, label, id⟩

end Steward
