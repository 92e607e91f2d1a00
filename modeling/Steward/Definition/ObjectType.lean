/-
Object types: what an object is, which properties it has, which contracts it
fulfils and which payloads it can carry.

A type has at most one parent, whose properties come before its own.  It is
built from a `TypeSpec`; what the contracts ask for is checked then, once, so
that every built type keeps its promises.
-/
import Steward.Definition.Contract
import Steward.Payload

namespace Steward

/-- A type of objects. -/
structure ObjectType where
  /-- The number under which it was defined. -/
  stamp : Nat
  name : Name
  parent : Option ObjectType
  /-- The contracts it declares itself. -/
  contracts : List Contract
  /-- The properties everyone sees, the parent's first. -/
  publicKeys : List Key
  /-- The properties only the object itself sees, the parent's first. -/
  privateKeys : List Key
  /-- The script that makes a fresh object ready. -/
  ctor : Option Name
  /-- The kind of payload an object can carry. -/
  binding : Option Kind

/-- What a type is built from: the properties here are its own. -/
structure TypeSpec where
  name : Name
  parent : Option ObjectType := none
  contracts : List Contract := []
  publicKeys : List Key := []
  privateKeys : List Key := []
  ctor : Option Name := none
  binding : Option Kind := none

namespace ObjectType

/-- All properties, the public ones first. -/
def keys (t : ObjectType) : List Key :=
  t.publicKeys ++ t.privateKeys

/-- The property of a given name, a private one only if asked for. -/
def property? (t : ObjectType) (name : String) (withPrivate : Bool) : Option Key :=
  match t.publicKeys.find? (·.name == name) with
  | some k => some k
  | none => if withPrivate then t.privateKeys.find? (·.name == name) else none

/-- Whether an object can carry a payload of this kind. -/
def accepts (t : ObjectType) (kind : Kind) : Bool :=
  match t.binding with
  | some required => required.accepts kind
  | none => false

/-- Whether the type, a contract it fulfils or a type it descends from is called
`target`: the contracts are tried first, then the parent, with one list of
visited names for all of them. -/
def reaches (target : Name) (visited : List Name) : ObjectType → Bool × List Name
  | ⟨_, name, parent, contracts, _, _, _, _⟩ =>
    if name = target then (true, visited)
    else if name ∈ visited then (false, visited)
    else
      match Contract.anyReaches target (name :: visited) contracts with
      | (true, visited) => (true, visited)
      | (false, visited) =>
        match parent with
        | some p => p.reaches target visited
        | none => (false, visited)

/-- Whether the type is compatible with the definition called `target`. -/
def isNamed (t : ObjectType) (target : Name) : Bool :=
  (t.reaches target []).1

end ObjectType

namespace TypeSpec

/-- The public properties of the type to be: the parent's, then its own. -/
def allPublic (s : TypeSpec) : List Key :=
  (match s.parent with | some p => p.publicKeys | none => []) ++ s.publicKeys

/-- The private properties of the type to be: the parent's, then its own. -/
def allPrivate (s : TypeSpec) : List Key :=
  (match s.parent with | some p => p.privateKeys | none => []) ++ s.privateKeys

/-- The keys a contract asks for and the type to be does not show. -/
def missing (s : TypeSpec) (c : Contract) : List Key :=
  c.required.filter (· ∉ s.allPublic)

/-- What a declared contract has to object. -/
def unmet? (s : TypeSpec) (c : Contract) : Option Violation :=
  match s.missing c with
  | [] => none
  | ks => some (.unmetContract c.name.text (ks.map Key.display))

/-- Whether the type to be would descend from itself. -/
def isCyclic (s : TypeSpec) : Bool :=
  match Contract.anyReaches s.name [] s.contracts with
  | (true, _) => true
  | (false, visited) =>
    match s.parent with
    | some p => (p.reaches s.name visited).1
    | none => false

/-- Everything that is wrong: names declared twice, then contracts not met, then
descent from itself. -/
def violations (s : TypeSpec) : List Violation :=
  (duplicateNames (s.allPublic ++ s.allPrivate)).map .duplicateKey
    ++ s.contracts.filterMap s.unmet?
    ++ if s.isCyclic then [.cycle s.name.text] else []

/-- Builds the type, unless something is wrong. -/
def build (s : TypeSpec) (stamp : Nat) : Except Error ObjectType :=
  match s.violations with
  | [] => .ok {
      stamp, name := s.name, parent := s.parent, contracts := s.contracts
      publicKeys := s.allPublic, privateKeys := s.allPrivate, ctor := s.ctor, binding := s.binding }
  | vs => .error (.definition s.name.text vs)

end TypeSpec

end Steward
