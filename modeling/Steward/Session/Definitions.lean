/-
Steps on definitions: contracts, types and registries.
-/
import Steward.Session.Answer

namespace Steward

/-- A step on definitions.  Names and types of keys are texts, read when the step
is taken, in the order of the fields. -/
inductive DefinitionStep where
  | contract (name : String) (props : List (String × String)) (parents : List String)
      (handle : String)
  | type (name : String) (publicKeys privateKeys : List (String × String))
      (contracts : List String) (parent : Option String) (ctor : Option String)
      (binding : Option Kind) (handle : String)
  | describe (definition : DefinitionRef)
  | compare (a b : DefinitionRef)
  | isNamed (name : String) (definition : DefinitionRef)
  | property (type name : String) (withPrivate : Bool)
  | accepts (kind : Kind) (type : String)
  | register (definition : DefinitionRef) (registry : String)
  | registry (registry : String) (query : Option String)

namespace DefinitionStep

/-- The registry under a name; it is empty until something is registered. -/
def registryOf (s : Session) (name : String) : Registry :=
  (s.registries.find? name).getD {}

open Host

/-- Takes a step on definitions. -/
def take : DefinitionStep → Host Answer
  | contract name props parents handle => do
    let name ← readName name
    let props ← props.mapM readKey
    let parents ← parents.mapM findContract
    let c ← ofResult (Contract.define (← fresh) name props parents)
    modify fun s => { s with contracts := s.contracts.insert handle c }
    return .required c.required
  | type name publicKeys privateKeys contracts parent ctor binding handle => do
    let name ← readName name
    let publicKeys ← publicKeys.mapM readKey
    let privateKeys ← privateKeys.mapM readKey
    let contracts ← contracts.mapM findContract
    let parent ← parent.mapM findType
    let ctor ← ctor.mapM readName
    let spec : TypeSpec := { name, parent, contracts, publicKeys, privateKeys, ctor, binding }
    let t ← ofResult (spec.build (← fresh))
    modify fun s => { s with types := s.types.insert handle t }
    return .visible t.publicKeys t.privateKeys
  | describe definition => do
    return .definition (← findDefinition definition)
  | compare a b => do
    let a ← findDefinition a
    let b ← findDefinition b
    return .relation (a.is b) (b.is a) (a.name == b.name) (a.same b) a b
  | isNamed name definition => do
    let name ← readName name
    return .isNamed ((← findDefinition definition).isNamed name)
  | property t name withPrivate => do
    return .key ((← findType t).property? name withPrivate)
  | accepts kind t => do
    return .ok ((← findType t).accepts kind)
  | register definition reg => do
    let d ← findDefinition definition
    let r ← ofResult ((registryOf (← get) reg).register d)
    modify fun s => { s with registries := s.registries.insert reg r }
    return .registered r.size
  | registry reg query => do
    let query ← query.mapM readName
    return .registry (registryOf (← get) reg) query

end DefinitionStep

end Steward
