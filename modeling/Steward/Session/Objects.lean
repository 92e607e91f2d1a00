/-
Steps on objects: making them, their payloads and their members.
-/
import Steward.Session.Answer

namespace Steward

/-- The scope a host gives a call, by names. -/
structure ScopeText where
  capabilities : List String := []
  depth : Nat := 1
  token : Option String := none
  context : Option GroupRef := none

/-- How a host reads a payload. -/
inductive PayloadReader where
  /-- As it is. -/
  | any
  /-- As a value of a kind, which has to be its own. -/
  | kind (kind : Kind)
  /-- As a host object of a type. -/
  | host (type : String)

/-- A step on objects. -/
inductive ObjectStep where
  | instantiate (type handle : String)
  | bind (type : String) (value : Literal) (handle : String)
  /-- Makes an object and runs its constructor, in the given scope or as a
  top-level call. -/
  | construct (type : String) (scope : Option ScopeText) (handle : String)
  | refer (object handle : String)
  | same (a b : String)
  | satisfies (name object : String)
  | setPayload (object : String) (value : Literal)
  | copyPayload (source target : String)
  | payloadsEqual (a b : String)
  | payload (object : String) (reader : PayloadReader)
  | memberKey (object name : String) (withPrivate : Bool)
  | read (object name : String) (withPrivate : Bool) (handle : Option String)
  | write (value : Option String) (object name : String) (withPrivate : Bool)

namespace Host

/-- Reads a scope. -/
def readScope (scope : ScopeText) : Host Scope := do
  let token ← scope.token.mapM findToken
  let context ← scope.context.mapM findGroup
  return ⟨.ofList scope.capabilities, scope.depth, token, context⟩

/-- Does something that leaves a store behind, whether it works or not. -/
def onStore (action : Session → Outcome α) : Host α := do
  let (result, store) := action (← getThe Session)
  setStore store
  ofResult result

end Host

namespace ObjectStep

open Host

/-- Reads the payload of an object. -/
def readPayload (s : Store) (o : ObjectRef) : PayloadReader → Except Error Payload
  | .any => s.payload o
  | .kind kind => s.payloadAs o kind.display fun v => if v.kind == kind then some v else none
  | .host type => s.payloadAs o type fun v => (v.host? type).map Payload.host

/-- Takes a step on objects. -/
def take : ObjectStep → Host Answer
  | instantiate type handle => do
    needOpen
    let type ← findType type
    let (o, store) := (← getThe Session).store.instantiate type
    setStore store
    answerObject handle o
  | bind type value handle => do
    needOpen
    let type ← findType type
    let value ← makePayload value
    answerObject handle (← onStore fun s => s.store.bind type value)
  | construct type scope handle => do
    needOpen
    let type ← findType type
    let scope ← match scope with
      | some scope => readScope scope
      | none => do pure { capabilities := (← getThe Session).config.defaultCapabilities }
    answerObject handle (← onStore fun s => s.env.construct s.held type scope s.store)
  | refer object handle => do
    answerObject handle (← findObject object)
  | same a b => do
    let a ← findObject a
    return .same (a.same (← findObject b))
  | satisfies name object => do
    let name ← readName name
    return .satisfies ((← findObject object).satisfies name)
  | setPayload object value => do
    let o ← findObject object
    let value ← makePayload value
    setStore (← ofResult ((← getThe Session).store.setPayload o value))
    return .ok true
  | copyPayload source target => do
    let value ← ofResult ((← getThe Session).store.payload (← findObject source))
    let o ← findObject target
    setStore (← ofResult ((← getThe Session).store.setPayload o value))
    return .ok true
  | payloadsEqual a b => do
    let store := (← getThe Session).store
    let x ← ofResult (store.payload (← findObject a))
    let y ← ofResult (store.payload (← findObject b))
    return .equal (x == y)
  | payload object reader => do
    let o ← findObject object
    return .payload (← ofResult (readPayload (← getThe Session).store o reader))
  | memberKey object name withPrivate => do
    let o ← findObject object
    return .key (some (← ofResult (o.memberKey name withPrivate)))
  | read object name withPrivate handle => do
    let o ← findObject object
    needOpen
    let key ← ofResult (o.memberKey name withPrivate)
    answerContext handle (← ofResult ((← getThe Session).store.readMember o key))
  | write value object name withPrivate => do
    let value ← findContext value
    let o ← findObject object
    needOpen
    let key ← ofResult (o.memberKey name withPrivate)
    setStore (← ofResult ((← getThe Session).store.writeMember o key value)).2
    return .ok true

end ObjectStep

end Steward
