/-
Answers: what the steps of a session show to the host.
-/
import Steward.Session.Basic

namespace Steward

/-- What a host sees of an object. -/
structure ObjectView where
  type : Name
  group : GroupId
  payload : Option Payload

/-- What a step shows. -/
inductive Answer where
  /-- Whether it worked, or is so. -/
  | ok (value : Bool)
  | required (keys : List Key)
  | visible (publicKeys privateKeys : List Key)
  | definition (definition : Definition)
  /-- How two definitions stand to each other: `a` is a `b`, `b` is an `a`, of one
  name, one definition. -/
  | relation (is back eq same : Bool) (a b : Definition)
  | isNamed (value : Bool)
  | key (key : Option Key)
  | registered (size : Nat)
  | registry (registry : Registry) (query : Option Name)
  | allocated (group : GroupId)
  | group (group : GroupId)
  | live (count : Nat)
  | isLive (value : Bool)
  | dump (role : Role) (slots : List (Key × Option ObjectView))
  | context (object : Option ObjectView)
  | added (value : Bool)
  | slot (has hasName : Bool) (key : Option Key) (value : Option ObjectView)
  | view (view : View)
  | has (value : Bool)
  | keys (keys : List Key)
  | dropped (existed : Bool)
  | debug (text : String)
  | object (object : ObjectView)
  | same (value : Bool)
  | satisfies (value : Bool)
  | equal (value : Bool)
  | payload (value : Payload)
  | library (library : Library)
  | loaded (library : Option Library)
  | statics (group : Option GroupId)
  /-- What a library has under a name. -/
  | resolved (any : Option Definition) (type : Option ObjectType) (contract : Option Contract)
      (script : Option Script)
  | anyResolved (definition : Definition)
  | typeResolved (type : ObjectType)
  | scriptResolved (script : Script)
  | config (config : Config)
  | script (script : Script)
  | command (command : Command)
  /-- The call waits for a lock. -/
  | waiting
  | locked (value : Bool)
  | cancelled (before after : Bool)
  | thread (thread : Thread) (invoker : Option ObjectView) (cancelled : Bool)
      (isInvoker : Option Bool)

namespace Host

/-- What the host sees of an object now. -/
def inspect (o : ObjectRef) : Host ObjectView := do
  return ⟨o.type.name, o.group, (← get).store.payload? o⟩

def inspectContext : Context → Host (Option ObjectView)
  | none => return none
  | some o => some <$> inspect o

/-- Shows a context; under a name the object is kept, and nothing takes the name
away. -/
def answerContext (name : Option String) (ctx : Context) : Host Answer := do
  let view ← inspectContext ctx
  if let some name := name then
    modify fun s => { s with objects :=
      match ctx with
      | some o => s.objects.insert name o
      | none => s.objects.erase name }
  return .context view

/-- Shows an object and keeps it under a name. -/
def answerObject (name : String) (o : ObjectRef) : Host Answer := do
  modify fun s => { s with objects := s.objects.insert name o }
  return .object (← inspect o)

end Host

end Steward
