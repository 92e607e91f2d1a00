/-
Scripts: named lists of commands.

A command says what to do (`Action`) and which capabilities that takes.  Each
action takes the context left by the one before, an object or nothing, and leaves
the next.  A script may be called directly, when the command holds the script
itself, or by name, when it is looked up at the time of the call.

As with definitions, two scripts may share a name and the `stamp` tells them
apart.
-/
import Steward.Capability
import Steward.Definition.Registry
import Steward.Memory.Group

namespace Steward

/-- What a command can do on its own, without running another script. -/
inductive Primitive where
  /-- Adds an unset local variable, unless the name is known. -/
  | declare (name : String) (type : Name)
  /-- Puts the context into a variable or a field. -/
  | assign (target : List String)
  /-- Goes to a variable or field, from the context if there is one. -/
  | lookup (path : List String)
  /-- Goes to the object the script was called on. -/
  | self
  /-- Makes an object that carries a payload. -/
  | native (type : ObjectType) (value : Payload)
  /-- Forgets the context. -/
  | clear

mutual

/-- What a command does. -/
inductive Action where
  | primitive (primitive : Primitive)
  /-- Makes an object and runs its constructor. -/
  | create (type : ObjectType)
  /-- Calls a script with the results of command lists as arguments. -/
  | invoke (inputs : List (List Command)) (callee : Callee)

/-- A step of a script. -/
inductive Command where
  | mk (action : Action) (requires : CapabilitySet)

/-- Whom a call is for. -/
inductive Callee where
  | direct (script : Script)
  | named (name : Name)

/-- A named list of commands. -/
inductive Script where
  | mk (stamp : Nat) (name : Name) (params : List Key) (returns : Option Name)
      (commands : List Command) (statics : Option GroupId)

end

/-- The name of an action. -/
def Action.label : Action → String
  | primitive (.declare ..) => "Declare"
  | primitive (.assign _) => "Assign"
  | primitive (.lookup _) => "PathLookup"
  | primitive .self => "SelfReference"
  | primitive (.native ..) => "Native"
  | primitive .clear => "Clear"
  | create _ => "Instantiate"
  | invoke .. => "Invoke"

namespace Command

def action : Command → Action
  | mk action _ => action

/-- The capabilities it takes. -/
def requires : Command → CapabilitySet
  | mk _ requires => requires

end Command

namespace Script

/-- The number under which it was made. -/
def stamp : Script → Nat
  | mk stamp _ _ _ _ _ => stamp

def name : Script → Name
  | mk _ name _ _ _ _ => name

def params : Script → List Key
  | mk _ _ params _ _ _ => params

/-- The type its result has to satisfy; without one it has no result. -/
def returns : Script → Option Name
  | mk _ _ _ returns _ _ => returns

def commands : Script → List Command
  | mk _ _ _ _ commands _ => commands

/-- The group of static slots its threads look into first. -/
def statics : Script → Option GroupId
  | mk _ _ _ _ _ statics => statics

/-- A copy with other statics, which is another script. -/
def withStatics (s : Script) (stamp : Nat) (statics : GroupId) : Script :=
  mk stamp s.name s.params s.returns s.commands (some statics)

/-- Whether both are one script, and not only of one name. -/
def same (a b : Script) : Bool :=
  a.stamp == b.stamp

end Script

/-- The name by which a call knows its script. -/
def Callee.name : Callee → Name
  | direct s => s.name
  | named n => n

def Callee.isDirect : Callee → Bool
  | direct _ => true
  | named _ => false

end Steward
