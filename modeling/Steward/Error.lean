/-
Errors: everything the library can refuse to do, with the wording of each.

`Error` names the causes and `Error.message` words them.  Two classes matter to
hosts: `Error.stopsLoading` for what keeps a library from being loaded, and
`Error.isContained` for what concerns one call and leaves the others alone.
-/
import Steward.Name

namespace Steward

/-- What is wrong with a definition. -/
inductive Violation where
  /-- A property name declared twice. -/
  | duplicateKey (name : String)
  /-- Keys that a contract requires and the public properties lack. -/
  | unmetContract (contract : String) (missing : List String)
  /-- A definition that would inherit from itself. -/
  | cycle (name : String)
  | alreadyDefined (name : String)
  deriving DecidableEq, Repr

/-- The wording of a violation. -/
def Violation.message : Violation → String
  | .duplicateKey name => s!"duplicate property '{name}'"
  | .unmetContract contract missing =>
    "contract " ++ contract ++ " is missing public properties [" ++ ", ".intercalate missing ++ "]"
  | .cycle name => s!"cyclic inheritance through {name}"
  | .alreadyDefined name => s!"{name} is already defined"

/-- The causes of failure. -/
inductive Error where
  | definition (name : String) (violations : List Violation)
  /-- A payload that does not fit the type of its object, or its reader. -/
  | binding (type expected actual : String)
  | missingKey (key : String)
  | typeMismatch (key expected actual : String)
  | releasedGroup (group : Nat)
  | notWritable
  | capabilityDenied (command : String) (missing : List String)
  | invokeDepthExceeded (depth limit : Nat)
  | argumentCount (script : String) (expected actual : Nat)
  | cancelled (script : String) (completed : Nat)
  | unknownType (name : String)
  | unknownScript (name : String)
  | invalidName (name reason : String)
  | config (reason : String)
  deriving DecidableEq, Repr

namespace Error

/-- The wording of an error. -/
def message : Error → String
  | definition name violations =>
    "definition of " ++ name ++ " failed: " ++ "; ".intercalate (violations.map Violation.message)
  | binding type expected actual => s!"binding failed on {type}: expected {expected}, got {actual}"
  | missingKey key => s!"key not found: {key}"
  | typeMismatch key expected actual =>
    s!"type mismatch on {key}: expected {expected}, got {actual}"
  | releasedGroup group => s!"memory group {group} was released by its owner"
  | notWritable => "memory view has no writable group"
  | capabilityDenied command missing =>
    "capability denied for " ++ command ++ ": missing [" ++ ", ".intercalate missing ++ "]"
  | invokeDepthExceeded depth limit => s!"invoke depth {depth} exceeds limit {limit}"
  | argumentCount script expected actual =>
    s!"script {script} takes {expected} arguments, got {actual}"
  | cancelled script completed => s!"script {script} cancelled after {completed} commands"
  | unknownType name => s!"unknown type: {name}"
  | unknownScript name => s!"unknown script: {name}"
  | invalidName name reason => s!"invalid name '{name}': {reason}"
  | config reason => s!"configuration error: {reason}"

/-- Whether the error keeps a library from being loaded. -/
def stopsLoading : Error → Bool
  | definition .. | unknownType _ | invalidName .. => true
  | _ => false

/-- Whether a host can go on with other calls after the error. -/
def isContained : Error → Bool
  | capabilityDenied .. => true
  | _ => false

/-- The violations behind a definition error. -/
def violations : Error → List Violation
  | definition _ vs => vs
  | _ => []

end Error

/-- Reads a name, the fault of a bad one being worded in the error. -/
def Name.read (text : String) : Except Error Name :=
  match Name.parse text with
  | .ok n => .ok n
  | .error fault => .error (.invalidName text fault.message)

/-- The name one segment below, read as a whole. -/
def Name.child (n : Name) (segment : String) : Except Error Name :=
  Name.read (n.childText segment)

end Steward
