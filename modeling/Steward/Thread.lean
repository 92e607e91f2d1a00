/-
Threads: scripts in the middle of a call.

A thread owns a group for its arguments and one for its variables, and sees them
after the statics of its script, the fields of its invoker and the group its
caller lends it.  New variables go into its own group only.
-/
import Steward.Memory.View
import Steward.Script

namespace Steward

/-- The number of a cancel token. -/
abbrev TokenId := Nat

/-- What a call may do and where it stands. -/
structure Scope where
  capabilities : CapabilitySet := ∅
  /-- How many calls deep it is; a top-level call is 1 deep. -/
  depth : Nat := 1
  /-- The token that cancels it, if anyone has one. -/
  token : Option TokenId := none
  /-- A group the caller lends it. -/
  context : Option GroupId := none

namespace Scope

/-- The scope of a call made from this one: as capable and as cancelled, one
deeper, and lent nothing. -/
def child (s : Scope) : Scope :=
  { s with depth := s.depth + 1, context := none }

/-- Whether the token is among the cancelled ones. -/
def isCancelled (s : Scope) (cancelled : List TokenId) : Bool :=
  s.token.any cancelled.contains

end Scope

/-- A script in the middle of a call. -/
structure Thread where
  script : Script
  /-- The object it was called on. -/
  invoker : Option ObjectRef
  scope : Scope
  /-- The group of its arguments. -/
  inputs : GroupId
  /-- The group of its variables. -/
  locals : GroupId

namespace Thread

/-- What the thread sees: statics, fields of the invoker, the lent group,
arguments and, last and writable, variables. -/
def view (t : Thread) : View where
  linked := t.script.statics.toList ++ (t.invoker.map ObjectRef.group).toList
    ++ t.scope.context.toList ++ [t.inputs]
  target := some t.locals

/-- Whether the object is the one the script was called on. -/
def isInvoker (t : Thread) (o : ObjectRef) : Bool :=
  t.invoker.any (·.same o)

/-- Sets the slots of a group, one after the other; an absent value is not set. -/
def bindArguments (g : Group) : List (Key × Option ObjectRef) → Except Error Group
  | [] => .ok g
  | (_, none) :: rest => bindArguments g rest
  | (key, some v) :: rest =>
    match g.set key (some v) with
    | .error e => .error e
    | .ok (_, g) => bindArguments g rest

/-- Starts a call.  Arguments that do not fit use up the number of the group they
were meant for. -/
def enter (s : Store) (script : Script) (invoker : Option ObjectRef)
    (args : List (Option ObjectRef)) (scope : Scope) : Except Error Thread × Store :=
  if args.length ≠ script.params.length then
    (.error (.argumentCount script.name.text script.params.length args.length), s)
  else
    match bindArguments (.ofKeys .inputs script.params) (script.params.zip args) with
    | .error e => (.error e, s.skip)
    | .ok g =>
      let (inputs, s) := s.allocate g
      let (locals, s) := s.allocate ⟨.locals, []⟩
      (.ok { script, invoker, scope, inputs, locals }, s)

/-- Ends a call: its two groups go. -/
def leave (t : Thread) (s : Store) : Store :=
  (s.release t.inputs).release t.locals

end Thread

end Steward
