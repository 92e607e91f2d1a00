/-
Primitive actions: what a command can do to the store of its thread without
running another script.

Each takes the context, an object or nothing, and gives the next one, the value it
replaced in a slot, if any, and the store it leaves behind.  A path is followed one
field at a time; private fields are open only to the object the script was called
on.
-/
import Steward.Thread

namespace Steward

/-- What one command hands to the next. -/
abbrev Context := Option ObjectRef

/-- A result with the store left behind, which counts for failures too. -/
abbrev Outcome (α : Type) := Except Error α × Store

namespace Thread

/-- The key a thread sees under a name. -/
def keyOf (t : Thread) (s : Store) (name : String) : Except Error Key := do
  match ← t.view.findKey? s name with
  | some k => return k
  | none => .error (.missingKey name)

/-- Goes from an object through fields; `path` is the whole path, for the error
when there is nothing to go on from. -/
def follow (t : Thread) (s : Store) (path : List String) (current : Context) :
    List String → Except Error Context
  | [] => .ok current
  | field :: fields =>
    match current with
    | none => .error (.missingKey (Dotted.join path))
    | some o =>
      match o.memberKey field (t.isInvoker o) with
      | .error e => .error e
      | .ok key =>
        match s.readMember o key with
        | .error e => .error e
        | .ok next => follow t s path next fields

/-- Where a path leads: from the context if there is one, otherwise from the
variable that its first segment names. -/
def lookup (t : Thread) (s : Store) (path : List String) : Context → Except Error Context
  | some o => t.follow s path (some o) path
  | none =>
    match path with
    | [] => .error (.missingKey "")
    | first :: fields => do
      let key ← t.keyOf s first
      t.follow s path (← t.view.get s key) fields

/-- Puts a value where a path leads: into a variable, or into a field of the
object that all but the last segment lead to.  The value that was there comes with
the store. -/
def assign (t : Thread) (s : Store) (target : List String) (value : Context) :
    Except Error (Context × Store) :=
  match target.getLast? with
  | none => .error (.missingKey "")
  | some field =>
    match target.dropLast with
    | [] => do t.view.set s (← t.keyOf s field) value
    | path => do
      match ← t.lookup s path none with
      | none => .error (.missingKey (Dotted.join target))
      | some owner => s.writeMember owner (← owner.memberKey field (t.isInvoker owner)) value

/-- Performs a primitive action: the next context, and the value replaced in a
slot. -/
def perform (t : Thread) (s : Store) (ctx : Context) : Primitive → Outcome (Context × Context)
  | .declare name type =>
    match t.view.add s ⟨name, type⟩ none with
    | .ok (_, s) => (.ok (ctx, none), s)
    | .error e => (.error e, s)
  | .assign target =>
    match t.assign s target ctx with
    | .ok (replaced, s) => (.ok (ctx, replaced), s)
    | .error e => (.error e, s)
  | .lookup path =>
    match t.lookup s path ctx with
    | .ok next => (.ok (next, none), s)
    | .error e => (.error e, s)
  | .self => (.ok (t.invoker, none), s)
  | .native type value =>
    match s.bind type value with
    | (.ok o, s) => (.ok (some o, none), s)
    | (.error e, s) => (.error e, s)
  | .clear => (.ok (none, none), s)

end Thread

end Steward
