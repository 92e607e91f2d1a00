/-
Views: several groups seen as one.

A view lists groups and looks into them in that order; the first that has a key
answers for it.  At most one of them, the last, takes new slots.  A view owns
nothing: it holds numbers, and as soon as it meets the number of a released group
it says so.
-/
import Steward.Memory.Store

namespace Steward

/-- Groups seen as one. -/
structure View where
  /-- The groups that only answer. -/
  linked : List GroupId
  /-- The group that also takes new slots. -/
  target : Option GroupId := none

namespace View

/-- All groups, in the order in which they are looked into. -/
def links (v : View) : List GroupId :=
  v.linked ++ v.target.toList

/-- The view that also looks into one more group, before the writable one. -/
def withLink (v : View) (id : GroupId) : View :=
  { v with linked := v.linked ++ [id] }

/-- The first of the groups that has something, or the error of a released one
met before. -/
def firstWith (s : Store) (has : Group → Bool) : List GroupId → Except Error (Option GroupId)
  | [] => .ok none
  | id :: ids =>
    match s.read id with
    | .error e => .error e
    | .ok g => if has g then .ok (some id) else firstWith s has ids

/-- The group that answers for a key. -/
def owner? (v : View) (s : Store) (key : Key) : Except Error (Option GroupId) :=
  firstWith s (·.hasKey key) v.links

def hasKey (v : View) (s : Store) (key : Key) : Except Error Bool := do
  return (← v.owner? s key).isSome

def get (v : View) (s : Store) (key : Key) : Except Error (Option ObjectRef) := do
  match ← v.owner? s key with
  | some id => s.get id key
  | none => .error (.missingKey key.display)

/-- Sets the slot that answers for a key; the value that was there comes with the
store. -/
def set (v : View) (s : Store) (key : Key) (value : Option ObjectRef) :
    Except Error (Option ObjectRef × Store) := do
  match ← v.owner? s key with
  | some id => s.set id key value
  | none => .error (.missingKey key.display)

/-- The keys of groups, each once, after those found before. -/
def keysFrom (s : Store) (found : List Key) : List GroupId → Except Error (List Key)
  | [] => .ok found
  | id :: ids =>
    match s.read id with
    | .error e => .error e
    | .ok g => keysFrom s (addNew found g.keys) ids

/-- Every key of the view, once, in the order in which they are met. -/
def keys (v : View) (s : Store) : Except Error (List Key) :=
  keysFrom s [] v.links

/-- The key under which a name is first met. -/
def findKey? (v : View) (s : Store) (name : String) : Except Error (Option Key) := do
  match ← firstWith s (·.hasName name) v.links with
  | some id => return (← s.read id).findKey? name
  | none => return none

/-- Adds a slot to the writable group; if the name is met anywhere nothing
changes. -/
def add (v : View) (s : Store) (key : Key) (value : Option ObjectRef) :
    Except Error (Bool × Store) :=
  match v.target with
  | none => .error .notWritable
  | some target => do
    match ← firstWith s (·.hasName key.name) v.links with
    | some _ => return (false, s)
    | none => s.add target key value

end View

end Steward
