/-
The store: every live group and every live object.

Groups are numbered 1, 2, 3, … as they are allocated and a number is never used
again, so a number that outlives its group leads to an error and never to
another group.  Objects are kept with their payloads under the number of their own
group, whose slots are their fields.

With an object stand its users, the groups that have a slot that refers to it, so
that one can tell at once whether a slot does (`Object.isUsed`).  Groups come and go
through `Store.write` and `Store.release` alone, which keep the users up to date.

Operations that can fail leave the store out of their result when they do, so
nothing changes then.
-/
import Std.Data.TreeMap
import Std.Data.TreeSet
import Steward.Memory.Group

namespace Steward

open Std (TreeMap TreeSet)

/-- An object of the store. -/
structure Object where
  ref : ObjectRef
  payload : Option Payload := none
  /-- The groups with a slot that refers to it. -/
  users : TreeSet GroupId := ∅

namespace Object

/-- Whether a slot refers to the object. -/
def isUsed (x : Object) : Bool :=
  !x.users.isEmpty

def addUser (user : GroupId) (x : Object) : Object :=
  { x with users := x.users.insert user }

def removeUser (user : GroupId) (x : Object) : Object :=
  { x with users := x.users.erase user }

end Object

/-- Everything that is live. -/
structure Store where
  /-- The number of the next group. -/
  next : GroupId := 1
  /-- The groups by their numbers. -/
  groups : TreeMap GroupId Group := ∅
  /-- The objects by the numbers of their groups. -/
  objects : TreeMap GroupId Object := ∅

namespace Store

/-! ### Groups -/

def group? (s : Store) (id : GroupId) : Option Group :=
  s.groups[id]?

def isLive (s : Store) (id : GroupId) : Bool :=
  s.groups.contains id

def size (s : Store) : Nat :=
  s.groups.size

/-- The objects that the slots of a group refer to. -/
def valuesIn (s : Store) (id : GroupId) : List GroupId :=
  ((s.group? id).map Group.refs).getD []

/-- Makes a group a user of some objects. -/
def addUser (user : GroupId) (objects : TreeMap GroupId Object) (ids : List GroupId) :
    TreeMap GroupId Object :=
  ids.foldl (fun objects id => objects.modify id (Object.addUser user)) objects

/-- Makes a group no longer a user of some objects. -/
def removeUser (user : GroupId) (objects : TreeMap GroupId Object) (ids : List GroupId) :
    TreeMap GroupId Object :=
  ids.foldl (fun objects id => objects.modify id (Object.removeUser user)) objects

/-- Objects keep their places when a group is no longer their user. -/
theorem size_removeUser (user : GroupId) (objects : TreeMap GroupId Object)
    (ids : List GroupId) : (removeUser user objects ids).size = objects.size := by
  induction ids generalizing objects with
  | nil => rfl
  | cons id ids ih =>
    rw [removeUser, List.foldl_cons]
    exact (ih _).trans TreeMap.size_modify

/-- Other objects keep all their users. -/
theorem getElem?_removeUser {user : GroupId} {objects : TreeMap GroupId Object}
    {ids : List GroupId} {other : GroupId} (h : other ∉ ids) :
    (removeUser user objects ids)[other]? = objects[other]? := by
  induction ids generalizing objects with
  | nil => rfl
  | cons id ids ih =>
    have hne : id ≠ other := fun he => h (he ▸ List.mem_cons_self)
    rw [removeUser, List.foldl_cons]
    refine (ih fun hm => h (List.mem_cons_of_mem _ hm)).trans ?_
    simp [TreeMap.getElem?_modify, hne]

theorem mem_removeUser {user : GroupId} {objects : TreeMap GroupId Object} {ids : List GroupId}
    {id : GroupId} : id ∈ removeUser user objects ids ↔ id ∈ objects := by
  induction ids generalizing objects with
  | nil => rfl
  | cons other ids ih =>
    rw [removeUser, List.foldl_cons]
    exact ih.trans TreeMap.mem_modify

theorem mem_addUser {user : GroupId} {objects : TreeMap GroupId Object} {ids : List GroupId}
    {id : GroupId} : id ∈ addUser user objects ids ↔ id ∈ objects := by
  induction ids generalizing objects with
  | nil => rfl
  | cons other ids ih =>
    rw [addUser, List.foldl_cons]
    exact ih.trans TreeMap.mem_modify

/-- The group of a number, unless it was released. -/
def read (s : Store) (id : GroupId) : Except Error Group :=
  match s.group? id with
  | some g => .ok g
  | none => .error (.releasedGroup id)

/-- Puts a group under a number, in the place of what was there. -/
def write (s : Store) (id : GroupId) (g : Group) : Store :=
  { s with
    groups := s.groups.insert id g
    objects := addUser id (removeUser id s.objects (s.valuesIn id)) g.refs }

/-- Removes a group. -/
def release (s : Store) (id : GroupId) : Store :=
  { s with
    groups := s.groups.erase id
    objects := removeUser id s.objects (s.valuesIn id) }

/-- Uses up a number. -/
def skip (s : Store) : Store :=
  { s with next := s.next + 1 }

/-- Takes a group in under the next number. -/
def allocate (s : Store) (g : Group) : GroupId × Store :=
  (s.next, s.skip.write s.next g)

def get (s : Store) (id : GroupId) (key : Key) : Except Error (Option ObjectRef) := do
  (← s.read id).get key

/-- Sets a slot of a group; the value that was there comes with the store. -/
def set (s : Store) (id : GroupId) (key : Key) (value : Option ObjectRef) :
    Except Error (Option ObjectRef × Store) := do
  let (old, g) ← (← s.read id).set key value
  return (old, s.write id g)

/-- Adds a slot to a group. -/
def add (s : Store) (id : GroupId) (key : Key) (value : Option ObjectRef) :
    Except Error (Bool × Store) := do
  let (added, g) ← (← s.read id).add key value
  return (added, s.write id g)

/-! ### Objects -/

/-- Makes an object: its group has an unset slot for every property of its type. -/
def instantiate (s : Store) (type : ObjectType) : ObjectRef × Store :=
  let (id, s) := s.allocate (.ofKeys .fields type.keys)
  (⟨type, id⟩, { s with objects := s.objects.insert id { ref := ⟨type, id⟩ } })

def object? (s : Store) (o : ObjectRef) : Option Object :=
  s.objects[o.group]?

def payload? (s : Store) (o : ObjectRef) : Option Payload :=
  (s.object? o).bind Object.payload

/-- Gives an object a payload, of a kind that its type accepts. -/
def setPayload (s : Store) (o : ObjectRef) (value : Payload) : Except Error Store :=
  if o.type.accepts value.kind then
    .ok { s with objects := s.objects.modify o.group fun x => { x with payload := some value } }
  else
    let expected := match o.type.binding with
      | some kind => kind.display
      | none => "no native binding"
    .error (.binding o.type.name.text expected value.kind.display)

/-- Makes an object with a payload.  A payload that does not fit uses up the
number of the object it was meant for. -/
def bind (s : Store) (type : ObjectType) (value : Payload) : Except Error ObjectRef × Store :=
  let (o, made) := s.instantiate type
  match made.setPayload o value with
  | .ok made => (.ok o, made)
  | .error e => (.error e, s.skip)

/-- The payload of an object, of whatever kind. -/
def payload (s : Store) (o : ObjectRef) : Except Error Payload :=
  match s.payload? o with
  | some v => .ok v
  | none => .error (.binding o.type.name.text "payload" "no payload")

/-- The payload of an object as `view` sees it; `expected` says what was asked
for. -/
def payloadAs (s : Store) (o : ObjectRef) (expected : String) (view : Payload → Option α) :
    Except Error α :=
  match s.payload? o with
  | none => .error (.binding o.type.name.text expected "no payload")
  | some v =>
    match view v with
    | some a => .ok a
    | none => .error (.binding o.type.name.text expected v.kind.display)

/-! ### Members -/

/-- Reads a field of an object. -/
def readMember (s : Store) (o : ObjectRef) (key : Key) : Except Error (Option ObjectRef) :=
  s.get o.group key

/-- Writes a field of an object; the value that was there comes with the store. -/
def writeMember (s : Store) (o : ObjectRef) (key : Key) (value : Option ObjectRef) :
    Except Error (Option ObjectRef × Store) :=
  s.set o.group key value

end Store

/-- The key of a member of an object, a private one only if asked for. -/
def ObjectRef.memberKey (o : ObjectRef) (name : String) (withPrivate : Bool) : Except Error Key :=
  match o.type.property? name withPrivate with
  | some k => .ok k
  | none => .error (.missingKey (o.type.name.text ++ "." ++ name))

end Steward
