/-
Memory groups: ordered lists of typed slots.

A slot is unset or holds a reference to an object.  A reference names the object
by the number of the object's own group, which no other object ever gets, and
carries the object's type, which never changes; so a group can check by itself
that what is put into a slot fits the type declared for it.

Within a group a name stands for one slot: `Group.add` refuses a second one, and
looking up a key finds its slot only if the declared type is the same as well.
-/
import Steward.Definition.Registry

namespace Steward

/-- The number of a memory group. -/
abbrev GroupId := Nat

/-- A reference to an object. -/
structure ObjectRef where
  type : ObjectType
  /-- The group that holds the object's fields; it identifies the object. -/
  group : GroupId

namespace ObjectRef

/-- Whether both refer to one object. -/
def same (a b : ObjectRef) : Bool :=
  a.group == b.group

/-- Whether the object can stand where `declared` is asked for. -/
def satisfies (o : ObjectRef) (declared : Name) : Bool :=
  o.type.isNamed declared

end ObjectRef

/-- What a group is for. -/
inductive Role where
  /-- The static slots of a library. -/
  | statics
  /-- The fields of an object. -/
  | fields
  /-- The arguments of a call. -/
  | inputs
  /-- The variables of a call. -/
  | locals
  deriving DecidableEq, Repr

/-- How a role is written. -/
def Role.display : Role → String
  | statics => "static"
  | fields => "instance"
  | inputs => "input"
  | locals => "local"

/-- A typed place for a reference. -/
structure Slot where
  key : Key
  value : Option ObjectRef := none

/-- A list of slots. -/
structure Group where
  role : Role
  slots : List Slot := []

/-- Refuses a value whose type does not fit the key; an unset value always fits. -/
def Key.check (key : Key) : Option ObjectRef → Except Error Unit
  | none => .ok ()
  | some v =>
    if v.satisfies key.type then .ok ()
    else .error (.typeMismatch key.name key.type.text v.type.name.text)

namespace Group

def keys (g : Group) : List Key :=
  g.slots.map Slot.key

def size (g : Group) : Nat :=
  g.slots.length

/-- Where the slot with this name stands. -/
def index? (g : Group) (name : String) : Option Nat :=
  g.slots.findIdx? (·.key.name == name)

/-- Where the slot with this key stands: the slot with its name, if the declared
type is the same as well. -/
def position? (g : Group) (key : Key) : Option Nat :=
  (g.index? key.name).filter fun i => g.slots[i]?.any (·.key == key)

def hasName (g : Group) (name : String) : Bool :=
  (g.index? name).isSome

def hasKey (g : Group) (key : Key) : Bool :=
  (g.position? key).isSome

/-- The slot with this key. -/
def slot? (g : Group) (key : Key) : Option Slot :=
  (g.position? key).bind fun i => g.slots[i]?

/-- The key of the slot with this name. -/
def findKey? (g : Group) (name : String) : Option Key :=
  (g.index? name).bind fun i => g.slots[i]?.map Slot.key

/-- The references the slots hold. -/
def values (g : Group) : List ObjectRef :=
  g.slots.filterMap Slot.value

/-- The objects the slots refer to. -/
def refs (g : Group) : List GroupId :=
  g.values.map ObjectRef.group

def get (g : Group) (key : Key) : Except Error (Option ObjectRef) :=
  match g.slot? key with
  | some s => .ok s.value
  | none => .error (.missingKey key.display)

/-- Puts a value into a slot; the value that was there comes with the group. -/
def set (g : Group) (key : Key) (value : Option ObjectRef) :
    Except Error (Option ObjectRef × Group) :=
  match g.position? key with
  | none => .error (.missingKey key.display)
  | some i =>
    match key.check value with
    | .error e => .error e
    | .ok () =>
      .ok (g.slots[i]?.bind Slot.value, { g with slots := g.slots.set i ⟨key, value⟩ })

/-- Adds a slot at the end; if the name is taken nothing changes, whatever the
value. -/
def add (g : Group) (key : Key) (value : Option ObjectRef) : Except Error (Bool × Group) :=
  if g.hasName key.name then .ok (false, g)
  else
    match key.check value with
    | .error e => .error e
    | .ok () => .ok (true, { g with slots := g.slots ++ [⟨key, value⟩] })

/-- Adds an unset slot for each key whose name is not taken. -/
def declareAll (g : Group) : List Key → Group
  | [] => g
  | k :: ks =>
    if g.hasName k.name then g.declareAll ks
    else declareAll { g with slots := g.slots ++ [⟨k, none⟩] } ks

/-- The group with an unset slot for each key, the first of a name counting. -/
def ofKeys (role : Role) (keys : List Key) : Group :=
  declareAll ⟨role, []⟩ keys

/-- New slots refer to nothing. -/
theorem refs_declareAll (g : Group) (keys : List Key) : (g.declareAll keys).refs = g.refs := by
  induction keys generalizing g with
  | nil => rfl
  | cons k ks ih =>
    rw [declareAll]
    split
    · exact ih g
    · rw [ih]
      simp [refs, values]

theorem refs_ofKeys (role : Role) (keys : List Key) : (ofKeys role keys).refs = [] :=
  refs_declareAll _ keys

end Group

end Steward
