/-
Indexed groups: memory groups that know where each name stands.

A group looks for a name among its slots.  An indexed group has the places of all names at hand
instead, beside its slots, and takes a slot from its place without asking whether there is one.
Nothing but its own operations keeps slots and places in step; a place that is not there ends
everything (`Beyond`).

Operations that put a value in take it from their caller, and leave the caller with something in
its stead (`Swap`): the value that was there before, nothing, or the very value when they failed.
-/
import Std.Data.TreeMap
import Steward.Memory.Group

namespace Steward

open Std (TreeMap)

/-- A slot was taken from a place where there is none. -/
structure Beyond where
  place : Nat
  size : Nat
  deriving DecidableEq, Repr

/-- Slots with the places of their names. -/
structure IndexedGroup where
  role : Role
  slots : Array Slot := #[]
  /-- Where the slot of each name stands. -/
  index : TreeMap String Nat := ∅

namespace IndexedGroup

/-- The group without its index. -/
def toGroup (g : IndexedGroup) : Group :=
  ⟨g.role, g.slots.toList⟩

def keys (g : IndexedGroup) : List Key :=
  g.toGroup.keys

/-- The slot at a place. -/
def slotAt (g : IndexedGroup) (i : Nat) : Except Beyond Slot :=
  match g.slots[i]? with
  | some x => .ok x
  | none => .error ⟨i, g.slots.size⟩

/-- Where the slot with this key stands. -/
def position? (g : IndexedGroup) (key : Key) : Except Beyond (Option Nat) :=
  match g.index[key.name]? with
  | none => .ok none
  | some i => do return if (← g.slotAt i).key == key then some i else none

def hasName (g : IndexedGroup) (name : String) : Bool :=
  g.index.contains name

def hasKey (g : IndexedGroup) (key : Key) : Except Beyond Bool := do
  return (← g.position? key).isSome

/-- The key of the slot with this name. -/
def findKey? (g : IndexedGroup) (name : String) : Except Beyond (Option Key) :=
  match g.index[name]? with
  | none => .ok none
  | some i => do return some (← g.slotAt i).key

/-- The slot with this key. -/
def slot? (g : IndexedGroup) (key : Key) : Except Beyond (Option Slot) := do
  match ← g.position? key with
  | none => return none
  | some i => return some (← g.slotAt i)

def get (g : IndexedGroup) (key : Key) : Except Beyond (Except Error (Option ObjectRef)) := do
  match ← g.slot? key with
  | some x => return .ok x.value
  | none => return .error (.missingKey key.display)

/-- What comes of an operation that takes a value from its caller. -/
structure Swap (α : Type) where
  result : Except Error α
  group : IndexedGroup
  /-- What the caller has afterwards. -/
  left : Option ObjectRef

/-- Puts a value into a slot and leaves the caller with the one that was there. -/
def replace (g : IndexedGroup) (key : Key) (value : Option ObjectRef) :
    Except Beyond (Swap Unit) := do
  match ← g.position? key with
  | none => return ⟨.error (.missingKey key.display), g, value⟩
  | some i =>
    match key.check value with
    | .error e => return ⟨.error e, g, value⟩
    | .ok () =>
      let x ← g.slotAt i
      return ⟨.ok (), { g with slots := g.slots.setIfInBounds i { x with value } }, x.value⟩

/-- Puts a value of its own into a slot. -/
def set (g : IndexedGroup) (key : Key) (value : Option ObjectRef) :
    Except Beyond (Except Error (Option ObjectRef) × IndexedGroup) := do
  let swap ← g.replace key value
  return (swap.result.map fun _ => swap.left, swap.group)

/-- Adds a slot at the end, with the value of the caller; if the name is taken nothing changes,
whatever the value. -/
def tryAdd (g : IndexedGroup) (key : Key) (value : Option ObjectRef) : Swap Bool :=
  if g.hasName key.name then ⟨.ok false, g, value⟩
  else
    match key.check value with
    | .error e => ⟨.error e, g, value⟩
    | .ok () =>
      ⟨.ok true, { g with
        index := g.index.insert key.name g.slots.size
        slots := g.slots.push ⟨key, value⟩ }, none⟩

/-- Adds a slot at the end, with a value of its own. -/
def add (g : IndexedGroup) (key : Key) (value : Option ObjectRef) :
    Except Error Bool × IndexedGroup :=
  let swap := g.tryAdd key value
  (swap.result, swap.group)

/-- The group with an unset slot for each key, the first of a name counting. -/
def ofKeys (role : Role) (keys : List Key) : IndexedGroup :=
  keys.foldl (fun g k => (g.add k none).2) { role }

end IndexedGroup

/-! ### Requests -/

/-- Something a group can be asked to put in. -/
inductive Group.Request where
  | add (key : Key) (value : Option ObjectRef)
  | tryAdd (key : Key) (value : Option ObjectRef)
  | set (key : Key) (value : Option ObjectRef)
  | replace (key : Key) (value : Option ObjectRef)

namespace Group

/-- The group that comes with a result; what fails leaves the group as it is. -/
def taking (g : Group) : Except Error (α × Group) → Group
  | .ok (_, g') => g'
  | .error _ => g

/-- The group after a request. -/
def after (g : Group) : Request → Group
  | .add key value | .tryAdd key value => g.taking (g.add key value)
  | .set key value | .replace key value => g.taking (g.set key value)

end Group

namespace IndexedGroup

/-- The group after a request. -/
def after (g : IndexedGroup) : Group.Request → Except Beyond IndexedGroup
  | .add key value => .ok (g.add key value).2
  | .tryAdd key value => .ok (g.tryAdd key value).group
  | .set key value => do return (← g.set key value).2
  | .replace key value => do return (← g.replace key value).group

/-- The group after requests, one after the other. -/
def afterAll (g : IndexedGroup) (requests : List Group.Request) : Except Beyond IndexedGroup :=
  requests.foldlM after g

end IndexedGroup

end Steward
