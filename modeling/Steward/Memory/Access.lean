/-
Access: the two ways in which a host gets at slots, straight to a group of its
own or through a view.

Both offer the same operations.  A group by itself answers from its own slots,
without the search a view makes; that it answers as the view of that one group
would is a fact about the two.
-/
import Steward.Memory.View

namespace Steward

/-- What slots are read and written through. -/
inductive Access where
  /-- A group by itself. -/
  | direct (group : GroupId)
  | linked (view : View)

namespace Access

def get (a : Access) (s : Store) (key : Key) : Except Error (Option ObjectRef) :=
  match a with
  | direct id => s.get id key
  | linked v => v.get s key

def set (a : Access) (s : Store) (key : Key) (value : Option ObjectRef) :
    Except Error (Option ObjectRef × Store) :=
  match a with
  | direct id => s.set id key value
  | linked v => v.set s key value

def hasKey (a : Access) (s : Store) (key : Key) : Except Error Bool :=
  match a with
  | direct id => do return (← s.read id).hasKey key
  | linked v => v.hasKey s key

def keys (a : Access) (s : Store) : Except Error (List Key) :=
  match a with
  | direct id => do return (← s.read id).keys
  | linked v => v.keys s

def findKey? (a : Access) (s : Store) (name : String) : Except Error (Option Key) :=
  match a with
  | direct id => do return (← s.read id).findKey? name
  | linked v => v.findKey? s name

def add (a : Access) (s : Store) (key : Key) (value : Option ObjectRef) :
    Except Error (Bool × Store) :=
  match a with
  | direct id => s.add id key value
  | linked v => v.add s key value

end Access

end Steward
