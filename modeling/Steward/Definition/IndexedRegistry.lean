/-
Indexed registries: definitions under their names, with the names in their order beside them.

A registry goes through all its definitions to find one.  An indexed registry finds it at once,
and keeps the order of registration apart, so that definitions can be listed in it.  The two
are brought up to date one after the other; a name in the order under which there is no definition
would be left out of the list without a word.
-/
import Std.Data.TreeMap
import Steward.Definition.Registry

namespace Steward

open Std (TreeMap)

/-- Definitions under their names, and the order of the names. -/
structure IndexedRegistry where
  /-- The definitions by the texts of their names. -/
  definitions : TreeMap String Definition := ∅
  order : List Name := []

namespace IndexedRegistry

def find? (r : IndexedRegistry) (name : Name) : Option Definition :=
  r.definitions[name.text]?

def type? (r : IndexedRegistry) (name : Name) : Option ObjectType :=
  (r.find? name).bind Definition.type?

def contract? (r : IndexedRegistry) (name : Name) : Option Contract :=
  (r.find? name).bind Definition.contract?

def contains (r : IndexedRegistry) (name : Name) : Bool :=
  r.definitions.contains name.text

def size (r : IndexedRegistry) : Nat :=
  r.definitions.size

/-- The definitions in the order of their registration. -/
def list (r : IndexedRegistry) : List Definition :=
  r.order.filterMap r.find?

/-- Registers a definition, unless its name is taken; the registry comes with the answer. -/
def register (r : IndexedRegistry) (d : Definition) : Except Error Unit × IndexedRegistry :=
  if r.contains d.name then
    (.error (.definition d.name.text [.alreadyDefined d.name.text]), r)
  else
    (.ok (), { order := r.order ++ [d.name], definitions := r.definitions.insert d.name.text d })

/-- The registry after definitions were registered, or refused, one after the other. -/
def registerAll (r : IndexedRegistry) (ds : List Definition) : IndexedRegistry :=
  ds.foldl (fun r d => (r.register d).2) r

/-- The registry without its index. -/
def toRegistry (r : IndexedRegistry) : Registry :=
  ⟨r.list⟩

end IndexedRegistry

/-- The registry after definitions were registered, or refused, one after the other. -/
def Registry.registerAll (r : Registry) (ds : List Definition) : Registry :=
  ds.foldl (fun r d => (r.register d).toOption.getD r) r

end Steward
