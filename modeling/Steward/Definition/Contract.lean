/-
Contracts: named lists of public properties that a type promises to have, with
parent contracts whose lists it promises too.

A contract is defined once and never changes, so it simply holds its parents.
Two contracts may share a name; each carries the `stamp` under which it was
defined, which tells them apart.  Every traversal keeps the names it has seen,
so that a parent met twice counts once.
-/
import Steward.Distinct
import Steward.Error
import Steward.Key

namespace Steward

/-- A contract. -/
structure Contract where
  /-- The number under which it was defined. -/
  stamp : Nat
  name : Name
  /-- The properties it declares itself. -/
  properties : List Key
  parents : List Contract

/-- The names that occur more than once, in the order in which each is first
repeated. -/
def repeatedFrom (seen repeated : List String) : List String → List String
  | [] => repeated
  | n :: ns =>
    if n ∈ seen then
      if n ∈ repeated then repeatedFrom seen repeated ns
      else repeatedFrom seen (repeated ++ [n]) ns
    else repeatedFrom (n :: seen) repeated ns

/-- The property names that keys declare more than once. -/
def duplicateNames (keys : List Key) : List String :=
  repeatedFrom [] [] (keys.map Key.name)

namespace Contract

mutual

/-- Whether the contract or one it descends from is called `target`; `visited`
are the names already left behind, and the names left behind afterwards come
with the answer. -/
def reaches (target : Name) (visited : List Name) : Contract → Bool × List Name
  | ⟨_, name, _, parents⟩ =>
    if name = target then (true, visited)
    else if name ∈ visited then (false, visited)
    else anyReaches target (name :: visited) parents

/-- Whether one of the contracts reaches `target`, tried one after the other. -/
def anyReaches (target : Name) (visited : List Name) : List Contract → Bool × List Name
  | [] => (false, visited)
  | c :: cs =>
    match c.reaches target visited with
    | (true, visited) => (true, visited)
    | (false, visited) => anyReaches target visited cs

end

/-- Whether the contract is, or descends from, the one called `target`. -/
def isNamed (c : Contract) (target : Name) : Bool :=
  (c.reaches target []).1

/-- What a traversal that gathers keys has found. -/
structure Gathered where
  keys : List Key := []
  visited : List Name := []

mutual

/-- Gathers the keys of a contract, then those of its parents. -/
def gather (found : Gathered) : Contract → Gathered
  | ⟨_, name, properties, parents⟩ =>
    if name ∈ found.visited then found
    else gatherAll ⟨addNew found.keys properties, name :: found.visited⟩ parents

def gatherAll (found : Gathered) : List Contract → Gathered
  | [] => found
  | c :: cs => gatherAll (c.gather found) cs

end

/-- Every key the contract asks for: its own, then those of its parents, each
once. -/
def required (c : Contract) : List Key :=
  (c.gather {}).keys

/-- Defines a contract, unless it declares a property twice or would descend
from itself. -/
def define (stamp : Nat) (name : Name) (properties : List Key) (parents : List Contract) :
    Except Error Contract :=
  let cyclic := (anyReaches name [] parents).1
  let violations := (duplicateNames properties).map Violation.duplicateKey
    ++ if cyclic then [.cycle name.text] else []
  if violations.isEmpty then .ok ⟨stamp, name, properties, parents⟩
  else .error (.definition name.text violations)

end Contract

end Steward
