/-
Libraries: definitions, scripts and static slots under one name, with the
libraries they depend on.

A name is looked up in the library itself, then in its dependencies, depth
first.  No library name is visited twice in one traversal, so shared dependencies
count once.  `Library.walk` lists the libraries in visiting order and
`Library.search` stops at the first that has an answer.

A library is put together in a `Draft`; it can be built when the constructors of
its own types are all found.
-/
import Steward.Script

namespace Steward

/-- What a host loads. -/
structure Library where
  name : String
  dependencies : List Library
  registry : Registry
  /-- Its scripts, each under a name of its own. -/
  scripts : List Script
  /-- The group of its static slots; it identifies the library. -/
  statics : GroupId

namespace Library

mutual

/-- The libraries met from this one, itself first; `visited` are the names
already met, and the names met afterwards come with the answer. -/
def walk (visited : List String) : Library → List Library × List String
  | ⟨name, dependencies, registry, scripts, statics⟩ =>
    if name ∈ visited then ([], visited)
    else
      let (found, visited) := walkAll (name :: visited) dependencies
      (⟨name, dependencies, registry, scripts, statics⟩ :: found, visited)

def walkAll (visited : List String) : List Library → List Library × List String
  | [] => ([], visited)
  | l :: ls =>
    let (first, visited) := l.walk visited
    let (rest, visited) := walkAll visited ls
    (first ++ rest, visited)

end

mutual

/-- The first answer of a library met from this one. -/
def search (find : Library → Option α) (visited : List String) :
    Library → Option α × List String
  | ⟨name, dependencies, registry, scripts, statics⟩ =>
    if name ∈ visited then (none, visited)
    else
      match find ⟨name, dependencies, registry, scripts, statics⟩ with
      | some a => (some a, name :: visited)
      | none => searchAll find (name :: visited) dependencies

def searchAll (find : Library → Option α) (visited : List String) :
    List Library → Option α × List String
  | [] => (none, visited)
  | l :: ls =>
    match l.search find visited with
    | (some a, visited) => (some a, visited)
    | (none, visited) => searchAll find visited ls

end

mutual

/-- Adds to `owned` the statics of the library and of everything it depends on:
what it keeps live.  A library whose statics are there has been gone through. -/
def own (owned : List GroupId) : Library → List GroupId
  | ⟨_, dependencies, _, _, statics⟩ =>
    if statics ∈ owned then owned else ownAll (statics :: owned) dependencies

def ownAll (owned : List GroupId) : List Library → List GroupId
  | [] => owned
  | l :: ls => ownAll (l.own owned) ls

end

/-- What some libraries keep live. -/
def ownedGroups (libraries : List Library) : List GroupId :=
  ownAll [] libraries

/-- A script of the library itself. -/
def ownScript? (l : Library) (name : Name) : Option Script :=
  l.scripts.find? (·.name == name)

def resolve? (l : Library) (name : Name) : Option Definition :=
  (l.search (·.registry.find? name) []).1

def resolveType? (l : Library) (name : Name) : Option ObjectType :=
  (l.search (·.registry.type? name) []).1

def resolveContract? (l : Library) (name : Name) : Option Contract :=
  (l.search (·.registry.contract? name) []).1

def resolveScript? (l : Library) (name : Name) : Option Script :=
  (l.search (·.ownScript? name) []).1

/-- Every library met from this one, itself first. -/
def closure (l : Library) : List Library :=
  (l.walk []).1

def reachableDefinitions (l : Library) : List Definition :=
  l.closure.flatMap (·.registry.definitions)

def reachableScripts (l : Library) : List Script :=
  l.closure.flatMap (·.scripts)

end Library

/-- A library that is being put together. -/
structure Draft where
  name : String
  dependencies : List Library := []
  registry : Registry := {}
  scripts : List Script := []
  statics : GroupId

namespace Draft

def depend (d : Draft) (l : Library) : Draft :=
  { d with dependencies := d.dependencies ++ [l] }

def define (d : Draft) (definition : Definition) : Except Error Draft := do
  return { d with registry := ← d.registry.register definition }

/-- Takes in a copy of a script that uses the statics of the library; the copy
comes with the draft. -/
def addScript (d : Draft) (script : Script) (stamp : Nat) : Except Error (Script × Draft) :=
  if d.scripts.any (·.name == script.name) then
    .error (.definition script.name.text [.alreadyDefined script.name.text])
  else
    let copy := script.withStatics stamp d.statics
    .ok (copy, { d with scripts := d.scripts ++ [copy] })

/-- The library as it stands. -/
def library (d : Draft) : Library :=
  ⟨d.name, d.dependencies, d.registry, d.scripts, d.statics⟩

/-- The first constructor of a type of the library itself that is not found. -/
def missingConstructor? (d : Draft) : Option Name :=
  -- looked up in the library as it would be, its dependencies included
  (d.registry.definitions.filterMap fun x => x.type?.bind ObjectType.ctor).find?
    fun c => (d.library.resolveScript? c).isNone

/-- Finishes the library. -/
def build (d : Draft) : Except Error Library :=
  match d.missingConstructor? with
  | some c => .error (.unknownScript c.text)
  | none => .ok d.library

end Draft

end Steward
