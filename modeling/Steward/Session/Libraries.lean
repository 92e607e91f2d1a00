/-
Steps on libraries: putting them together, loading them and looking names up.
-/
import Steward.Session.Answer

namespace Steward

/-- What a name is looked up as. -/
inductive Lookup where
  | any
  | type
  | script

/-- A step on libraries. -/
inductive LibraryStep where
  | start (name handle : String)
  | depend (library builder : String)
  | define (definition : DefinitionRef) (builder : String)
  | addStatic (value : Option String) (key : String × String) (builder : String)
  | addScript (script builder handle : String)
  | build (builder handle : String)
  | describe (library : String)
  | load (library : String)
  | loaded (name : String)
  | resolveIn (name library : String)
  | resolve (name : String) (what : Lookup) (handle : Option String)
  | config

namespace Host

def setDraft (name : String) (d : Draft) : Host Unit :=
  modify fun s => { s with drafts := s.drafts.insert name d }

/-- Adds a copy of a script to a library to be. -/
def addToDraft (script : Script) (builder : String) : Host Script := do
  let d ← findDraft builder
  let (copy, d) ← ofResult (d.addScript script (← fresh))
  setDraft builder d
  return copy

end Host

namespace LibraryStep

open Host

/-- The fault of a library that was not loaded. -/
def loadFault (l : Library) (e : Error) : Fault :=
  let scripts := l.reachableScripts.map (·.name.text)
  let inScripts := e.violations.filter fun
    | .alreadyDefined name => scripts.contains name
    | _ => false
  if 2 ≤ inScripts.length then
    .clashes ((e.violations.map Violation.message).mergeSort fun a b => decide (a ≤ b))
  else .failed e

/-- Takes a step on libraries. -/
def take : LibraryStep → Host Answer
  | start name handle => do
    needOpen
    let (id, store) := (← getThe Session).store.allocate ⟨.statics, []⟩
    setStore store
    setDraft handle { name, statics := id }
    return .group id
  | depend library builder => do
    let l ← findLibrary library
    setDraft builder ((← findDraft builder).depend l)
    return .ok true
  | define definition builder => do
    let x ← findDefinition definition
    setDraft builder (← ofResult ((← findDraft builder).define x))
    return .ok true
  | addStatic value key builder => do
    let value ← findContext value
    let key ← readKey key
    let d ← findDraft builder
    let (added, store) ← ofResult ((← getThe Session).store.add d.statics key value)
    setStore store
    return .added added
  | addScript script builder handle => do
    let script ← findScript script
    let copy ← addToDraft script builder
    modify fun s => { s with scripts := s.scripts.insert handle copy }
    return .statics copy.statics
  | build builder handle => do
    let d ← findDraft builder
    modify fun s => { s with drafts := s.drafts.erase builder }
    let l ← ofResult d.build
    modify fun s => { s with libraries := s.libraries.insert handle l }
    return .library l
  | describe library => do
    return .library (← findLibrary library)
  | load library => do
    let l ← findLibrary library
    needOpen
    match (← getThe Session).catalog.load l with
    | .error e => fail (loadFault l e)
    | .ok catalog =>
      modify fun s => { s with catalog }
      return .ok true
  | loaded name => do
    needOpen
    return .loaded ((← getThe Session).catalog.library? name)
  | resolveIn name library => do
    let n ← readName name
    let l ← findLibrary library
    return .resolved (l.resolve? n) (l.resolveType? n) (l.resolveContract? n) (l.resolveScript? n)
  | resolve name what handle => do
    let n ← readName name
    needOpen
    let catalog := (← getThe Session).catalog
    match what with
    | .any => return .anyResolved (← ofResult (catalog.resolve n))
    | .type => return .typeResolved (← ofResult (catalog.resolveType n))
    | .script =>
      let script ← ofResult (catalog.resolveScript n)
      if let some handle := handle then
        modify fun s => { s with scripts := s.scripts.insert handle script }
      return .scriptResolved script
  | config => do
    needOpen
    return .config (← getThe Session).config

end LibraryStep

end Steward
