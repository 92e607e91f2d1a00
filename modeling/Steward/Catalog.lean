/-
The catalog: the libraries a session has loaded, in the order of loading.

Within a catalog a name stands for one definition and one script.  `Catalog.load`
sees to it: it refuses a library when anything reachable from it differs from
what is already known under its name, and then changes nothing.
-/
import Steward.Library

namespace Steward

/-- The loaded libraries. -/
structure Catalog where
  libraries : List Library := []

namespace Catalog

def library? (c : Catalog) (name : String) : Option Library :=
  c.libraries.find? (·.name == name)

def resolve? (c : Catalog) (name : Name) : Option Definition :=
  c.libraries.findSome? (·.resolve? name)

def resolveType? (c : Catalog) (name : Name) : Option ObjectType :=
  c.libraries.findSome? (·.resolveType? name)

def resolveScript? (c : Catalog) (name : Name) : Option Script :=
  c.libraries.findSome? (·.resolveScript? name)

def resolve (c : Catalog) (name : Name) : Except Error Definition :=
  match c.resolve? name with
  | some d => .ok d
  | none => .error (.unknownType name.text)

def resolveType (c : Catalog) (name : Name) : Except Error ObjectType :=
  match c.resolveType? name with
  | some t => .ok t
  | none => .error (.unknownType name.text)

def resolveScript (c : Catalog) (name : Name) : Except Error Script :=
  match c.resolveScript? name with
  | some s => .ok s
  | none => .error (.unknownScript name.text)

/-- Whether a definition met from a library differs from what the catalog, or the
library itself, has under its name. -/
def definitionClashes (c : Catalog) (l : Library) (d : Definition) : Bool :=
  (c.resolve? d.name).any (!·.same d) || (l.resolve? d.name).any (!·.same d)

/-- Whether a script met from a library differs from what the catalog, or the
library itself, has under its name. -/
def scriptClashes (c : Catalog) (l : Library) (s : Script) : Bool :=
  (c.resolveScript? s.name).any (!·.same s) || (l.resolveScript? s.name).any (!·.same s)

/-- The names that clash, those of definitions first, each once. -/
def clashes (c : Catalog) (l : Library) : List String :=
  let definitions := (l.reachableDefinitions.filter (c.definitionClashes l)).map (·.name.text)
  let scripts := (l.reachableScripts.filter (c.scriptClashes l)).map (·.name.text)
  addNew [] (definitions ++ scripts)

/-- Loads a library. -/
def load (c : Catalog) (l : Library) : Except Error Catalog :=
  if c.libraries.any (·.name == l.name) then
    .error (.definition l.name [.alreadyDefined l.name])
  else
    match c.clashes l with
    | [] => .ok ⟨c.libraries ++ [l]⟩
    | names => .error (.definition l.name (names.map .alreadyDefined))

end Catalog

end Steward
