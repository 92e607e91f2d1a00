/-
Tables: things under the names a host gave them, each name at most once.
-/

namespace Steward

/-- Things under names. -/
structure Table (α : Type) where
  entries : List (String × α) := []

namespace Table

def find? (t : Table α) (name : String) : Option α :=
  (t.entries.find? (·.1 == name)).map Prod.snd

def erase (t : Table α) (name : String) : Table α :=
  ⟨t.entries.filter (·.1 != name)⟩

/-- Puts a thing under a name, in the place of what was there. -/
def insert (t : Table α) (name : String) (value : α) : Table α :=
  ⟨(t.erase name).entries ++ [(name, value)]⟩

def values (t : Table α) : List α :=
  t.entries.map Prod.snd

end Table

end Steward
