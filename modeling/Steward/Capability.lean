/-
Capability sets: the permissions a thread holds and a command asks for.

A set is the strictly ascending list of its capabilities, so two sets are equal
exactly when they have the same members, and every listing of a set is sorted
and free of repeats:

* **`mem_insert`** — what inserting adds;
* **`isSuperset_iff`** — the gate, said on members;
* **`mem_missing`** — what a refusal names.
-/

namespace Steward

/-- A set of capabilities, each a free text. -/
structure CapabilitySet where
  names : List String
  ascending : names.Pairwise (· < ·)
  deriving DecidableEq

namespace CapabilitySet

/-- A text put at its place in an ascending list, once. -/
def insertInto (c : String) : List String → List String
  | [] => [c]
  | d :: ds =>
    if c < d then c :: d :: ds
    else if c = d then d :: ds
    else d :: insertInto c ds

theorem mem_insertInto {x c : String} {ds : List String} :
    x ∈ insertInto c ds ↔ x = c ∨ x ∈ ds := by
  induction ds with
  | nil => simp [insertInto]
  | cons d ds ih =>
    rw [insertInto]
    split
    · simp
    · split
      · rename_i hcd
        subst hcd
        simp
      · simp only [List.mem_cons, ih]
        exact or_left_comm

theorem lt_of_not_lt_of_ne {a b : String} (h : ¬ a < b) (hne : a ≠ b) : b < a := by
  rw [← String.not_le]
  exact fun hab => hne (String.le_antisymm hab (String.not_lt.mp h))

theorem pairwise_insertInto {c : String} {ds : List String} (h : ds.Pairwise (· < ·)) :
    (insertInto c ds).Pairwise (· < ·) := by
  induction ds with
  | nil => simp [insertInto]
  | cons d ds ih =>
    rw [List.pairwise_cons] at h
    rw [insertInto]
    split
    · rename_i hcd
      refine List.pairwise_cons.mpr ⟨fun x hx => ?_, List.pairwise_cons.mpr h⟩
      rcases List.mem_cons.mp hx with rfl | hx
      · exact hcd
      · exact String.lt_trans hcd (h.1 x hx)
    · split
      · exact List.pairwise_cons.mpr h
      · rename_i hlt hne
        refine List.pairwise_cons.mpr ⟨fun x hx => ?_, ih h.2⟩
        rcases mem_insertInto.mp hx with rfl | hx
        · exact lt_of_not_lt_of_ne hlt hne
        · exact h.1 x hx

def empty : CapabilitySet :=
  ⟨[], List.Pairwise.nil⟩

instance : EmptyCollection CapabilitySet where
  emptyCollection := empty

instance : Inhabited CapabilitySet where
  default := empty

instance : Membership String CapabilitySet where
  mem s c := c ∈ s.names

instance (c : String) (s : CapabilitySet) : Decidable (c ∈ s) :=
  inferInstanceAs (Decidable (c ∈ s.names))

def insert (s : CapabilitySet) (c : String) : CapabilitySet :=
  ⟨insertInto c s.names, pairwise_insertInto s.ascending⟩

/-- The set of the capabilities listed, in any order and with any repeats. -/
def ofList (cs : List String) : CapabilitySet :=
  cs.foldl insert empty

def size (s : CapabilitySet) : Nat :=
  s.names.length

def isEmpty (s : CapabilitySet) : Bool :=
  s.names.isEmpty

/-- Whether everything `required` is held. -/
def isSuperset (held required : CapabilitySet) : Bool :=
  required.names.all (· ∈ held.names)

/-- What is required and not held, in ascending order. -/
def missing (held required : CapabilitySet) : List String :=
  required.names.filter (· ∉ held.names)

def union (a b : CapabilitySet) : CapabilitySet :=
  b.names.foldl insert a

/-- How a set is written. -/
def display (s : CapabilitySet) : String :=
  "[" ++ ", ".intercalate s.names ++ "]"

theorem mem_def {c : String} {s : CapabilitySet} : c ∈ s ↔ c ∈ s.names :=
  Iff.rfl

@[simp]
theorem mem_insert {x c : String} {s : CapabilitySet} : x ∈ s.insert c ↔ x = c ∨ x ∈ s :=
  mem_insertInto

theorem mem_foldl_insert {x : String} {s : CapabilitySet} {cs : List String} :
    x ∈ cs.foldl insert s ↔ x ∈ s ∨ x ∈ cs := by
  induction cs generalizing s with
  | nil => simp
  | cons c cs ih =>
    rw [List.foldl_cons, ih, mem_insert, List.mem_cons, or_comm (a := x = c), or_assoc]

@[simp]
theorem mem_union {x : String} {a b : CapabilitySet} : x ∈ a.union b ↔ x ∈ a ∨ x ∈ b :=
  mem_foldl_insert

@[simp]
theorem mem_ofList {x : String} {cs : List String} : x ∈ ofList cs ↔ x ∈ cs := by
  rw [ofList, mem_foldl_insert]
  simp [mem_def, empty]

theorem isSuperset_iff {held required : CapabilitySet} :
    held.isSuperset required = true ↔ ∀ c ∈ required, c ∈ held := by
  simp [isSuperset, mem_def]

theorem mem_missing {c : String} {held required : CapabilitySet} :
    c ∈ held.missing required ↔ c ∈ required ∧ c ∉ held := by
  simp [missing, mem_def]

/-- A refusal names something exactly when the gate is shut. -/
theorem missing_eq_nil_iff {held required : CapabilitySet} :
    held.missing required = [] ↔ held.isSuperset required = true := by
  simp [missing, isSuperset, List.filter_eq_nil_iff]

end CapabilitySet

end Steward
