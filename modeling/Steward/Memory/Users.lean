/-
Users: the groups that stand with an object are those whose slots refer to it.

`Store.Indexed` says so of a whole store.  It holds of what the operations make of a
store that it holds of:

* **`indexed_empty`** — at the start nothing refers to anything;
* **`indexed_write`** and **`indexed_release`** — groups come, change and go freely;
* **`indexed_eraseObject`** — objects go freely;
* **`indexed_instantiate`** — objects come under numbers that no slot refers to yet.
-/
import Steward.Memory.Store

namespace Steward

open Std (TreeMap TreeSet)

namespace Store

/-- Whether a group is among the users of an object. -/
def IsUser (objects : TreeMap GroupId Object) (user id : GroupId) : Prop :=
  ∃ x, objects[id]? = some x ∧ user ∈ x.users

/-- Whether the users of every object are the groups with a slot that refers to it. -/
def Indexed (s : Store) : Prop :=
  ∀ user, ∀ id ∈ s.objects, IsUser s.objects user id ↔ id ∈ s.valuesIn user

/-! ### One group becomes a user, or ceases to be one -/

theorem isUser_modify {objects : TreeMap GroupId Object} {f : Object → Object}
    {other user id : GroupId} :
    IsUser (objects.modify other f) user id ↔
      if other = id then ∃ x, objects[id]? = some x ∧ user ∈ (f x).users
      else IsUser objects user id := by
  by_cases h : other = id
  · subst h
    rw [IsUser, TreeMap.getElem?_modify_self, if_pos rfl]
    constructor
    · rintro ⟨_, hy, hu⟩
      obtain ⟨x, hx, rfl⟩ := Option.map_eq_some_iff.1 hy
      exact ⟨x, hx, hu⟩
    · rintro ⟨x, hx, hu⟩
      exact ⟨f x, by rw [hx, Option.map_some], hu⟩
  · simp [IsUser, TreeMap.getElem?_modify, h]

theorem isUser_addUser {group : GroupId} {objects : TreeMap GroupId Object} {ids : List GroupId}
    {user id : GroupId} :
    IsUser (addUser group objects ids) user id ↔
      IsUser objects user id ∨ user = group ∧ id ∈ ids ∧ id ∈ objects := by
  induction ids generalizing objects with
  | nil => simp [addUser]
  | cons other ids ih =>
    rw [addUser, List.foldl_cons]
    refine ih.trans ?_
    rw [isUser_modify, TreeMap.mem_modify]
    by_cases h : other = id
    · subst h
      simp only [if_pos, Object.addUser, TreeSet.mem_insert, Nat.compare_eq_eq]
      constructor
      · rintro (⟨x, hx, rfl | hu⟩ | ⟨hu, -, hm⟩)
        · have hm : other ∈ objects := TreeMap.mem_iff_isSome_getElem?.2 (by rw [hx]; rfl)
          exact Or.inr ⟨rfl, List.mem_cons_self, hm⟩
        · exact Or.inl ⟨x, hx, hu⟩
        · exact Or.inr ⟨hu, List.mem_cons_self, hm⟩
      · rintro (⟨x, hx, hu⟩ | ⟨rfl, -, hm⟩)
        · exact Or.inl ⟨x, hx, Or.inr hu⟩
        · obtain ⟨x, hx⟩ := Option.isSome_iff_exists.1 (TreeMap.mem_iff_isSome_getElem?.1 hm)
          exact Or.inl ⟨x, hx, Or.inl rfl⟩
    · have hne : id ≠ other := fun he => h he.symm
      simp [h, hne]

theorem isUser_removeUser {group : GroupId} {objects : TreeMap GroupId Object}
    {ids : List GroupId} {user id : GroupId} :
    IsUser (removeUser group objects ids) user id ↔
      IsUser objects user id ∧ ¬(user = group ∧ id ∈ ids) := by
  induction ids generalizing objects with
  | nil => simp [removeUser]
  | cons other ids ih =>
    rw [removeUser, List.foldl_cons]
    refine ih.trans ?_
    rw [isUser_modify]
    by_cases h : other = id
    · subst h
      simp only [if_pos, Object.removeUser, TreeSet.mem_erase, IsUser]
      grind
    · have hne : id ≠ other := fun he => h he.symm
      simp [h, hne]

/-! ### What a slot refers to after an operation -/

theorem valuesIn_write (s : Store) (id : GroupId) (g : Group) (user : GroupId) :
    (s.write id g).valuesIn user = if id = user then g.refs else s.valuesIn user := by
  by_cases h : id = user <;> simp [valuesIn, write, group?, TreeMap.getElem?_insert, h]

theorem valuesIn_release (s : Store) (id user : GroupId) :
    (s.release id).valuesIn user = if id = user then [] else s.valuesIn user := by
  by_cases h : id = user <;> simp [valuesIn, release, group?, TreeMap.getElem?_erase, h]

/-! ### The operations keep the users up to date -/

theorem indexed_empty : Indexed {} := by
  intro user id hid
  exact absurd hid TreeMap.not_mem_emptyc

theorem indexed_write {s : Store} (h : s.Indexed) (id : GroupId) (g : Group) :
    (s.write id g).Indexed := by
  intro user o ho
  have ho : o ∈ s.objects := mem_removeUser.1 (mem_addUser.1 ho)
  rw [valuesIn_write]
  change IsUser (addUser id (removeUser id s.objects (s.valuesIn id)) g.refs) user o ↔ _
  rw [isUser_addUser, isUser_removeUser, h user o ho, mem_removeUser]
  by_cases hu : id = user
  · subst hu
    simp [ho]
  · have hne : user ≠ id := fun he => hu he.symm
    simp [hu, hne]

theorem indexed_release {s : Store} (h : s.Indexed) (id : GroupId) : (s.release id).Indexed := by
  intro user o ho
  have ho : o ∈ s.objects := mem_removeUser.1 ho
  rw [valuesIn_release]
  change IsUser (removeUser id s.objects (s.valuesIn id)) user o ↔ _
  rw [isUser_removeUser, h user o ho]
  by_cases hu : id = user
  · subst hu
    simp
  · have hne : user ≠ id := fun he => hu he.symm
    simp [hu, hne]

theorem indexed_eraseObject {s : Store} (h : s.Indexed) (id : GroupId) :
    Indexed { s with objects := s.objects.erase id } := by
  intro user o ho
  obtain ⟨hne, ho⟩ := TreeMap.mem_erase.1 ho
  refine Iff.trans ?_ (h user o ho)
  simp [IsUser, TreeMap.getElem?_erase, hne]

theorem indexed_instantiate {s : Store} (h : s.Indexed)
    (fresh : ∀ user, s.next ∉ s.valuesIn user) (type : ObjectType) :
    (s.instantiate type).2.Indexed := by
  have hw : (s.skip.write s.next (.ofKeys .fields type.keys)).Indexed := indexed_write h _ _
  intro user o ho
  rw [instantiate] at ho ⊢
  by_cases hn : s.next = o
  · -- nothing uses the new object
    subst hn
    have hv : s.next ∉ (s.skip.write s.next (.ofKeys .fields type.keys)).valuesIn user := by
      rw [valuesIn_write, Group.refs_ofKeys]
      split
      · exact List.not_mem_nil
      · exact fresh user
    refine iff_of_false ?_ hv
    simp [IsUser, allocate]
  · have ho : o ∈ (s.skip.write s.next (.ofKeys .fields type.keys)).objects :=
      (TreeMap.mem_insert.1 ho).resolve_left fun he => hn (Nat.compare_eq_eq.1 he)
    refine Iff.trans ?_ (hw user o ho)
    simp [IsUser, allocate, TreeMap.getElem?_insert, hn]

end Store

end Steward
