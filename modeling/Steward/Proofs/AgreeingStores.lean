/-
Stores that agree: the same groups and objects, in tables whose shapes may differ.

A table is a tree, and what it looks like depends on the order in which it was filled.  Nothing that
is read from a store depends on that, and every operation makes stores that agree out of stores that
agree:

* **`Agrees.set`** and **`Agrees.add`** — slots;
* **`Agrees.letGo`** and **`Agrees.settle`** — objects that lose their last reference;
* **`Agrees.retain`** — groups that nobody owns;
* **`agrees_write_self`** — writing a group back as it is changes nothing.
-/
import Steward.Proofs.AlikeStores

namespace Steward

open Std (TreeMap TreeSet)

namespace Store

/-- Whether two stores hold the same groups and objects, each object with the same users. -/
structure Agrees (s s' : Store) : Prop where
  next : s.next = s'.next
  groups : ∀ id, s.group? id = s'.group? id
  objects : ∀ id, s.objectAt? id = s'.objectAt? id
  users : ∀ user id, IsUser s.objects user id ↔ IsUser s'.objects user id

variable {s s' s'' : Store}

theorem Agrees.refl (s : Store) : s.Agrees s :=
  ⟨rfl, fun _ => rfl, fun _ => rfl, fun _ _ => Iff.rfl⟩

/-- Writing a group back as it is changes nothing. -/
theorem agrees_write_self (h : s.Indexed) {id : GroupId} {g : Group} (hg : s.group? id = some g) :
    (s.write id g).Agrees s where
  next := rfl
  groups i := by
    rw [group?_write]
    split
    · rename_i hi
      rw [← hi, hg]
    · rfl
  objects i := objectAt?_write s id g i
  users user o := by
    have hvalues : s.valuesIn id = g.refs := by
      rw [valuesIn, hg]
      rfl
    change IsUser (addUser id (removeUser id s.objects (s.valuesIn id)) g.refs) user o ↔ _
    rw [isUser_addUser, isUser_removeUser, mem_removeUser, hvalues]
    by_cases hu : user = id ∧ o ∈ g.refs
    · obtain ⟨rfl, ho⟩ := hu
      have hthere : IsUser s.objects user o ↔ o ∈ s.objects := by
        refine ⟨?_, fun hmem => (h user o hmem).mpr (hvalues ▸ ho)⟩
        rintro ⟨x, hx, -⟩
        exact TreeMap.mem_iff_isSome_getElem?.mpr (by rw [hx]; rfl)
      simp [ho, hthere]
    · simp only [hu, not_false_eq_true, and_true, ← and_assoc, false_and, or_false]

namespace Agrees

variable (h : s.Agrees s')

include h

theorem trans (h' : s'.Agrees s'') : s.Agrees s'' where
  next := h.next.trans h'.next
  groups id := (h.groups id).trans (h'.groups id)
  objects id := (h.objects id).trans (h'.objects id)
  users user id := (h.users user id).trans (h'.users user id)

/-! ### Readings -/

theorem read_eq (id : GroupId) : s.read id = s'.read id := by
  rw [read, read, h.groups]

theorem valuesIn_eq (id : GroupId) : s.valuesIn id = s'.valuesIn id := by
  rw [valuesIn, valuesIn, h.groups]

theorem equiv_groups : s.groups.Equiv s'.groups :=
  .of_forall_constGet?_eq h.groups

theorem equiv_objects :
    (s.objects.map fun _ x => x.core).Equiv (s'.objects.map fun _ x => x.core) :=
  .of_forall_constGet?_eq fun id => by
    have hmap : ∀ t : Store, (t.objects.map fun _ x => x.core)[id]? = t.objectAt? id :=
      fun t => TreeMap.getElem?_map
    exact (hmap s).trans ((h.objects id).trans (hmap s').symm)

theorem mem_iff (id : GroupId) : id ∈ s.objects ↔ id ∈ s'.objects := by
  rw [mem_objects_iff, mem_objects_iff, h.objects]

theorem contains_eq (id : GroupId) : s.objects.contains id = s'.objects.contains id :=
  Bool.eq_iff_iff.mpr (h.mem_iff id)

theorem size_objects : s.objects.size = s'.objects.size := by
  simpa only [TreeMap.size_map] using h.equiv_objects.size_eq

theorem keys_objects : s.objects.keys = s'.objects.keys := by
  simpa only [TreeMap.keys_map] using h.equiv_objects.keys_eq

theorem isReferenced_eq (held : Held) (id : GroupId) :
    s.isReferenced held id = s'.isReferenced held id := by
  have hused : ∀ t : Store, (t.objects[id]?.any Object.isUsed) = true ↔
      ∃ user, IsUser t.objects user id := fun t => by
    cases hx : t.objects[id]? with
    | none => simp [IsUser, hx]
    | some x => simp [IsUser, hx, Object.isUsed, TreeSet.isEmpty_eq_false_iff_exists_mem]
  rw [isReferenced, isReferenced, Bool.eq_iff_iff, Bool.or_eq_true, Bool.or_eq_true, hused, hused]
  simp only [h.users]

theorem payload?_eq (o : ObjectRef) : s.payload? o = s'.payload? o := by
  have hpayload : ∀ t : Store, t.payload? o = (t.objectAt? o.group).bind Prod.snd := fun t => by
    rw [payload?, object?, objectAt?]
    cases t.objects[o.group]? <;> rfl
  rw [hpayload, hpayload, h.objects]

/-- The users of every object are up to date in both stores or in none. -/
theorem indexed (hs : s.Indexed) : s'.Indexed := fun user id hid => by
  rw [← h.users, ← h.valuesIn_eq]
  exact hs user id ((h.mem_iff id).mpr hid)

theorem every {P : Group → Prop} (hs : s.Every P) : s'.Every P :=
  fun id _ hg => hs ((h.groups id).trans hg)

/-! ### Operations -/

theorem write (id : GroupId) (g : Group) : (s.write id g).Agrees (s'.write id g) where
  next := h.next
  groups i := by rw [group?_write, group?_write, h.groups]
  objects i := by rw [objectAt?_write, objectAt?_write, h.objects]
  users user o := by
    change IsUser (addUser id (removeUser id s.objects (s.valuesIn id)) g.refs) user o ↔
      IsUser (addUser id (removeUser id s'.objects (s'.valuesIn id)) g.refs) user o
    rw [isUser_addUser, isUser_addUser, isUser_removeUser, isUser_removeUser, mem_removeUser,
      mem_removeUser, h.users, h.mem_iff, h.valuesIn_eq]

theorem release (id : GroupId) : (s.release id).Agrees (s'.release id) where
  next := h.next
  groups i := by rw [group?_release, group?_release, h.groups]
  objects i := by rw [objectAt?_release, objectAt?_release, h.objects]
  users user o := by
    change IsUser (removeUser id s.objects (s.valuesIn id)) user o ↔
      IsUser (removeUser id s'.objects (s'.valuesIn id)) user o
    rw [isUser_removeUser, isUser_removeUser, h.users, h.valuesIn_eq]

theorem discard (id : GroupId) : (s.discard id).Agrees (s'.discard id) where
  next := h.next
  groups i := by rw [group?_discard, group?_discard, h.groups]
  objects i := by rw [objectAt?_discard, objectAt?_discard, h.objects]
  users user o := by
    have herase : ∀ t : Store, IsUser (t.discard id).objects user o ↔
        id ≠ o ∧ IsUser (t.release id).objects user o := fun t => by
      change (∃ x, ((t.release id).objects.erase id)[o]? = some x ∧ user ∈ x.users) ↔ _
      simp [IsUser, TreeMap.getElem?_erase, and_assoc]
    rw [herase, herase, (h.release id).users]

/-- What is done to one group comes to the same in both stores. -/
theorem update {α : Type} (id : GroupId) (act : Group → Except Error (α × Group)) :
    Tied Agrees (s.read id >>= act >>= fun r => pure (r.1, s.write id r.2))
      (s'.read id >>= act >>= fun r => pure (r.1, s'.write id r.2)) := by
  rw [h.read_eq]
  cases s'.read id >>= act with
  | error e => exact .error e
  | ok r => exact .ok (h.write id r.2)

theorem set (id : GroupId) (key : Key) (value : Option ObjectRef) :
    Tied Agrees (s.set id key value) (s'.set id key value) := by
  have hset : ∀ t : Store, t.set id key value =
      (t.read id >>= (·.set key value) >>= fun r => pure (r.1, t.write id r.2)) :=
    fun t => (bind_assoc (t.read id) _ _).symm
  rw [hset, hset]
  exact h.update id _

theorem add (id : GroupId) (key : Key) (value : Option ObjectRef) :
    Tied Agrees (s.add id key value) (s'.add id key value) := by
  have hadd : ∀ t : Store, t.add id key value =
      (t.read id >>= (·.add key value) >>= fun r => pure (r.1, t.write id r.2)) :=
    fun t => (bind_assoc (t.read id) _ _).symm
  rw [hadd, hadd]
  exact h.update id _

/-! ### What goes -/

theorem letGoUpTo (held : Held) (n : Nat) (dropped : List GroupId) :
    (Store.letGoUpTo held n dropped s).Agrees (Store.letGoUpTo held n dropped s') := by
  induction n generalizing s s' dropped with
  | zero => exact h
  | succ n ih =>
    rw [Store.letGoUpTo, Store.letGoUpTo]
    simp only [h.isReferenced_eq, h.contains_eq]
    split
    · exact h
    · rw [h.valuesIn_eq]
      exact ih (h.discard _) _

theorem letGo (held : Held) (dropped : List GroupId) :
    (s.letGo held dropped).Agrees (s'.letGo held dropped) := by
  rw [Store.letGo, Store.letGo, h.size_objects]
  exact h.letGoUpTo held _ dropped

theorem settle (held : Held) : (s.settle held).Agrees (s'.settle held) := by
  rw [Store.settle, Store.settle, h.keys_objects]
  exact h.letGo held _

theorem releaseAll (ids : List GroupId) :
    (ids.foldl Store.release s).Agrees (ids.foldl Store.release s') := by
  induction ids generalizing s s' with
  | nil => exact h
  | cons id ids ih => exact ih (h.release id)

theorem retain (owned : List GroupId) : (s.retain owned).Agrees (s'.retain owned) := by
  rw [Store.retain, Store.retain]
  simp only [h.equiv_groups.keys_eq, h.contains_eq]
  exact h.releaseAll _

end Agrees

end Store

end Steward
