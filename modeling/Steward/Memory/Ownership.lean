/-
Ownership: which groups and objects stay.

An object stays as long as something refers to it: a slot of a live group, or a
reference `held` outside the store.  When the last reference goes the object goes
with its group, and what the group's slots referred to may go next; objects that
refer to each other in a circle stay.

`Store.letGo` starts from the references that were dropped and goes on from there,
so that nothing else has to be looked at; `Store.settle` starts from every object.

* **`letGo_isSettled`** — if only objects among the dropped ones had nothing that
  refers to them, afterwards something refers to every object.
* **`settle_isSettled`** — the same without a condition.
* **`isReferenced_iff`** — "refers" means what it says: the object is held, or stands
  in a slot.

Groups that are not the fields of an object belong to a host, a library or a
thread.  `Store.retain` removes those that nobody owns any more.
-/
import Steward.Memory.Users

namespace Steward

open Std (TreeMap TreeSet)

/-- References to objects from outside the store. -/
abbrev Held := TreeSet GroupId

namespace Store

/-- Whether something refers to an object. -/
def isReferenced (s : Store) (held : Held) (id : GroupId) : Bool :=
  held.contains id || s.objects[id]?.any Object.isUsed

/-- What `isReferenced` finds in the users of an object is what stands in the slots. -/
theorem isReferenced_iff {s : Store} (h : s.Indexed) {held : Held} {id : GroupId}
    (hid : id ∈ s.objects) :
    s.isReferenced held id = true ↔ id ∈ held ∨ ∃ user, id ∈ s.valuesIn user := by
  obtain ⟨x, hx⟩ := Option.isSome_iff_exists.1 (TreeMap.mem_iff_isSome_getElem?.1 hid)
  have hu : x.isUsed = true ↔ ∃ user, id ∈ s.valuesIn user := by
    rw [Object.isUsed, Bool.not_eq_true', TreeSet.isEmpty_eq_false_iff_exists_mem]
    refine exists_congr fun user => ?_
    rw [← h user id hid]
    simp [IsUser, hx]
  rw [isReferenced, Bool.or_eq_true, hx, Option.any_some, hu, TreeSet.mem_iff_contains]

/-- Whether something refers to every object. -/
def IsSettled (s : Store) (held : Held) : Prop :=
  ∀ id ∈ s.objects, s.isReferenced held id = true

/-- Removes an object with its group. -/
def discard (s : Store) (id : GroupId) : Store :=
  let rest := s.release id
  { rest with objects := rest.objects.erase id }

/-- Removes the objects among `dropped` that nothing refers to, and then what
their slots alone referred to: at most `n` objects. -/
def letGoUpTo (held : Held) : Nat → List GroupId → Store → Store
  | 0, _, s => s
  | n + 1, dropped, s =>
    match dropped.dropWhile fun id => s.isReferenced held id || !s.objects.contains id with
    | [] => s
    | id :: rest => letGoUpTo held n (s.valuesIn id ++ rest) (s.discard id)

/-- Removes what has to go once the references `dropped` are no more. -/
def letGo (s : Store) (held : Held) (dropped : List GroupId) : Store :=
  letGoUpTo held s.objects.size dropped s

/-- Removes everything that has to go. -/
def settle (s : Store) (held : Held) : Store :=
  s.letGo held s.objects.keys

/-- The objects that stay are the others. -/
theorem mem_discard {s : Store} {id other : GroupId} :
    other ∈ (s.discard id).objects ↔ id ≠ other ∧ other ∈ s.objects := by
  simp [discard, release, TreeMap.mem_erase, mem_removeUser]

theorem size_discard_lt {s : Store} {id : GroupId} (h : id ∈ s.objects) :
    (s.discard id).objects.size < s.objects.size := by
  have hpos : s.objects.size ≠ 0 := fun h0 => by
    have := TreeMap.isEmpty_eq_size_eq_zero (t := s.objects)
    simp_all [TreeMap.isEmpty_iff_forall_not_mem]
  have hmem : (removeUser id s.objects (s.valuesIn id)).contains id = true :=
    mem_removeUser.2 h
  simp only [discard, release, TreeMap.size_erase, hmem, size_removeUser, if_true]
  omega

/-- Only what the slots of the object referred to can lose its last reference. -/
theorem isReferenced_discard {s : Store} {held : Held} {id other : GroupId} (hne : id ≠ other)
    (h : other ∉ s.valuesIn id) :
    (s.discard id).isReferenced held other = s.isReferenced held other := by
  simp [isReferenced, discard, release, TreeMap.getElem?_erase, hne, getElem?_removeUser h]

/-- When the number of objects is no more than `n`, removing up to `n` is removing all that
have to go. -/
theorem letGoUpTo_isSettled {held : Held} {n : Nat} {dropped : List GroupId} {s : Store}
    (bound : s.objects.size ≤ n)
    (only : ∀ id ∈ s.objects, s.isReferenced held id = false → id ∈ dropped) :
    (letGoUpTo held n dropped s).IsSettled held := by
  induction n generalizing dropped s with
  | zero =>
    intro id hid
    have := TreeMap.isEmpty_eq_size_eq_zero (t := s.objects)
    simp_all [letGoUpTo, TreeMap.isEmpty_iff_forall_not_mem]
  | succ n ih =>
    -- what stands before the first object that has to go plays no part
    let stays := fun id => s.isReferenced held id || !s.objects.contains id
    have later : ∀ id ∈ s.objects, s.isReferenced held id = false →
        id ∈ dropped.dropWhile stays := by
      intro id hid hno
      have hmem := only id hid hno
      rw [← List.takeWhile_append_dropWhile (p := stays) (l := dropped)] at hmem
      refine (List.mem_append.1 hmem).resolve_left fun ht => ?_
      have := List.all_eq_true.1 (List.all_takeWhile (p := stays) (l := dropped)) id ht
      simp [stays, hno, TreeMap.mem_iff_contains.1 hid] at this
    have first := List.head?_dropWhile_not stays dropped
    rw [letGoUpTo]
    split
    case h_1 heq =>
      intro id hid
      cases hno : s.isReferenced held id with
      | true => rfl
      | false => simpa [stays, heq] using later id hid hno
    case h_2 id rest heq =>
      change dropped.dropWhile stays = id :: rest at heq
      simp only [heq, List.head?_cons, stays, Bool.or_eq_false_iff, Bool.not_eq_false'] at first
      have smaller := size_discard_lt (TreeMap.mem_iff_contains.2 first.2)
      refine ih (by omega) fun other ho hno => ?_
      obtain ⟨hne, ho⟩ := mem_discard.1 ho
      by_cases hv : other ∈ s.valuesIn id
      · exact List.mem_append_left _ hv
      · rw [isReferenced_discard hne hv] at hno
        have := later other ho hno
        rw [heq] at this
        exact List.mem_append_right _ ((List.mem_cons.1 this).resolve_left fun h => hne h.symm)

theorem letGo_isSettled {s : Store} {held : Held} {dropped : List GroupId}
    (only : ∀ id ∈ s.objects, s.isReferenced held id = false → id ∈ dropped) :
    (s.letGo held dropped).IsSettled held :=
  letGoUpTo_isSettled (Nat.le_refl _) only

theorem settle_isSettled (s : Store) (held : Held) : (s.settle held).IsSettled held :=
  letGo_isSettled fun _ h _ => TreeMap.mem_keys.2 h

theorem indexed_discard {s : Store} (h : s.Indexed) (id : GroupId) : (s.discard id).Indexed :=
  indexed_eraseObject (indexed_release h id) id

theorem indexed_letGoUpTo {s : Store} (h : s.Indexed) (held : Held) (n : Nat)
    (dropped : List GroupId) : (letGoUpTo held n dropped s).Indexed := by
  induction n generalizing s dropped with
  | zero => exact h
  | succ n ih =>
    rw [letGoUpTo]
    split
    · exact h
    · exact ih (indexed_discard h _) _

/-- Letting go keeps the users up to date. -/
theorem indexed_letGo {s : Store} (h : s.Indexed) (held : Held) (dropped : List GroupId) :
    (s.letGo held dropped).Indexed :=
  indexed_letGoUpTo h held _ dropped

/-- Removes the groups that are neither owned nor the fields of an object. -/
def retain (s : Store) (owned : List GroupId) : Store :=
  let kept := TreeSet.ofList owned
  let gone := s.groups.keys.filter fun id => !(kept.contains id || s.objects.contains id)
  gone.foldl release s

/-- Removes every group. -/
def clear (s : Store) : Store :=
  s.groups.keys.foldl release s

end Store

end Steward
