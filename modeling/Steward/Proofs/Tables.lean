/-
Tables: what is found under a name, and what is left without it.

* **`Table.mem_values_of_find?`**, **`Table.mem_values_of_insert`** — where the things in a table
  come from;
* **`Table.Keyed`** — each name is given once, which is so in every table that is filled by
  `insert`;
* **`Table.Keyed.values_perm`** — the things in such a table are the one under a given name, if
  there is one, and those that are left when the name is taken away.
-/
import Mathlib.Data.List.Nodup
import Mathlib.Data.List.Perm.Basic
import Steward.Session.Table

namespace Steward

namespace Table

variable {α : Type} {t : Table α} {name : String} {a b : α}

theorem mem_values_of_find? (h : t.find? name = some a) : a ∈ t.values := by
  obtain ⟨x, hx, rfl⟩ := Option.map_eq_some_iff.mp h
  exact List.mem_map_of_mem (List.mem_of_find?_eq_some hx)

theorem mem_values_of_erase (h : a ∈ (t.erase name).values) : a ∈ t.values := by
  obtain ⟨x, hx, rfl⟩ := List.mem_map.mp h
  exact List.mem_map_of_mem (List.mem_filter.mp hx).1

theorem mem_values_of_insert (h : a ∈ (t.insert name b).values) : a = b ∨ a ∈ t.values := by
  obtain ⟨x, hx, rfl⟩ := List.mem_map.mp h
  rcases List.mem_append.mp hx with hx | hx
  · exact .inr (mem_values_of_erase (List.mem_map_of_mem hx))
  · obtain rfl := List.mem_singleton.mp hx
    exact .inl rfl

theorem mem_values_insert_self : b ∈ (t.insert name b).values :=
  List.mem_map.mpr ⟨(name, b), List.mem_append_right _ (List.mem_singleton_self _), rfl⟩

/-- Whether each name is given once. -/
def Keyed (t : Table α) : Prop :=
  (t.entries.map Prod.fst).Nodup

theorem keyed_empty : Keyed ({} : Table α) :=
  .nil

theorem Keyed.erase (h : t.Keyed) (name : String) : (t.erase name).Keyed :=
  h.sublist (List.filter_sublist.map Prod.fst)

theorem Keyed.insert (h : t.Keyed) (name : String) (a : α) : (t.insert name a).Keyed := by
  rw [Keyed, Table.insert, List.map_append, List.nodup_append]
  refine ⟨h.erase name, List.nodup_singleton _, ?_⟩
  rintro x hx y hy rfl
  obtain ⟨e, he, rfl⟩ := List.mem_map.mp hx
  have hname : e.1 ≠ name := by simpa using (List.mem_filter.mp he).2
  exact hname (by simpa using hy)

theorem values_erase_sublist (t : Table α) (name : String) :
    (t.erase name).values.Sublist t.values :=
  List.filter_sublist.map Prod.snd

theorem values_insert (t : Table α) (name : String) (a : α) :
    (t.insert name a).values = (t.erase name).values ++ [a] := by
  rw [values, insert, List.map_append]
  rfl

theorem Keyed.find?_eq_some_iff (h : t.Keyed) : t.find? name = some a ↔ (name, a) ∈ t.entries := by
  constructor
  · intro ha
    obtain ⟨x, hx, rfl⟩ := Option.map_eq_some_iff.mp ha
    have hname : x.1 = name := by simpa using List.find?_some hx
    rw [← hname]
    exact List.mem_of_find?_eq_some hx
  · intro ha
    cases hx : t.entries.find? (·.1 == name) with
    | none => exact absurd (List.find?_eq_none.mp hx _ ha) (by simp)
    | some x =>
      have hname : x.1 = name := by simpa using List.find?_some hx
      have heq : x = (name, a) :=
        List.inj_on_of_nodup_map h (List.mem_of_find?_eq_some hx) ha hname
      rw [find?, hx, heq]
      rfl

theorem Keyed.mem_values_iff (h : t.Keyed) : a ∈ t.values ↔ ∃ name, t.find? name = some a := by
  constructor
  · intro ha
    obtain ⟨⟨name, a⟩, hx, rfl⟩ := List.mem_map.mp ha
    exact ⟨name, h.find?_eq_some_iff.mpr hx⟩
  · rintro ⟨name, ha⟩
    exact mem_values_of_find? ha

/-- What stands under a name, and the rest. -/
theorem Keyed.values_perm (h : t.Keyed) (name : String) :
    t.values.Perm ((t.find? name).toList ++ (t.erase name).values) := by
  obtain ⟨entries⟩ := t
  induction entries with
  | nil => exact .nil
  | cons e entries ih =>
    obtain ⟨hout, hnodup⟩ := List.nodup_cons.mp h
    have ih := ih hnodup
    by_cases he : e.1 = name
    · have herase : Table.erase ⟨e :: entries⟩ name = ⟨entries⟩ := by
        rw [Table.erase, List.filter_cons_of_neg (by simpa using he), List.filter_eq_self.mpr]
        intro x hx
        have hne : x.1 ≠ name := by
          rintro rfl
          exact hout (he ▸ List.mem_map_of_mem hx)
        simpa using hne
      rw [herase, find?, List.find?_cons_of_pos (by simpa using he)]
      exact .refl _
    · have herase : (Table.erase ⟨e :: entries⟩ name).values =
          e.2 :: (Table.erase ⟨entries⟩ name).values := by
        rw [Table.erase, List.filter_cons_of_pos (by simpa using he)]
        rfl
      rw [herase, find?, List.find?_cons_of_neg (by simpa using he)]
      exact (ih.cons e.2).trans List.perm_middle.symm

end Table

end Steward
