/-
Sound stores: what holds of the memory at all times, and what each operation on it
keeps.

`Store.Sound` collects the facts that no operation breaks: values fit their slots and
refer to objects that are there, payloads are of a kind that the type of their object
accepts, the fields of an object are those of its type, and every number in use was
given out.  `Store.Housed` adds that every object has its group.

`Store.Evolves kept s s'` says what a run, or any part of one, may make of a store `s`:
a sound store in which old numbers mean what they meant, and which still has every object
among those `kept`.

* **`evolves_set`**, **`evolves_add`**, **`evolves_allocate`**, … — each operation is such
  a step;
* **`evolves_letGo`** — so is letting go of what nothing refers to, for what is held.
-/
import Steward.Memory.Ownership
import Steward.Proofs.Slots

namespace Steward

open Std (TreeMap TreeSet)

/-- What an object is, apart from who uses it. -/
def Object.core (x : Object) : ObjectRef × Option Payload :=
  (x.ref, x.payload)

namespace Store

/-- The object under a number, with its payload. -/
def objectAt? (s : Store) (id : GroupId) : Option (ObjectRef × Option Payload) :=
  s.objects[id]?.map Object.core

/-- Whether the object that `o` refers to is there. -/
def Has (s : Store) (o : ObjectRef) : Prop :=
  ∃ payload, s.objectAt? o.group = some (o, payload)

/-- What holds of a store at all times. -/
structure Sound (s : Store) : Prop where
  fits : ∀ {id g}, s.group? id = some g → g.Fits
  present : ∀ {id g}, s.group? id = some g → ∀ v ∈ g.values, s.Has v
  payloads : ∀ {id o p}, s.objectAt? id = some (o, some p) → o.type.accepts p.kind = true
  layout : ∀ {id o p g}, s.objectAt? id = some (o, p) → s.group? id = some g →
    (Group.ofKeys .fields o.type.keys).keys <+: g.keys
  group_lt : ∀ {id g}, s.group? id = some g → id < s.next
  object_lt : ∀ {id o p}, s.objectAt? id = some (o, p) → o.group = id ∧ id < s.next
  indexed : s.Indexed

/-- Whether every object has the group of its fields. -/
def Housed (s : Store) : Prop :=
  ∀ {id o p}, s.objectAt? id = some (o, p) → ∃ g, s.group? id = some g

/-! ### What the operations do to groups and objects -/

theorem mem_objects_iff {s : Store} {id : GroupId} :
    id ∈ s.objects ↔ ∃ o p, s.objectAt? id = some (o, p) := by
  rw [TreeMap.mem_iff_isSome_getElem?, objectAt?]
  cases s.objects[id]? with
  | none => simp
  | some x => simp [Object.core]

/-- What is done to some objects changes none, as long as it leaves each what it is. -/
theorem core_modifyAll {f : Object → Object} (hf : ∀ x, (f x).core = x.core)
    {objects : TreeMap GroupId Object} {ids : List GroupId} (id : GroupId) :
    (ids.foldl (fun objects other => objects.modify other f) objects)[id]?.map Object.core =
      objects[id]?.map Object.core := by
  induction ids generalizing objects with
  | nil => rfl
  | cons other ids ih =>
    rw [List.foldl_cons]
    refine ih.trans ?_
    by_cases h : other = id
    · subst h
      rw [TreeMap.getElem?_modify_self]
      cases objects[other]? with
      | none => rfl
      | some x => exact congrArg some (hf x)
    · simp [TreeMap.getElem?_modify, h]

@[simp]
theorem group?_write (s : Store) (id : GroupId) (g : Group) (i : GroupId) :
    (s.write id g).group? i = if id = i then some g else s.group? i := by
  simp [group?, write, TreeMap.getElem?_insert]

@[simp]
theorem objectAt?_write (s : Store) (id : GroupId) (g : Group) (i : GroupId) :
    (s.write id g).objectAt? i = s.objectAt? i :=
  -- the old values of the slots lose a user, then the new ones get it
  (core_modifyAll (f := Object.addUser id) (fun _ => rfl) i).trans
    (core_modifyAll (f := Object.removeUser id) (fun _ => rfl) i)

@[simp]
theorem group?_release (s : Store) (id i : GroupId) :
    (s.release id).group? i = if id = i then none else s.group? i := by
  simp [group?, release, TreeMap.getElem?_erase]

@[simp]
theorem objectAt?_release (s : Store) (id i : GroupId) :
    (s.release id).objectAt? i = s.objectAt? i :=
  core_modifyAll (f := Object.removeUser id) (fun _ => rfl) i

/-- Only groups that were there are left. -/
theorem group?_of_release {s : Store} {id i : GroupId} {g : Group}
    (h : (s.release id).group? i = some g) : s.group? i = some g := by
  rw [group?_release] at h
  split at h
  · cases h
  · exact h

@[simp]
theorem group?_discard (s : Store) (id i : GroupId) :
    (s.discard id).group? i = if id = i then none else s.group? i :=
  group?_release s id i

@[simp]
theorem objectAt?_discard (s : Store) (id i : GroupId) :
    (s.discard id).objectAt? i = if id = i then none else s.objectAt? i := by
  rw [objectAt?, discard, TreeMap.getElem?_erase]
  by_cases h : id = i
  · simp [h]
  · simp only [Nat.compare_eq_eq, h, if_false]
    exact objectAt?_release s id i

theorem objectAt?_of_discard {s : Store} {id i : GroupId} {x : ObjectRef × Option Payload}
    (h : (s.discard id).objectAt? i = some x) : s.objectAt? i = some x := by
  rw [objectAt?_discard] at h
  split at h
  · cases h
  · exact h

@[simp]
theorem group?_instantiate (s : Store) (type : ObjectType) (i : GroupId) :
    (s.instantiate type).2.group? i =
      if s.next = i then some (.ofKeys .fields type.keys) else s.group? i :=
  group?_write s.skip s.next _ i

@[simp]
theorem objectAt?_instantiate (s : Store) (type : ObjectType) (i : GroupId) :
    (s.instantiate type).2.objectAt? i =
      if s.next = i then some (⟨type, s.next⟩, none) else s.objectAt? i := by
  rw [objectAt?, instantiate, allocate, TreeMap.getElem?_insert]
  by_cases h : s.next = i
  · simp [h, Object.core]
  · simp only [Nat.compare_eq_eq, h, if_false]
    exact objectAt?_write s.skip s.next (.ofKeys .fields type.keys) i

/-- Setting a payload is allowed for a kind that the type accepts, and changes that
payload alone. -/
theorem setPayload_cases {s s' : Store} {o : ObjectRef} {value : Payload}
    (h : s.setPayload o value = .ok s') :
    o.type.accepts value.kind = true ∧ s'.next = s.next ∧ (∀ i, s'.group? i = s.group? i) ∧
      ∀ i, s'.objectAt? i =
        if o.group = i then (s.objectAt? i).map fun x => (x.1, some value)
        else s.objectAt? i := by
  rw [setPayload] at h
  split at h
  · rename_i hkind
    cases h
    refine ⟨hkind, rfl, fun i => rfl, fun i => ?_⟩
    rw [objectAt?, objectAt?]
    by_cases hi : o.group = i
    · subst hi
      rw [TreeMap.getElem?_modify_self, if_pos rfl]
      cases s.objects[o.group]? <;> rfl
    · simp [TreeMap.getElem?_modify, hi]
  · cases h

theorem read_eq_ok_iff {s : Store} {id : GroupId} {g : Group} :
    s.read id = .ok g ↔ s.group? id = some g := by
  rw [read]
  cases s.group? id with
  | none => simp
  | some g' => simp

theorem isLive_iff {s : Store} {id : GroupId} :
    s.isLive id = true ↔ ∃ g, s.group? id = some g := by
  rw [isLive, group?, ← Option.isSome_iff_exists, TreeMap.isSome_getElem?_eq_contains]

/-- Setting a slot of a group, in terms of the group. -/
theorem set_cases {s s' : Store} {id : GroupId} {key : Key} {value old : Option ObjectRef}
    (h : s.set id key value = .ok (old, s')) :
    ∃ g g', s.group? id = some g ∧ g.set key value = .ok (old, g') ∧ s' = s.write id g' := by
  obtain ⟨g, hg, h⟩ := bind_eq_ok_iff.mp h
  obtain ⟨⟨_, g'⟩, hset, h⟩ := bind_eq_ok_iff.mp h
  cases h
  exact ⟨g, g', read_eq_ok_iff.mp hg, hset, rfl⟩

/-- Adding a slot to a group, in terms of the group. -/
theorem add_cases {s s' : Store} {id : GroupId} {key : Key} {value : Option ObjectRef}
    {added : Bool} (h : s.add id key value = .ok (added, s')) :
    ∃ g g', s.group? id = some g ∧ g.add key value = .ok (added, g') ∧ s' = s.write id g' := by
  obtain ⟨g, hg, h⟩ := bind_eq_ok_iff.mp h
  obtain ⟨⟨_, g'⟩, hadd, h⟩ := bind_eq_ok_iff.mp h
  cases h
  exact ⟨g, g', read_eq_ok_iff.mp hg, hadd, rfl⟩

theorem get_eq_ok_iff {s : Store} {id : GroupId} {key : Key} {value : Option ObjectRef} :
    s.get id key = .ok value ↔ ∃ g, s.group? id = some g ∧ g.get key = .ok value := by
  rw [get, bind_eq_ok_iff]
  simp only [read_eq_ok_iff]

/-- What is read from a slot is there. -/
theorem Sound.has_of_get {s : Store} (h : s.Sound) {id : GroupId} {key : Key} {v : ObjectRef}
    (hget : s.get id key = .ok (some v)) : s.Has v := by
  obtain ⟨g, hg, hget⟩ := get_eq_ok_iff.mp hget
  exact h.present hg v (Group.mem_values_of_get hget)

/-! ### The operations keep a store sound -/

theorem sound_empty : Sound {} := by
  have hg : ∀ id, group? {} id = none := fun id => by simp [group?]
  have ho : ∀ id, objectAt? {} id = none := fun id => by simp [objectAt?]
  refine ⟨?_, ?_, ?_, ?_, ?_, ?_, indexed_empty⟩
  · intro id g h
    simp [hg] at h
  · intro id g h
    simp [hg] at h
  · intro id o p h
    simp [ho] at h
  · intro id o p g h
    simp [ho] at h
  · intro id g h
    simp [hg] at h
  · intro id o p h
    simp [ho] at h

/-- No slot refers to a number that was not given out. -/
theorem Sound.next_not_mem_valuesIn {s : Store} (h : s.Sound) (user : GroupId) :
    s.next ∉ s.valuesIn user := by
  intro hmem
  rw [valuesIn] at hmem
  cases hg : s.group? user with
  | none => simp [hg] at hmem
  | some g =>
    obtain ⟨v, hv, hnext⟩ : ∃ v ∈ g.values, v.group = s.next := by
      simpa [hg, Group.refs] using hmem
    obtain ⟨p, hp⟩ := h.present hg v hv
    have hlt := (h.object_lt hp).2
    rw [hnext] at hlt
    exact Nat.lt_irrefl _ hlt

theorem sound_skip {s : Store} (h : s.Sound) : s.skip.Sound where
  fits := h.fits
  present := h.present
  payloads := h.payloads
  layout := h.layout
  group_lt hg := Nat.lt_succ_of_lt (h.group_lt hg)
  object_lt ho := ⟨(h.object_lt ho).1, Nat.lt_succ_of_lt (h.object_lt ho).2⟩
  indexed := h.indexed

/-- A group may take the place of another, or a new place, when it is sound itself. -/
theorem sound_write {s : Store} (h : s.Sound) {id : GroupId} {g : Group} (hid : id < s.next)
    (fits : g.Fits) (present : ∀ v ∈ g.values, s.Has v)
    (layout : ∀ {o p}, s.objectAt? id = some (o, p) →
      (Group.ofKeys .fields o.type.keys).keys <+: g.keys) :
    (s.write id g).Sound where
  fits {i g'} hg' := by
    rw [group?_write] at hg'
    split at hg'
    · cases hg'
      exact fits
    · exact h.fits hg'
  present {i g'} hg' v hv := by
    have hhas : s.Has v := by
      rw [group?_write] at hg'
      split at hg'
      · cases hg'
        exact present v hv
      · exact h.present hg' v hv
    simpa only [Has, objectAt?_write] using hhas
  payloads ho := h.payloads (by simpa using ho)
  layout {i o p g'} ho hg' := by
    rw [objectAt?_write] at ho
    rw [group?_write] at hg'
    split at hg'
    · rename_i hi
      subst hi
      cases hg'
      exact layout ho
    · exact h.layout ho hg'
  group_lt {i g'} hg' := by
    rw [group?_write] at hg'
    split at hg'
    · rename_i hi
      subst hi
      exact hid
    · exact h.group_lt hg'
  object_lt ho := h.object_lt (by simpa using ho)
  indexed := indexed_write h.indexed id g

theorem sound_release {s : Store} (h : s.Sound) (id : GroupId) : (s.release id).Sound where
  fits hg := h.fits (group?_of_release hg)
  present hg v hv := by
    simpa only [Has, objectAt?_release] using h.present (group?_of_release hg) v hv
  payloads ho := h.payloads (by simpa using ho)
  layout ho hg := h.layout (by simpa using ho) (group?_of_release hg)
  group_lt hg := h.group_lt (group?_of_release hg)
  object_lt ho := h.object_lt (by simpa using ho)
  indexed := indexed_release h.indexed id

theorem sound_set {s s' : Store} (h : s.Sound) {id : GroupId} {key : Key}
    {value old : Option ObjectRef} (hv : ∀ v, value = some v → s.Has v)
    (hset : s.set id key value = .ok (old, s')) : s'.Sound := by
  obtain ⟨g, g', hg, hset', rfl⟩ := set_cases hset
  refine sound_write h (h.group_lt hg) (Group.fits_set (h.fits hg) hset') ?_ ?_
  · intro v hmem
    rcases Group.mem_values_set hset' hmem with hval | hmem
    · exact hv v hval
    · exact h.present hg v hmem
  · intro o p ho
    rw [Group.keys_set hset']
    exact h.layout ho hg

theorem sound_add {s s' : Store} (h : s.Sound) {id : GroupId} {key : Key}
    {value : Option ObjectRef} {added : Bool} (hv : ∀ v, value = some v → s.Has v)
    (hadd : s.add id key value = .ok (added, s')) : s'.Sound := by
  obtain ⟨g, g', hg, hadd', rfl⟩ := add_cases hadd
  refine sound_write h (h.group_lt hg) (Group.fits_add (h.fits hg) hadd') ?_ ?_
  · intro v hmem
    rcases Group.mem_values_add hadd' hmem with hval | hmem
    · exact hv v hval
    · exact h.present hg v hmem
  · intro o p ho
    exact (h.layout ho hg).trans (Group.keys_add hadd')

theorem sound_allocate {s : Store} (h : s.Sound) {g : Group} (fits : g.Fits)
    (present : ∀ v ∈ g.values, s.Has v) : (s.allocate g).2.Sound := by
  refine sound_write (sound_skip h) (Nat.lt_succ_self s.next) fits present ?_
  -- no object has the number yet, so there is no layout to respect
  intro o p ho
  exact absurd (h.object_lt ho).2 (Nat.lt_irrefl _)

theorem sound_instantiate {s : Store} (h : s.Sound) (type : ObjectType) :
    (s.instantiate type).2.Sound where
  fits {i g} hg := by
    rw [group?_instantiate] at hg
    split at hg
    · cases hg
      exact Group.fits_ofKeys _ _
    · exact h.fits hg
  present {i g} hg v hv := by
    rw [group?_instantiate] at hg
    split at hg
    · cases hg
      simp [Group.values_ofKeys] at hv
    · obtain ⟨p, hp⟩ := h.present hg v hv
      have hne : s.next ≠ v.group := Nat.ne_of_gt (h.object_lt hp).2
      exact ⟨p, by rw [objectAt?_instantiate, if_neg hne, hp]⟩
  payloads {i o p} ho := by
    rw [objectAt?_instantiate] at ho
    split at ho
    · cases ho
    · exact h.payloads ho
  layout {i o p g} ho hg := by
    rw [objectAt?_instantiate] at ho
    rw [group?_instantiate] at hg
    split at ho
    · rename_i hi
      rw [if_pos hi] at hg
      cases ho
      cases hg
      exact List.prefix_refl _
    · rename_i hi
      rw [if_neg hi] at hg
      exact h.layout ho hg
  group_lt {i g} hg := by
    change i < s.next + 1
    rw [group?_instantiate] at hg
    split at hg
    · rename_i hi
      exact hi ▸ Nat.lt_succ_self s.next
    · exact Nat.lt_succ_of_lt (h.group_lt hg)
  object_lt {i o p} ho := by
    change o.group = i ∧ i < s.next + 1
    rw [objectAt?_instantiate] at ho
    split at ho
    · rename_i hi
      cases ho
      exact ⟨hi, hi ▸ Nat.lt_succ_self s.next⟩
    · exact ⟨(h.object_lt ho).1, Nat.lt_succ_of_lt (h.object_lt ho).2⟩
  indexed := indexed_instantiate h.indexed h.next_not_mem_valuesIn type

theorem indexed_setPayload {s s' : Store} {o : ObjectRef} {value : Payload} (h : s.Indexed)
    (hset : s.setPayload o value = .ok s') : s'.Indexed := by
  rw [setPayload] at hset
  split at hset
  · cases hset
    intro user id hid
    rw [TreeMap.mem_modify] at hid
    refine Iff.trans ?_ (h user id hid)
    rw [isUser_modify]
    split
    · rfl
    · rfl
  · cases hset

/-- Whatever the payload, the object stays the same. -/
theorem has_setPayload_iff {s s' : Store} {o v : ObjectRef} {value : Payload}
    (hset : s.setPayload o value = .ok s') : s'.Has v ↔ s.Has v := by
  obtain ⟨-, -, -, hobj⟩ := setPayload_cases hset
  rw [Has, Has, hobj]
  split
  · cases s.objectAt? v.group with
    | none => simp
    | some x =>
      obtain ⟨w, p⟩ := x
      simp
  · rfl

/-- The object under a number is still the same one. -/
theorem objectAt?_of_setPayload {s s' : Store} {o w : ObjectRef} {value : Payload}
    (hset : s.setPayload o value = .ok s') {i : GroupId} {q : Option Payload}
    (hw : s'.objectAt? i = some (w, q)) : ∃ q', s.objectAt? i = some (w, q') := by
  obtain ⟨-, -, -, hobj⟩ := setPayload_cases hset
  rw [hobj] at hw
  split at hw
  · obtain ⟨⟨w', q'⟩, hx, heq⟩ := Option.map_eq_some_iff.mp hw
    cases heq
    exact ⟨q', hx⟩
  · exact ⟨q, hw⟩

theorem sound_setPayload {s s' : Store} (h : s.Sound) {o : ObjectRef} {value : Payload}
    (ho : s.Has o) (hset : s.setPayload o value = .ok s') : s'.Sound := by
  obtain ⟨hkind, hnext, hgrp, hobj⟩ := setPayload_cases hset
  obtain ⟨p, ho⟩ := ho
  refine ⟨?_, ?_, ?_, ?_, ?_, ?_, indexed_setPayload h.indexed hset⟩
  · intro id g hg
    exact h.fits (hgrp id ▸ hg)
  · intro id g hg v hv
    exact (has_setPayload_iff hset).mpr (h.present (hgrp id ▸ hg) v hv)
  · intro id w q hw
    rw [hobj] at hw
    split at hw
    · rename_i hi
      subst hi
      rw [ho] at hw
      cases hw
      exact hkind
    · exact h.payloads hw
  · intro id w q g hw hg
    obtain ⟨q', hw⟩ := objectAt?_of_setPayload hset hw
    exact h.layout hw (hgrp id ▸ hg)
  · intro id g hg
    exact hnext ▸ h.group_lt (hgrp id ▸ hg)
  · intro id w q hw
    obtain ⟨q', hw⟩ := objectAt?_of_setPayload hset hw
    exact hnext ▸ h.object_lt hw

theorem sound_discard {s : Store} (h : s.Sound) {id : GroupId}
    (unused : ∀ user, id ∉ s.valuesIn user) : (s.discard id).Sound where
  fits hg := h.fits (group?_of_release hg)
  present {i g} hg v hv := by
    have hlive := group?_of_release hg
    -- the value of a slot is referred to, so it is not the object that goes
    have hne : id ≠ v.group := by
      rintro rfl
      refine unused i ?_
      rw [valuesIn, hlive]
      exact Group.mem_refs_of_mem_values hv
    obtain ⟨p, hp⟩ := h.present hlive v hv
    exact ⟨p, by rw [objectAt?_discard, if_neg hne, hp]⟩
  payloads ho := h.payloads (objectAt?_of_discard ho)
  layout ho hg := h.layout (objectAt?_of_discard ho) (group?_of_release hg)
  group_lt hg := h.group_lt (group?_of_release hg)
  object_lt ho := h.object_lt (objectAt?_of_discard ho)
  indexed := indexed_discard h.indexed id

/-! ### What becomes of a store -/

/-- What a run may make of a store `s`: a sound store in which a number given out before
means nothing new, whose objects have their groups if those of `s` had, and which still has
the objects among those `kept`. -/
structure Evolves (kept : GroupId → Prop) (s s' : Store) : Prop where
  sound : s'.Sound
  housed : s.Housed → s'.Housed
  next_le : s.next ≤ s'.next
  object_old : ∀ {id o p'}, id < s.next → s'.objectAt? id = some (o, p') →
    ∃ p, s.objectAt? id = some (o, p)
  group_old : ∀ {id g'}, id < s.next → s'.group? id = some g' → ∃ g, s.group? id = some g
  keeps : ∀ {o : ObjectRef}, kept o.group → s.Has o → s'.Has o

theorem Evolves.refl {kept : GroupId → Prop} {s : Store} (h : s.Sound) : s.Evolves kept s where
  sound := h
  housed := id
  next_le := Nat.le_refl _
  object_old _ ho := ⟨_, ho⟩
  group_old _ hg := ⟨_, hg⟩
  keeps _ ho := ho

theorem Evolves.trans {kept : GroupId → Prop} {s s' s'' : Store} (h : s.Evolves kept s')
    (h' : s'.Evolves kept s'') : s.Evolves kept s'' where
  sound := h'.sound
  housed hh := h'.housed (h.housed hh)
  next_le := Nat.le_trans h.next_le h'.next_le
  object_old hid ho := by
    obtain ⟨p, hp⟩ := h'.object_old (Nat.lt_of_lt_of_le hid h.next_le) ho
    exact h.object_old hid hp
  group_old hid hg := by
    obtain ⟨g, hg⟩ := h'.group_old (Nat.lt_of_lt_of_le hid h.next_le) hg
    exact h.group_old hid hg
  keeps hk ho := h'.keeps hk (h.keeps hk ho)

/-- Less may be asked to be kept. -/
theorem Evolves.mono {kept kept' : GroupId → Prop} {s s' : Store} (h : s.Evolves kept' s')
    (hk : ∀ id, kept id → kept' id) : s.Evolves kept s' :=
  { h with keeps := fun hid ho => h.keeps (hk _ hid) ho }

variable {kept : GroupId → Prop}

theorem evolves_skip {s : Store} (h : s.Sound) : s.Evolves kept s.skip where
  sound := sound_skip h
  housed := id
  next_le := Nat.le_succ _
  object_old _ ho := ⟨_, ho⟩
  group_old _ hg := ⟨_, hg⟩
  keeps _ ho := ho

/-- Putting another group under the number of a live one changes no object. -/
theorem evolves_write {s : Store} {id : GroupId} {g₀ g : Group}
    (hg₀ : s.group? id = some g₀) (hs : (s.write id g).Sound) : s.Evolves kept (s.write id g) where
  sound := hs
  housed hh {i o p} ho := by
    rw [objectAt?_write] at ho
    rw [group?_write]
    split
    · exact ⟨g, rfl⟩
    · exact hh ho
  next_le := Nat.le_refl _
  object_old _ ho := ⟨_, by simpa using ho⟩
  group_old {i g'} _ hg := by
    rw [group?_write] at hg
    split at hg
    · rename_i hi
      exact ⟨g₀, hi ▸ hg₀⟩
    · exact ⟨g', hg⟩
  keeps _ ho := by simpa only [Has, objectAt?_write] using ho

theorem evolves_set {s s' : Store} (h : s.Sound) {id : GroupId} {key : Key}
    {value old : Option ObjectRef} (hv : ∀ v, value = some v → s.Has v)
    (hset : s.set id key value = .ok (old, s')) : s.Evolves kept s' := by
  have hs := sound_set h hv hset
  obtain ⟨g, g', hg, -, rfl⟩ := set_cases hset
  exact evolves_write hg hs

theorem evolves_add {s s' : Store} (h : s.Sound) {id : GroupId} {key : Key}
    {value : Option ObjectRef} {added : Bool} (hv : ∀ v, value = some v → s.Has v)
    (hadd : s.add id key value = .ok (added, s')) : s.Evolves kept s' := by
  have hs := sound_add h hv hadd
  obtain ⟨g, g', hg, -, rfl⟩ := add_cases hadd
  exact evolves_write hg hs

theorem evolves_allocate {s : Store} (h : s.Sound) {g : Group} (fits : g.Fits)
    (present : ∀ v ∈ g.values, s.Has v) : s.Evolves kept (s.allocate g).2 where
  sound := sound_allocate h fits present
  housed hh {i o p} ho := by
    rw [allocate, objectAt?_write] at ho
    rw [allocate, group?_write]
    split
    · exact ⟨g, rfl⟩
    · exact hh ho
  next_le := Nat.le_succ _
  object_old _ ho := ⟨_, by rwa [allocate, objectAt?_write] at ho⟩
  group_old {i g'} hid hg := by
    rw [allocate, group?_write, if_neg (Nat.ne_of_gt hid)] at hg
    exact ⟨g', hg⟩
  keeps _ ho := by
    simp only [Has, allocate, objectAt?_write]
    exact ho

theorem has_instantiate {s : Store} (type : ObjectType) :
    (s.instantiate type).2.Has (s.instantiate type).1 := by
  refine ⟨none, ?_⟩
  change (s.instantiate type).2.objectAt? s.next = some (⟨type, s.next⟩, none)
  rw [objectAt?_instantiate, if_pos rfl]

theorem evolves_instantiate {s : Store} (h : s.Sound) (type : ObjectType) :
    s.Evolves kept (s.instantiate type).2 where
  sound := sound_instantiate h type
  housed hh {i o p} ho := by
    rw [objectAt?_instantiate] at ho
    rw [group?_instantiate]
    split
    · exact ⟨_, rfl⟩
    · rename_i hi
      rw [if_neg hi] at ho
      exact hh ho
  next_le := Nat.le_succ _
  object_old {i o p} hid ho := by
    rw [objectAt?_instantiate, if_neg (Nat.ne_of_gt hid)] at ho
    exact ⟨p, ho⟩
  group_old {i g} hid hg := by
    rw [group?_instantiate, if_neg (Nat.ne_of_gt hid)] at hg
    exact ⟨g, hg⟩
  keeps {o} _ ho := by
    obtain ⟨p, ho⟩ := ho
    exact ⟨p, by rw [objectAt?_instantiate, if_neg (Nat.ne_of_gt (h.object_lt ho).2), ho]⟩

theorem evolves_setPayload {s s' : Store} (h : s.Sound) {o : ObjectRef}
    {value : Payload} (ho : s.Has o) (hset : s.setPayload o value = .ok s') :
    s.Evolves kept s' := by
  have hs := sound_setPayload h ho hset
  obtain ⟨-, hnext, hgrp, -⟩ := setPayload_cases hset
  refine ⟨hs, ?_, Nat.le_of_eq hnext.symm, fun _ hw => objectAt?_of_setPayload hset hw, ?_, ?_⟩
  · intro hh i w q hw
    obtain ⟨q', hw⟩ := objectAt?_of_setPayload hset hw
    obtain ⟨g, hg⟩ := hh hw
    exact ⟨g, (hgrp i).trans hg⟩
  · intro i g _ hg
    exact ⟨g, hgrp i ▸ hg⟩
  · intro w _ hw
    exact (has_setPayload_iff hset).mpr hw

/-- A group that is not that of an object may go. -/
theorem evolves_release {s : Store} (h : s.Sound) {id : GroupId}
    (hid : s.objectAt? id = none) : s.Evolves kept (s.release id) where
  sound := sound_release h id
  housed hh {i o p} ho := by
    rw [objectAt?_release] at ho
    -- an object keeps its group because the one that goes belongs to no object
    have hne : id ≠ i := by
      rintro rfl
      simp [hid] at ho
    rw [group?_release, if_neg hne]
    exact hh ho
  next_le := Nat.le_refl _
  object_old _ ho := ⟨_, by simpa using ho⟩
  group_old _ hg := ⟨_, group?_of_release hg⟩
  keeps _ ho := by simpa only [Has, objectAt?_release] using ho

theorem housed_discard {s : Store} (hh : s.Housed) (id : GroupId) : (s.discard id).Housed := by
  intro i o p ho
  rw [objectAt?_discard] at ho
  rw [group?_discard]
  split
  · rename_i hi
    rw [if_pos hi] at ho
    cases ho
  · rename_i hi
    rw [if_neg hi] at ho
    exact hh ho

/-- An object that nothing refers to may go, unless it is to be kept. -/
theorem evolves_discard {s : Store} (h : s.Sound) {id : GroupId}
    (unused : ∀ user, id ∉ s.valuesIn user) (hid : ¬ kept id) : s.Evolves kept (s.discard id) where
  sound := sound_discard h unused
  housed hh := housed_discard hh id
  next_le := Nat.le_refl _
  object_old _ ho := ⟨_, objectAt?_of_discard ho⟩
  group_old _ hg := ⟨_, group?_of_release hg⟩
  keeps {o} hk ho := by
    obtain ⟨p, ho⟩ := ho
    have hne : id ≠ o.group := by
      rintro rfl
      exact hid hk
    exact ⟨p, by rw [objectAt?_discard, if_neg hne, ho]⟩

/-- What holds before letting go, and after each object that goes because nothing refers to
it, holds at the end. -/
theorem letGoUpTo_induct {held : Held} {P : Store → Prop}
    (step : ∀ s id, P s → id ∈ s.objects → s.isReferenced held id = false → P (s.discard id))
    (n : Nat) (dropped : List GroupId) {s : Store} (h : P s) : P (letGoUpTo held n dropped s) := by
  induction n generalizing dropped s with
  | zero => exact h
  | succ n ih =>
    rw [letGoUpTo]
    split
    · exact h
    · rename_i id rest heq
      -- what is passed over is referred to or gone already; the first that is neither goes
      have first := List.head?_dropWhile_not
        (fun id => s.isReferenced held id || !s.objects.contains id) dropped
      simp only [heq, List.head?_cons, Bool.or_eq_false_iff, Bool.not_eq_false'] at first
      exact ih _ (step s id h (TreeMap.mem_iff_contains.mpr first.2) first.1)

/-- Letting go leaves a sound store with everything that is held. -/
theorem evolves_letGo {s : Store} (h : s.Sound) (held : Held) (dropped : List GroupId) :
    s.Evolves (· ∈ held) (s.letGo held dropped) := by
  refine letGoUpTo_induct ?_ _ dropped (.refl h)
  intro t id ht hmem hno
  -- the users that the store keeps count of are all there are
  have hiff : t.isReferenced held id = true ↔ id ∈ held ∨ ∃ user, id ∈ t.valuesIn user :=
    isReferenced_iff ht.sound.indexed hmem
  rw [hno] at hiff
  have hout : ¬(id ∈ held ∨ ∃ user, id ∈ t.valuesIn user) := fun hc =>
    Bool.false_ne_true (hiff.mpr hc)
  exact ht.trans (evolves_discard ht.sound (fun user hu => hout (.inr ⟨user, hu⟩))
    fun hheld => hout (.inl hheld))

theorem group?_letGo {s : Store} {held : Held} {dropped : List GroupId} {id : GroupId}
    {g : Group} (h : (s.letGo held dropped).group? id = some g) : s.group? id = some g := by
  refine letGoUpTo_induct (P := fun t => t.group? id = some g → s.group? id = some g) ?_ _
    dropped (fun hg => hg) h
  intro t other ih _ _ hg
  exact ih (group?_of_release hg)

/-! ### Many groups at once -/

theorem evolves_releaseAll {s : Store} (h : s.Sound) {ids : List GroupId}
    (hids : ∀ id ∈ ids, s.objectAt? id = none) : s.Evolves kept (ids.foldl release s) := by
  induction ids generalizing s with
  | nil => exact .refl h
  | cons id ids ih =>
    have hrel : s.Evolves kept (s.release id) := evolves_release h (hids id List.mem_cons_self)
    refine hrel.trans (ih hrel.sound ?_)
    intro other hother
    rw [objectAt?_release]
    exact hids other (List.mem_cons_of_mem id hother)

/-- Removing the groups that nobody owns spares those of objects. -/
theorem evolves_retain {s : Store} (h : s.Sound) (owned : List GroupId) :
    s.Evolves kept (s.retain owned) := by
  refine evolves_releaseAll h ?_
  intro id hid
  have hno : id ∉ s.objects := by
    have := (List.mem_filter.mp hid).2
    simp only [Bool.not_eq_true', Bool.or_eq_false_iff] at this
    intro hmem
    simp [TreeMap.mem_iff_contains.mp hmem] at this
  cases ho : s.objectAt? id with
  | none => rfl
  | some x => exact absurd (mem_objects_iff.mpr ⟨x.1, x.2, ho⟩) hno

theorem sound_releaseAll {s : Store} (h : s.Sound) (ids : List GroupId) :
    (ids.foldl release s).Sound := by
  induction ids generalizing s with
  | nil => exact h
  | cons id ids ih => exact ih (sound_release h id)

theorem objectAt?_releaseAll (s : Store) (ids : List GroupId) (i : GroupId) :
    (ids.foldl release s).objectAt? i = s.objectAt? i := by
  induction ids generalizing s with
  | nil => rfl
  | cons id ids ih => exact (ih _).trans (objectAt?_release s id i)

theorem group?_releaseAll (s : Store) (ids : List GroupId) (i : GroupId) :
    (ids.foldl release s).group? i = if i ∈ ids then none else s.group? i := by
  induction ids generalizing s with
  | nil => simp
  | cons id ids ih =>
    rw [List.foldl_cons, ih, group?_release]
    by_cases hi : i ∈ ids
    · simp [hi]
    · by_cases he : id = i
      · simp [he]
      · have hne : i ≠ id := fun h => he h.symm
        simp [hi, he, hne]

/-- Without its groups a store is still sound, and has the same objects. -/
theorem sound_clear {s : Store} (h : s.Sound) : s.clear.Sound :=
  sound_releaseAll h _

theorem has_clear_iff {s : Store} {o : ObjectRef} : s.clear.Has o ↔ s.Has o := by
  rw [Has, Has, clear, objectAt?_releaseAll]

theorem group?_clear (s : Store) (i : GroupId) : s.clear.group? i = none := by
  rw [clear, group?_releaseAll]
  split
  · rfl
  · rename_i hi
    rw [TreeMap.mem_keys] at hi
    exact TreeMap.getElem?_eq_none hi

end Store

end Steward
