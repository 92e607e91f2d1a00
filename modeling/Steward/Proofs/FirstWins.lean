/-
First wins: a view is one map, made of the slots of its groups in their order.

A view searches its groups in two ways, by key and by name, and each search goes from group to
group and in every group from a name to its slot.  Here both are compared with one list, that
of all slots of all groups in order, each with its place in memory (`View.entries`).

* **`firstWith_eq_ok`** — a search over the groups stops at the group of the first entry, whatever
  is searched for;
* **`find?_entries`** — where it stops, the group comes upon that very entry;
* **`filter_entries`** — a slot that is added is, wherever its group is linked, one more entry;
* **`view_firstWins`** — so whatever is done by way of a view, of any live groups in any order,
  is done to the first slot in the list.

Design notes: that the two searches agree rests on the names of a group being all different
(`Group.Distinct`).  Every group is like that from when it is made (`lasting_distinct`).
-/
import Steward.Proofs.Changes

namespace Steward

/-! ### Groups -/

namespace Group

/-- Whether the slots of a group have different names. -/
def Distinct (g : Group) : Prop :=
  (g.keys.map Key.name).Nodup

/-- A slot of a name that is not there yet may come at the end. -/
theorem Distinct.append {g : Group} (hg : g.Distinct) {key : Key} {value : Option ObjectRef}
    (hname : g.hasName key.name = false) :
    Distinct { g with slots := g.slots ++ [⟨key, value⟩] } := by
  have hnot : key.name ∉ g.keys.map Key.name := by
    rw [← hasName_iff, hname]
    exact Bool.false_ne_true
  have hkeys : (keys { g with slots := g.slots ++ [⟨key, value⟩] }).map Key.name =
      g.keys.map Key.name ++ [key.name] := by simp [keys]
  rw [Distinct, hkeys]
  exact List.Nodup.append hg (List.nodup_singleton _) (List.disjoint_singleton.mpr hnot)

theorem Distinct.declareAll {g : Group} (hg : g.Distinct) (ks : List Key) :
    (g.declareAll ks).Distinct := by
  induction ks generalizing g with
  | nil => exact hg
  | cons k ks ih =>
    rw [Group.declareAll]
    split
    · exact ih hg
    · rename_i hname
      exact ih (hg.append (Bool.not_eq_true _ ▸ hname))

/-- Names are different at all times. -/
theorem lasting_distinct : Lasting Distinct where
  ofKeys role keys := Distinct.declareAll (g := ⟨role, []⟩) List.nodup_nil keys
  set h hg := by
    rw [Distinct, keys_set h]
    exact hg
  add h hg := by
    rcases add_cases h with ⟨-, -, rfl⟩ | ⟨-, hname, -, rfl⟩
    · exact hg
    · exact hg.append hname

/-- Where names are different, one name is that of one slot. -/
theorem Distinct.index_eq {g : Group} (hg : g.Distinct) {i j : Nat} {x y : Slot}
    (hi : g.slots[i]? = some x) (hj : g.slots[j]? = some y) (hname : x.key.name = y.key.name) :
    i = j := by
  have hnames : ∀ (k : Nat) (z : Slot), g.slots[k]? = some z →
      (g.keys.map Key.name)[k]? = some z.key.name := by
    intro k z hk
    simp [keys, hk]
  have hlt : i < (g.keys.map Key.name).length :=
    (List.getElem?_eq_some_iff.mp (hnames i x hi)).1
  refine (List.getElem?_inj hlt hg).mp ?_
  rw [hnames i x hi, hnames j y hj, hname]

/-- Where names are different, looking for a name first and then at the type is looking for a
key. -/
theorem Distinct.position?_eq {g : Group} (hg : g.Distinct) (key : Key) :
    g.position? key = g.slots.findIdx? (·.key == key) := by
  ext i
  rw [position?, index?, Option.filter_eq_some_iff, List.findIdx?_eq_some_iff_getElem,
    List.findIdx?_eq_some_iff_getElem]
  constructor
  · rintro ⟨⟨hlt, hname, hfirst⟩, hkey⟩
    rw [List.getElem?_eq_getElem hlt] at hkey
    refine ⟨hlt, hkey, fun j hj hjkey => hfirst j hj ?_⟩
    simpa using congrArg Key.name (beq_iff_eq.mp hjkey)
  · rintro ⟨hlt, hkey, -⟩
    have hkey : g.slots[i].key = key := beq_iff_eq.mp hkey
    refine ⟨⟨hlt, by simp [hkey], fun j hj hjname => ?_⟩, by simp [hlt, hkey]⟩
    have hjlt : j < g.slots.length := Nat.lt_trans hj hlt
    have heq := hg.index_eq (List.getElem?_eq_getElem hjlt) (List.getElem?_eq_getElem hlt)
      (by simpa [hkey] using hjname)
    exact absurd heq (Nat.ne_of_lt hj)

end Group

/-! ### Places -/

/-- Where a slot stands in memory. -/
structure Place where
  group : GroupId
  index : Nat
  deriving DecidableEq

/-- The slot at a place. -/
def Store.slotAt? (s : Store) (p : Place) : Option Slot :=
  (s.group? p.group).bind fun g => g.slots[p.index]?

/-- The slots of a group, with their places if `id` is its number. -/
def Group.entries (g : Group) (id : GroupId) : List (Place × Slot) :=
  g.slots.mapIdx fun i x => (⟨id, i⟩, x)

/-- The slots of groups one after the other, with their places. -/
def Store.entries (s : Store) (ids : List GroupId) : List (Place × Slot) :=
  ids.flatMap fun id => ((s.group? id).map fun g => g.entries id).getD []

/-- The slots of a view: those of its groups in the order in which they are looked into. -/
def View.entries (v : View) (s : Store) : List (Place × Slot) :=
  s.entries v.links

/-- The first slot with a key. -/
def View.slot? (v : View) (s : Store) (key : Key) : Option (Place × Slot) :=
  (v.entries s).find? (·.2.key == key)

/-- The first slot with a name. -/
def View.named? (v : View) (s : Store) (name : String) : Option (Place × Slot) :=
  (v.entries s).find? (·.2.key.name == name)

theorem Group.find?_entries {g : Group} {id : GroupId} {q : Slot → Bool} {p : Place} {x : Slot} :
    (g.entries id).find? (fun e => q e.2) = some (p, x) ↔
      p.group = id ∧ g.slots.findIdx? q = some p.index ∧ g.slots[p.index]? = some x := by
  obtain ⟨group, i⟩ := p
  simp only [entries, List.find?_eq_some_iff_getElem, List.findIdx?_eq_some_iff_getElem,
    List.getElem_mapIdx, List.length_mapIdx, Bool.not_eq_true', Prod.mk.injEq, Place.mk.injEq,
    Bool.not_eq_true]
  constructor
  · rintro ⟨hx, _, hlt, ⟨⟨rfl, rfl⟩, rfl⟩, hfirst⟩
    exact ⟨rfl, ⟨hlt, hx, hfirst⟩, List.getElem?_eq_getElem hlt⟩
  · rintro ⟨rfl, ⟨hlt, hx, hfirst⟩, hslot⟩
    rw [List.getElem?_eq_getElem hlt, Option.some.injEq] at hslot
    exact ⟨hslot ▸ hx, i, hlt, ⟨⟨rfl, rfl⟩, hslot⟩, hfirst⟩

theorem Group.mem_entries {g : Group} {id : GroupId} {e : Place × Slot} :
    e ∈ g.entries id ↔ e.1.group = id ∧ g.slots[e.1.index]? = some e.2 := by
  obtain ⟨⟨group, i⟩, x⟩ := e
  simp only [entries, List.mem_mapIdx, List.getElem?_eq_some_iff, Prod.mk.injEq, Place.mk.injEq]
  constructor
  · rintro ⟨_, hlt, ⟨rfl, rfl⟩, rfl⟩
    exact ⟨rfl, hlt, rfl⟩
  · rintro ⟨rfl, hlt, rfl⟩
    exact ⟨i, hlt, ⟨rfl, rfl⟩, rfl⟩

theorem Group.keys_eq_entries (g : Group) (id : GroupId) :
    g.keys = (g.entries id).map (·.2.key) := by
  apply List.ext_getElem?
  intro i
  simp only [keys, entries, List.getElem?_map, List.getElem?_mapIdx, Option.map_map]
  rfl

namespace Store

variable {s s' : Store}

/-- What stands in the list is what stands in memory. -/
theorem mem_entries {ids : List GroupId} {e : Place × Slot} :
    e ∈ s.entries ids ↔ e.1.group ∈ ids ∧ s.slotAt? e.1 = some e.2 := by
  rw [entries, List.mem_flatMap, slotAt?]
  constructor
  · rintro ⟨id, hid, he⟩
    cases hg : s.group? id with
    | none => simp [hg] at he
    | some g =>
      rw [hg, Option.map_some, Option.getD_some, Group.mem_entries] at he
      obtain ⟨rfl, hslot⟩ := he
      exact ⟨hid, by rw [hg]; exact hslot⟩
  · rintro ⟨hid, hslot⟩
    obtain ⟨g, hg, hslot⟩ := Option.bind_eq_some_iff.mp hslot
    refine ⟨e.1.group, hid, ?_⟩
    rw [hg, Option.map_some, Option.getD_some, Group.mem_entries]
    exact ⟨rfl, hslot⟩

theorem entries_cons {id : GroupId} {ids : List GroupId} {g : Group} (hg : s.group? id = some g) :
    s.entries (id :: ids) = g.entries id ++ s.entries ids := by
  rw [entries, List.flatMap_cons, hg]
  rfl

/-- The first entry of all is the first one of its group. -/
theorem find?_entries {q : Slot → Bool} {ids : List GroupId} {p : Place} {x : Slot}
    (h : (s.entries ids).find? (fun e => q e.2) = some (p, x)) :
    ∃ g, s.group? p.group = some g ∧ g.slots.findIdx? q = some p.index ∧
      g.slots[p.index]? = some x := by
  rw [entries, List.find?_flatMap] at h
  obtain ⟨id, -, hfind⟩ := List.exists_of_findSome?_eq_some h
  cases hg : s.group? id with
  | none => simp [hg] at hfind
  | some g =>
    rw [hg, Option.map_some, Option.getD_some, Group.find?_entries] at hfind
    obtain ⟨rfl, hindex, hslot⟩ := hfind
    exact ⟨g, hg, hindex, hslot⟩

/-- Whether groups are all live. -/
def AllLive (s : Store) (ids : List GroupId) : Prop :=
  ∀ id ∈ ids, s.isLive id = true

theorem AllLive.cons {id : GroupId} {ids : List GroupId} (h : s.AllLive (id :: ids)) :
    (∃ g, s.group? id = some g) ∧ s.AllLive ids :=
  ⟨isLive_iff.mp (h id List.mem_cons_self), fun i hi => h i (List.mem_cons_of_mem _ hi)⟩

end Store

/-! ### Searches -/

namespace View

variable {s : Store} {v : View}

/-- A search that comes upon no released group stops at the group of the first entry. -/
theorem firstWith_eq_ok {has : Group → Bool} {q : Slot → Bool} {ids : List GroupId}
    {found : Option GroupId} (hhas : s.Every fun g => has g = g.slots.any q)
    (h : firstWith s has ids = .ok found) :
    found = ((s.entries ids).find? fun e => q e.2).map fun e => e.1.group := by
  induction ids with
  | nil =>
    cases h
    rfl
  | cons id ids ih =>
    cases hread : s.read id with
    | error e =>
      rw [firstWith, hread] at h
      cases h
    | ok g =>
      have hg := Store.read_eq_ok_iff.mp hread
      have hfind : ((g.entries id).find? fun e => q e.2).isSome = has g := by
        rw [hhas hg, Bool.eq_iff_iff, List.find?_isSome, List.any_eq_true]
        simp only [Group.entries, List.mem_mapIdx]
        constructor
        · rintro ⟨_, ⟨i, hlt, rfl⟩, hq⟩
          exact ⟨_, List.getElem_mem hlt, hq⟩
        · rintro ⟨x, hx, hq⟩
          obtain ⟨i, hlt, rfl⟩ := List.getElem_of_mem hx
          exact ⟨_, ⟨i, hlt, rfl⟩, hq⟩
      rw [firstWith, hread] at h
      rw [Store.entries_cons hg, List.find?_append]
      cases hfirst : (g.entries id).find? fun e => q e.2 with
      | none =>
        rw [hfirst] at hfind
        exact ih (by simpa [← hfind] using h)
      | some e =>
        obtain ⟨hgroup, -, -⟩ := Group.find?_entries.mp hfirst
        rw [hfirst] at hfind
        simpa [← hfind, hgroup, eq_comm] using h

theorem exists_firstWith {ids : List GroupId} (has : Group → Bool) (live : s.AllLive ids) :
    ∃ found, firstWith s has ids = .ok found := by
  induction ids with
  | nil => exact ⟨none, rfl⟩
  | cons id ids ih =>
    obtain ⟨⟨g, hg⟩, live⟩ := live.cons
    rw [firstWith, Store.read_eq_ok_iff.mpr hg]
    dsimp only
    split
    · exact ⟨some id, rfl⟩
    · exact ih live

/-- A search over live groups stops at the group of the first entry. -/
theorem firstWith_eq {has : Group → Bool} {q : Slot → Bool} {ids : List GroupId}
    (hhas : s.Every fun g => has g = g.slots.any q) (live : s.AllLive ids) :
    firstWith s has ids =
      .ok (((s.entries ids).find? fun e => q e.2).map fun e => e.1.group) := by
  obtain ⟨found, hfound⟩ := exists_firstWith has live
  rw [hfound, firstWith_eq_ok hhas hfound]

/-- A search that goes to the end has seen that all groups are live. -/
theorem allLive_of_firstWith {has : Group → Bool} {ids : List GroupId}
    (h : firstWith s has ids = .ok none) : s.AllLive ids := by
  induction ids with
  | nil => exact fun id hid => absurd hid List.not_mem_nil
  | cons id ids ih =>
    rw [firstWith] at h
    split at h
    · cases h
    · rename_i g hread
      split at h
      · cases h
      · intro i hi
        rcases List.mem_cons.mp hi with rfl | hi
        · exact Store.isLive_iff.mpr ⟨g, Store.read_eq_ok_iff.mp hread⟩
        · exact ih h i hi

theorem every_hasName (s : Store) (name : String) :
    s.Every fun g => g.hasName name = g.slots.any (·.key.name == name) := by
  intro id g _
  rw [Group.hasName, Group.index?, List.findIdx?_isSome]

theorem firstWith_name (live : s.AllLive v.links) (name : String) :
    firstWith s (·.hasName name) v.links = .ok ((v.named? s name).map fun e => e.1.group) :=
  firstWith_eq (every_hasName s name) live

/-- What a search for a name stops at, if it stops at all. -/
theorem firstWith_name_ok {name : String} {found : Option GroupId}
    (h : firstWith s (·.hasName name) v.links = .ok found) :
    found = (v.named? s name).map fun e => e.1.group :=
  firstWith_eq_ok (every_hasName s name) h

theorem findKey?_eq (live : s.AllLive v.links) (name : String) :
    v.findKey? s name = .ok ((v.named? s name).map fun e => e.2.key) := by
  rw [findKey?, firstWith_name live]
  cases h : v.named? s name with
  | none => rfl
  | some e =>
    obtain ⟨g, hg, hindex, hslot⟩ := Store.find?_entries (q := (·.key.name == name)) h
    have hkey : g.findKey? name = some e.2.key := by
      rw [Group.findKey?, Group.index?, hindex, Option.bind_some, hslot, Option.map_some]
    change (s.read e.1.group >>= fun g => pure (g.findKey? name)) = _
    rw [Store.read_eq_ok_iff.mpr hg, Option.map_some, ← hkey]
    rfl

theorem keysFrom_eq {ids : List GroupId} (live : s.AllLive ids) (found : List Key) :
    keysFrom s found ids = .ok (addNew found ((s.entries ids).map (·.2.key))) := by
  induction ids generalizing found with
  | nil => rfl
  | cons id ids ih =>
    obtain ⟨⟨g, hg⟩, live⟩ := live.cons
    rw [keysFrom, Store.read_eq_ok_iff.mpr hg, Store.entries_cons hg, List.map_append,
      addNew_append, ← g.keys_eq_entries id]
    exact ih live _

theorem keys_eq (live : s.AllLive v.links) :
    v.keys s = .ok (addNew [] ((v.entries s).map (·.2.key))) :=
  keysFrom_eq live []

/-- The first slot of a name is the first one of its key. -/
theorem slot?_of_named? {name : String} {p : Place} {x : Slot}
    (h : v.named? s name = some (p, x)) : v.slot? s x.key = some (p, x) := by
  rw [named?, List.find?_eq_some_iff_getElem] at h
  rw [slot?, List.find?_eq_some_iff_getElem]
  obtain ⟨hname, i, hlt, hi, hfirst⟩ := h
  refine ⟨by simp, i, hlt, hi, fun j hj => ?_⟩
  have hother := hfirst j hj
  simp only [Bool.not_eq_true', beq_eq_false_iff_ne, ne_eq, beq_iff_eq] at hother hname ⊢
  intro hkey
  exact hother (hkey ▸ hname)

section Distinct

variable (hd : s.Every Group.Distinct)

include hd

theorem owner?_eq (live : s.AllLive v.links) (key : Key) :
    v.owner? s key = .ok ((v.slot? s key).map fun e => e.1.group) := by
  refine firstWith_eq (q := (·.key == key)) ?_ live
  intro id g hg
  rw [Group.hasKey, (hd hg).position?_eq, List.findIdx?_isSome]

/-- Where a view finds a key, its group finds it at the same place. -/
theorem position?_of_slot? {key : Key} {p : Place} {x : Slot}
    (h : v.slot? s key = some (p, x)) :
    ∃ g, s.group? p.group = some g ∧ g.position? key = some p.index ∧
      g.slots[p.index]? = some x := by
  obtain ⟨g, hg, hindex, hslot⟩ := Store.find?_entries (q := (·.key == key)) h
  exact ⟨g, hg, (hd hg).position?_eq key ▸ hindex, hslot⟩

theorem hasKey_eq (live : s.AllLive v.links) (key : Key) :
    v.hasKey s key = .ok ((v.entries s).any (·.2.key == key)) := by
  have hany : (v.slot? s key).isSome = (v.entries s).any (·.2.key == key) := by
    rw [Bool.eq_iff_iff, slot?, List.find?_isSome, List.any_eq_true]
  rw [hasKey, owner?_eq hd live, ← hany]
  exact congrArg Except.ok (Option.isSome_map ..)

theorem get_eq (live : s.AllLive v.links) (key : Key) :
    v.get s key =
      ((v.slot? s key).map fun e => e.2.value).elim (.error (.missingKey key.display)) .ok := by
  rw [get, owner?_eq hd live]
  cases h : v.slot? s key with
  | none => rfl
  | some e =>
    obtain ⟨g, hg, hposition, hslot⟩ := position?_of_slot? hd h
    refine Store.get_eq_ok_iff.mpr ⟨g, hg, ?_⟩
    rw [Group.get, Group.slot?, hposition, Option.bind_some, hslot]

end Distinct

end View

/-! ### Writes -/

namespace Store

/-- Whether a store `s'` is a store `s` but for the value of the slot at one place. -/
structure SetsAt (p : Place) (value : Option ObjectRef) (s s' : Store) : Prop where
  slot : ∃ x, s.slotAt? p = some x ∧ s'.slotAt? p = some { x with value }
  other : ∀ q, q ≠ p → s'.slotAt? q = s.slotAt? q
  roles : ∀ id, (s'.group? id).map Group.role = (s.group? id).map Group.role
  objects : ∀ id, s'.objectAt? id = s.objectAt? id
  next : s'.next = s.next

/-- Whether a store `s'` is a store `s` but for one more slot at the end of one group. -/
structure AddsTo (target : GroupId) (x : Slot) (s s' : Store) : Prop where
  group : ∃ g, s.group? target = some g ∧
    s'.group? target = some { g with slots := g.slots ++ [x] }
  other : ∀ id, id ≠ target → s'.group? id = s.group? id
  objects : ∀ id, s'.objectAt? id = s.objectAt? id
  next : s'.next = s.next

variable {s s' : Store}

theorem setsAt_write {p : Place} {g : Group} {x : Slot} (hg : s.group? p.group = some g)
    (hx : g.slots[p.index]? = some x) (value : Option ObjectRef) :
    s.SetsAt p value
      (s.write p.group { g with slots := g.slots.set p.index ⟨x.key, value⟩ }) where
  slot := by
    refine ⟨x, by rw [slotAt?, hg, Option.bind_some, hx], ?_⟩
    have hlt := (List.getElem?_eq_some_iff.mp hx).1
    rw [slotAt?, group?_write, if_pos rfl, Option.bind_some, List.getElem?_set_self hlt]
  other q hq := by
    rw [slotAt?, slotAt?, group?_write]
    split
    · rename_i hgroup
      -- another slot of the same group
      have hindex : p.index ≠ q.index := by
        intro hindex
        obtain ⟨group, i⟩ := p
        exact hq (by simp_all)
      rw [← hgroup, hg, Option.bind_some, Option.bind_some, List.getElem?_set_ne hindex]
    · rfl
  roles id := by
    rw [group?_write]
    split
    · rename_i hgroup
      rw [← hgroup, hg, Option.map_some, Option.map_some]
    · rfl
  objects id := objectAt?_write ..
  next := rfl

theorem addsTo_write {target : GroupId} {g : Group} (hg : s.group? target = some g) (x : Slot) :
    s.AddsTo target x (s.write target { g with slots := g.slots ++ [x] }) where
  group := ⟨g, hg, by rw [group?_write, if_pos rfl]⟩
  other id hid := by rw [group?_write, if_neg (Ne.symm hid)]
  objects id := objectAt?_write ..
  next := rfl

namespace AddsTo

variable {target : GroupId} {x : Slot} (h : s.AddsTo target x s')

include h

theorem allLive {ids : List GroupId} (live : s.AllLive ids) : s'.AllLive ids := by
  intro id hid
  obtain ⟨g, hg⟩ := isLive_iff.mp (live id hid)
  by_cases heq : id = target
  · obtain ⟨g', -, hg'⟩ := h.group
    exact isLive_iff.mpr ⟨_, heq ▸ hg'⟩
  · exact isLive_iff.mpr ⟨g, (h.other id heq).trans hg⟩

/-- What is left of the list without the new slot is the list as it was, if no slot had its
key. -/
theorem filter_entries {ids : List GroupId}
    (new : ∀ e ∈ s.entries ids, e.2.key ≠ x.key) :
    (s'.entries ids).filter (fun e => e.2.key != x.key) = s.entries ids := by
  induction ids with
  | nil => rfl
  | cons id ids ih =>
    rw [entries, List.flatMap_cons, List.forall_mem_append] at new
    rw [entries, List.flatMap_cons, List.filter_append, entries, List.flatMap_cons]
    refine congrArg₂ (· ++ ·) ?_ (ih new.2)
    have hkept : ∀ e ∈ ((s.group? id).map fun g => g.entries id).getD [],
        (e.2.key != x.key) = true := fun e he => bne_iff_ne.mpr (new.1 e he)
    by_cases heq : id = target
    · subst heq
      obtain ⟨g, hg, hg'⟩ := h.group
      rw [hg, Option.map_some, Option.getD_some] at hkept ⊢
      rw [hg', Option.map_some, Option.getD_some, Group.entries, List.mapIdx_concat,
        List.filter_append, ← Group.entries, List.filter_eq_self.mpr hkept]
      simp
    · rw [h.other id heq]
      exact List.filter_eq_self.mpr hkept

/-- The new slot is where it was put, and every other one was there before. -/
theorem mem_entries {ids : List GroupId} (ht : target ∈ ids) :
    ∃ p, (p, x) ∈ s'.entries ids ∧
      ∀ e ∈ s'.entries ids, e = (p, x) ∨ e ∈ s.entries ids := by
  obtain ⟨g, hg, hg'⟩ := h.group
  refine ⟨⟨target, g.slots.length⟩, Store.mem_entries.mpr ⟨ht, ?_⟩, ?_⟩
  · rw [slotAt?, hg', Option.bind_some, List.getElem?_concat_length]
  · rintro ⟨⟨id, i⟩, y⟩ he
    obtain ⟨hid, hslot⟩ := Store.mem_entries.mp he
    rw [Store.mem_entries]
    by_cases heq : id = target
    · subst heq
      rw [slotAt?, hg', Option.bind_some] at hslot
      rcases Nat.lt_trichotomy i g.slots.length with hlt | rfl | hgt
      · right
        rw [List.getElem?_append_left hlt] at hslot
        exact ⟨hid, by rw [slotAt?, hg]; exact hslot⟩
      · left
        rw [List.getElem?_concat_length] at hslot
        cases hslot
        rfl
      · rw [List.getElem?_eq_none (by rw [List.length_append]; exact hgt)] at hslot
        cases hslot
    · right
      rw [slotAt?, h.other id heq] at hslot
      exact ⟨hid, hslot⟩

end AddsTo

end Store

namespace View

variable {s s' : Store} {v : View} {key : Key} {value : Option ObjectRef}

section Distinct

variable (hd : s.Every Group.Distinct) (live : s.AllLive v.links)

include hd live

/-- Setting a key sets the first slot that has it, if the value fits. -/
theorem set_eq {p : Place} {x : Slot} (h : v.slot? s key = some (p, x))
    (value : Option ObjectRef) :
    ∃ s', s.SetsAt p value s' ∧
      v.set s key value = (key.check value).map fun _ => (x.value, s') := by
  obtain ⟨g, hg, hposition, hslot⟩ := position?_of_slot? hd h
  have hkey : x.key = key := by simpa using List.find?_some h
  refine ⟨_, Store.setsAt_write hg hslot value, ?_⟩
  rw [set, owner?_eq hd live, h]
  change s.set p.group key value = _
  rw [Store.set, Store.read_eq_ok_iff.mpr hg]
  change (g.set key value >>= fun r => pure (r.1, s.write p.group r.2)) = _
  rw [Group.set, hposition]
  dsimp only
  cases key.check value with
  | error e => rfl
  | ok => rw [hslot, hkey]; rfl

theorem set_missing (h : v.slot? s key = none) :
    v.set s key value = .error (.missingKey key.display) := by
  rw [set, owner?_eq hd live, h]
  rfl

omit hd

theorem add_taken {target : GroupId} (ht : v.target = some target)
    (h : (v.named? s key.name).isSome = true) : v.add s key value = .ok (false, s) := by
  obtain ⟨e, he⟩ := Option.isSome_iff_exists.mp h
  rw [add, ht]
  dsimp only
  rw [firstWith_name live, he]
  rfl

/-- A new name comes with a new slot, at the end of the group that takes slots. -/
theorem add_eq {target : GroupId} (ht : v.target = some target)
    (h : v.named? s key.name = none) (value : Option ObjectRef) :
    ∃ s', s.AddsTo target ⟨key, value⟩ s' ∧
      v.add s key value = (key.check value).map fun _ => (true, s') := by
  have hmem : target ∈ v.links := List.mem_append_right _ (by simp [ht])
  obtain ⟨g, hg⟩ := Store.isLive_iff.mp (live target hmem)
  have hname : g.hasName key.name = false := by
    rw [Bool.eq_false_iff, ne_eq, Group.hasName_iff, g.keys_eq_entries target]
    simp only [List.mem_map, exists_exists_and_eq_and, not_exists, not_and]
    intro e he hname
    rw [Group.mem_entries] at he
    rw [named?, List.find?_eq_none] at h
    have hentry : e ∈ v.entries s := Store.mem_entries.mpr
      ⟨he.1 ▸ hmem, by rw [Store.slotAt?, he.1, hg]; exact he.2⟩
    exact h e hentry (by simp [hname])
  refine ⟨_, Store.addsTo_write hg ⟨key, value⟩, ?_⟩
  rw [add, ht]
  dsimp only
  rw [firstWith_name live, h]
  change s.add target key value = _
  rw [Store.add, Store.read_eq_ok_iff.mpr hg]
  change (g.add key value >>= fun r => pure (r.1, s.write target r.2)) = _
  rw [Group.add, if_neg (by simp [hname])]
  cases key.check value with
  | error e => rfl
  | ok => rfl

end Distinct

/-- Whether a view is, in a store, one map in which the first slot wins. -/
structure FirstWins (v : View) (s : Store) : Prop where
  hasKey : ∀ key, v.hasKey s key = .ok ((v.entries s).any (·.2.key == key))
  keys : v.keys s = .ok ((v.entries s).map (·.2.key)).eraseDups
  mem_keys : ∀ key ks, v.keys s = .ok ks → (v.hasKey s key = .ok true ↔ key ∈ ks)
  get : ∀ key, v.get s key =
    ((v.slot? s key).map fun e => e.2.value).elim (.error (.missingKey key.display)) .ok
  /-- If a slot is set, it is the first one with the key, and nothing else changes. -/
  set : ∀ key value old s', v.set s key value = .ok (old, s') →
    ∃ p, v.slot? s key = some (p, ⟨key, old⟩) ∧ s.SetsAt p value s'
  /-- A slot that is there can be set to what fits it. -/
  set_ok : ∀ key value, (v.slot? s key).isSome = true →
    (∀ o, value = some o → o.satisfies key.type = true) → ∃ r, v.set s key value = .ok r
  findKey? : ∀ name, v.findKey? s name = .ok ((v.named? s name).map fun e => e.2.key)
  /-- The key that is found for a name leads to the slot that was found. -/
  slot?_findKey? : ∀ name p x, v.named? s name = some (p, x) → v.slot? s x.key = some (p, x)
  /-- Nothing is added if and only if the name is met, and then nothing changes. -/
  add_false : ∀ target, v.target = some target → ∀ key value,
    (v.add s key value = .ok (false, s) ↔ ∃ e ∈ v.entries s, e.2.key.name = key.name) ∧
    ∀ s', v.add s key value = .ok (false, s') → s' = s
  /-- A new name is found from then on, and everything else is found as before. -/
  add_true : ∀ target, v.target = some target → ∀ key value,
    (∀ e ∈ v.entries s, e.2.key.name ≠ key.name) →
    (∀ o, value = some o → o.satisfies key.type = true) →
    ∃ s', v.add s key value = .ok (true, s') ∧ s.AddsTo target ⟨key, value⟩ s' ∧
      v.findKey? s' key.name = .ok (some key) ∧ v.get s' key = .ok value ∧
      ∃ ks ks', v.keys s = .ok ks ∧ v.keys s' = .ok ks' ∧ key ∉ ks ∧ key ∈ ks' ∧
        ks'.erase key = ks
  target_last : ∀ target, v.target = some target → v.links.getLast? = some target

section AddsTo

variable {target : GroupId} (h : s.AddsTo target ⟨key, value⟩ s') (ht : target ∈ v.links)
  (new : ∀ e ∈ v.entries s, e.2.key.name ≠ key.name)

include h ht new

/-- The first slot of a name that was added is the one that was added. -/
theorem named?_of_addsTo : ∃ p, v.named? s' key.name = some (p, ⟨key, value⟩) := by
  obtain ⟨p, hp, hother⟩ := h.mem_entries ht
  have hsome : (v.named? s' key.name).isSome = true :=
    List.find?_isSome.mpr ⟨(p, ⟨key, value⟩), hp, by simp⟩
  obtain ⟨e, he⟩ := Option.isSome_iff_exists.mp hsome
  have hname : e.2.key.name = key.name := by simpa using List.find?_some he
  refine ⟨p, he.trans (congrArg some ?_)⟩
  rcases hother e (List.mem_of_find?_eq_some he) with heq | hold
  · exact heq
  · exact absurd hname (new e hold)

theorem keys_of_addsTo (live : s.AllLive v.links) :
    ∃ ks ks', v.keys s = .ok ks ∧ v.keys s' = .ok ks' ∧ key ∉ ks ∧ key ∈ ks' ∧
      ks'.erase key = ks := by
  have hnew : ∀ e ∈ v.entries s, e.2.key ≠ key := fun e he hkey =>
    new e he (congrArg Key.name hkey)
  refine ⟨_, _, keys_eq live, keys_eq (h.allLive live), ?_, ?_, ?_⟩
  · rw [mem_addNew, not_or]
    refine ⟨List.not_mem_nil, fun hmem => ?_⟩
    obtain ⟨e, he, hkey⟩ := List.mem_map.mp hmem
    exact hnew e he hkey
  · obtain ⟨p, hp, -⟩ := h.mem_entries ht
    exact mem_addNew.mpr (.inr (List.mem_map.mpr ⟨_, hp, rfl⟩))
  · -- the target may be linked more than once, so the key need not come last
    rw [(nodup_addNew List.nodup_nil).erase_eq_filter, filter_addNew, List.filter_nil,
      List.filter_map]
    exact congrArg (fun es => addNew [] (es.map (·.2.key))) (h.filter_entries hnew)

end AddsTo

theorem isSome_named? {name : String} :
    (v.named? s name).isSome = true ↔ ∃ e ∈ v.entries s, e.2.key.name = name := by
  rw [named?, List.find?_isSome]
  simp only [beq_iff_eq]

section Distinct

variable (hd : s.Every Group.Distinct) (live : s.AllLive v.links)

include hd live

/-- If setting works, the first slot of the key was set. -/
theorem set_first {old : Option ObjectRef} (hset : v.set s key value = .ok (old, s')) :
    ∃ p, v.slot? s key = some (p, ⟨key, old⟩) ∧ s.SetsAt p value s' := by
  cases h : v.slot? s key with
  | none =>
    rw [set_missing hd live h] at hset
    cases hset
  | some e =>
    obtain ⟨p, x⟩ := e
    have hkey : x.key = key := by simpa using List.find?_some h
    obtain ⟨s₁, hsets, heq⟩ := set_eq hd live h value
    rw [hset] at heq
    cases hcheck : key.check value with
    | error e =>
      rw [hcheck] at heq
      cases heq
    | ok =>
      rw [hcheck] at heq
      cases heq
      exact ⟨p, by rw [← hkey], hsets⟩

theorem set_fitting (hsome : (v.slot? s key).isSome = true)
    (hfits : ∀ o, value = some o → o.satisfies key.type = true) :
    ∃ r, v.set s key value = .ok r := by
  obtain ⟨e, he⟩ := Option.isSome_iff_exists.mp hsome
  obtain ⟨s₁, -, heq⟩ := set_eq hd live he value
  rw [Key.check_eq_ok_iff.mpr hfits] at heq
  exact ⟨_, heq⟩

omit hd in
/-- A name is not added if and only if it is met, and then nothing changes. -/
theorem add_false_iff {target : GroupId} (ht : v.target = some target) :
    v.add s key value = .ok (false, s') ↔
      s' = s ∧ ∃ e ∈ v.entries s, e.2.key.name = key.name := by
  rw [← isSome_named?]
  cases hnamed : v.named? s key.name with
  | some e =>
    rw [add_taken live ht (by simp [hnamed])]
    simp [eq_comm]
  | none =>
    obtain ⟨s₁, -, hadd⟩ := add_eq live ht hnamed value
    rw [hadd]
    cases key.check value with
    | error e => simp [Except.map]
    | ok => simp [Except.map]

theorem add_new {target : GroupId} (ht : v.target = some target)
    (new : ∀ e ∈ v.entries s, e.2.key.name ≠ key.name)
    (hfits : ∀ o, value = some o → o.satisfies key.type = true) :
    ∃ s', v.add s key value = .ok (true, s') ∧ s.AddsTo target ⟨key, value⟩ s' ∧
      v.findKey? s' key.name = .ok (some key) ∧ v.get s' key = .ok value ∧
      ∃ ks ks', v.keys s = .ok ks ∧ v.keys s' = .ok ks' ∧ key ∉ ks ∧ key ∈ ks' ∧
        ks'.erase key = ks := by
  have hmem : target ∈ v.links := List.mem_append_right _ (by simp [ht])
  have hnamed : v.named? s key.name = none := by
    rw [← Option.not_isSome_iff_eq_none, isSome_named?]
    rintro ⟨e, he, hname⟩
    exact new e he hname
  obtain ⟨s₁, hadds, hadd⟩ := add_eq live ht hnamed value
  rw [Key.check_eq_ok_iff.mpr hfits] at hadd
  -- the names of every group are still different
  have hd₁ : s₁.Every Group.Distinct := by
    rcases add_target hadd with rfl | ⟨id, -, hadd⟩
    · exact hd
    · exact (Store.Change.add hadd).every Group.lasting_distinct hd
  have live₁ := hadds.allLive live
  obtain ⟨p, hp⟩ := named?_of_addsTo hadds hmem new
  refine ⟨s₁, hadd, hadds, ?_, ?_, keys_of_addsTo hadds hmem new live⟩
  · rw [findKey?_eq live₁, hp, Option.map_some]
  · rw [get_eq hd₁ live₁, slot?_of_named? hp]
    rfl

/-- Where the names of every group are different, every view of live groups is one map. -/
theorem firstWins_of_distinct : v.FirstWins s where
  hasKey := hasKey_eq hd live
  keys := by rw [keys_eq live, addNew_nil]
  mem_keys key ks hks := by
    rw [keys_eq live, Except.ok.injEq] at hks
    rw [hasKey_eq hd live, Except.ok.injEq, List.any_eq_true, ← hks, mem_addNew]
    simp
  get := get_eq hd live
  set _ _ _ _ := set_first hd live
  set_ok _ _ := set_fitting hd live
  findKey? := findKey?_eq live
  slot?_findKey? _ _ _ := slot?_of_named?
  add_false target ht key value := by
    refine ⟨?_, fun s' hs' => ((add_false_iff live ht).mp hs').1⟩
    rw [add_false_iff live ht]
    exact and_iff_right rfl
  add_true _ ht _ _ := add_new hd live ht
  target_last target ht := by rw [links, ht]; simp

end Distinct

end View

/-- **A view is one map in which the first slot wins.**  Take any session, any moment of any of
its runs, and any view whose groups are live then, in whatever order and however often they are
linked.  Whatever is asked or done by way of the view is asked of the first slot in the list of
all slots, or done to it. -/
theorem view_firstWins {s : Session} (hs : s.Reachable) {env : Env} {start : Task} {m : Moment}
    (hm : Moment.Passes env ⟨start, [], s.store⟩ m) (v : View)
    (live : ∀ id ∈ v.links, m.store.isLive id = true) : v.FirstWins m.store :=
  View.firstWins_of_distinct (hm.every Group.lasting_distinct (hs.every Group.lasting_distinct))
    live

/-- A host makes two groups with a name in common, under different types. -/
def overlapSteps : List Step := [
  .memory (.alloc .locals (some [("x", "Text"), ("y", "Text")]) "g"),
  .memory (.alloc .locals (some [("x", "Flag"), ("z", "Text")]) "h")]

def overlap : Session :=
  ((Session.start {}).steps overlapSteps).2

/-- The view has one of the two groups twice. -/
theorem view_firstWins_overlap :
    (View.keys ⟨[1, 2, 1], some 2⟩ overlap.store =
      .ok [⟨"x", ⟨"Text"⟩⟩, ⟨"y", ⟨"Text"⟩⟩, ⟨"x", ⟨"Flag"⟩⟩, ⟨"z", ⟨"Text"⟩⟩]) ∧
    View.FirstWins ⟨[1, 2, 1], some 2⟩ overlap.store := by
  have hnow : Moment.Passes overlap.env ⟨.done (.ok none), [], overlap.store⟩
      ⟨.done (.ok none), [], overlap.store⟩ := .refl
  refine ⟨?_, view_firstWins (Session.reachable_steps {} overlapSteps) hnow _ ?_⟩
  · decide +kernel
  · decide +kernel

end Steward
