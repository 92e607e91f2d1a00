/-
Stores that are alike but for the private fields of one object.

* **`Group.mask`** — a group without the values under some keys.  What is not masked is read and
  written as if nothing were (`get_mask`, `set_mask`), and a write to what is masked does not
  show (`mask_set`);
* **`Store.Alike`** — groups live in both stores are the same under the mask.  Every operation
  that stays clear of the private fields comes to the same in both stores, and keeps them alike
  (`Alike.set`, `Alike.add`, `Alike.bind`);
* **`Store.Untouched`** — an object has its private fields as they were, under the opposite mask.

Design notes: nothing is asked of a group that is live in one of the stores alone.  So each store
may let go of what it likes (`Alike.letGo`): it makes no difference when an object goes in one
store and is kept in the other by a private field.
-/
import Steward.Proofs.Confinement
import Steward.Proofs.FirstWins

namespace Steward

/-! ### Masks -/

/-- The slot without its value, if the key is one to hide. -/
def Slot.mask (hide : Key → Bool) (x : Slot) : Slot :=
  if hide x.key then ⟨x.key, none⟩ else x

@[simp]
theorem Slot.key_mask (hide : Key → Bool) (x : Slot) : (x.mask hide).key = x.key := by
  rw [mask]
  split
  · rfl
  · rfl

theorem Slot.mask_of_shown {hide : Key → Bool} {x : Slot} (h : hide x.key = false) :
    x.mask hide = x := by
  rw [mask, if_neg (by simp [h])]

namespace Group

/-- The group without the values under the keys to hide. -/
def mask (hide : Key → Bool) (g : Group) : Group :=
  { g with slots := g.slots.map (Slot.mask hide) }

variable {g g₁ g₂ : Group} {hide : Key → Bool} {key : Key}

@[simp]
theorem keys_mask (hide : Key → Bool) (g : Group) : (g.mask hide).keys = g.keys := by
  simp [keys, mask]

theorem getElem?_mask (hide : Key → Bool) (g : Group) (i : Nat) :
    (g.mask hide).slots[i]? = (g.slots[i]?).map (Slot.mask hide) :=
  List.getElem?_map

theorem mask_of_shown (h : ∀ k, hide k = false) : g.mask hide = g := by
  have hslots : g.slots.map (Slot.mask hide) = g.slots :=
    List.map_id'' (fun x => Slot.mask_of_shown (h x.key)) g.slots
  rw [mask, hslots]

/-- A slot is found where it was found. -/
theorem position?_mask (hide : Key → Bool) (g : Group) (key : Key) :
    (g.mask hide).position? key = g.position? key := by
  have hany : ∀ i : Nat, ((g.mask hide).slots[i]?).any (fun x => x.key == key) =
      (g.slots[i]?).any fun x => x.key == key := by
    intro i
    rw [getElem?_mask, Option.any_map]
    simp
  rw [position?, position?, index?_eq, index?_eq, keys_mask]
  simp only [hany]

/-- Groups that are the same under a mask have the same slots but under hidden keys. -/
theorem getElem?_of_mask (h : g₁.mask hide = g₂.mask hide) {i : Nat} {x : Slot}
    (hx : hide x.key = false) (hi : g₁.slots[i]? = some x) : g₂.slots[i]? = some x := by
  have hmasked : (g₂.slots[i]?).map (Slot.mask hide) = some x := by
    rw [← getElem?_mask, ← h, getElem?_mask, hi, Option.map_some, Slot.mask_of_shown hx]
  obtain ⟨y, hy, hyx⟩ := Option.map_eq_some_iff.mp hmasked
  have hkey : y.key = x.key := by rw [← hyx, Slot.key_mask]
  rw [hy, ← hyx, Slot.mask_of_shown (hkey ▸ hx)]

theorem get_mask (h : hide key = false) : (g.mask hide).get key = g.get key := by
  have hslot : (g.mask hide).slot? key = g.slot? key := by
    rw [slot?, slot?, position?_mask]
    cases hi : g.position? key with
    | none => rfl
    | some i =>
      obtain ⟨x, hx, hkey⟩ := getElem?_of_position? hi
      rw [Option.bind_some, Option.bind_some, getElem?_mask, hx, Option.map_some,
        Slot.mask_of_shown (hkey ▸ h)]
  rw [get, get, hslot]

/-- A write to what is not masked is the same with and without the mask. -/
theorem set_mask (h : hide key = false) (value : Option ObjectRef) :
    (g.mask hide).set key value = (g.set key value).map fun r => (r.1, r.2.mask hide) := by
  rw [set, set, position?_mask]
  cases hi : g.position? key with
  | none => rfl
  | some i =>
    obtain ⟨x, hx, hkey⟩ := getElem?_of_position? hi
    dsimp only
    cases key.check value with
    | error e => rfl
    | ok =>
      have hold : (g.mask hide).slots[i]? = g.slots[i]? := by
        rw [getElem?_mask, hx, Option.map_some, Slot.mask_of_shown (hkey ▸ h)]
      have hnew : Slot.mask hide ⟨key, value⟩ = ⟨key, value⟩ := Slot.mask_of_shown h
      rw [hold]
      simp [mask, Except.map, List.map_set, hnew]

/-- A write to what is masked does not show. -/
theorem mask_set (h : hide key = true) {value old : Option ObjectRef} {g' : Group}
    (hset : g.set key value = .ok (old, g')) : g'.mask hide = g.mask hide := by
  obtain ⟨i, x, hx, hkey, -, -, rfl⟩ := set_cases hset
  have hmasked : Slot.mask hide ⟨key, value⟩ = Slot.mask hide x := by
    simp [Slot.mask, hkey, h]
  obtain ⟨hlt, hget⟩ := List.getElem?_eq_some_iff.mp hx
  have hsame : (g.slots.map (Slot.mask hide)).set i (Slot.mask hide x) =
      g.slots.map (Slot.mask hide) := by
    rw [← hget, ← List.getElem_map (Slot.mask hide) (h := by simpa using hlt), List.set_getElem_self]
  rw [mask, mask, List.map_set, hmasked, hsame]

end Group

/-! ### Stores that are alike -/

/-- Whether a slot under this key, in the group of this number, is a private field of `o`. -/
def ObjectRef.hides (o : ObjectRef) (id : GroupId) (key : Key) : Bool :=
  id == o.group && o.type.privateKeys.contains key

theorem ObjectRef.hides_of_ne {o : ObjectRef} {id : GroupId} (h : id ≠ o.group) (key : Key) :
    o.hides id key = false := by
  simp [hides, h]

namespace Store

/-- Whether two stores are the same but for the private fields of `o`. -/
structure SameBut (o : ObjectRef) (s₁ s₂ : Store) : Prop where
  next : s₁.next = s₂.next
  objects : ∀ id, s₁.objectAt? id = s₂.objectAt? id
  groups : ∀ id, (s₁.group? id).map (Group.mask (o.hides id)) =
    (s₂.group? id).map (Group.mask (o.hides id))

/-- Whether the groups that are live in both of two stores are the same but for the private
fields of `o`. -/
structure Alike (o : ObjectRef) (s₁ s₂ : Store) : Prop where
  next : s₁.next = s₂.next
  groups : ∀ {id g₁ g₂}, s₁.group? id = some g₁ → s₂.group? id = some g₂ →
    g₁.mask (o.hides id) = g₂.mask (o.hides id)

/-- Whether `o`, if its group is still live, has its private fields as they were. -/
def Untouched (o : ObjectRef) (s s' : Store) : Prop :=
  ∀ g', s'.group? o.group = some g' → ∃ g, s.group? o.group = some g ∧
    g'.mask (fun k => !o.hides o.group k) = g.mask (fun k => !o.hides o.group k)

variable {o : ObjectRef} {s s' s'' s₁ s₂ : Store}

theorem SameBut.alike (h : SameBut o s₁ s₂) : Alike o s₁ s₂ where
  next := h.next
  groups {id g₁ g₂} hg₁ hg₂ := by
    have hmask := h.groups id
    rwa [hg₁, hg₂, Option.map_some, Option.map_some, Option.some.injEq] at hmask

theorem SameBut.isLive (h : SameBut o s₁ s₂) {id : GroupId} (hid : s₁.isLive id = true) :
    s₂.isLive id = true := by
  obtain ⟨g, hg⟩ := isLive_iff.mp hid
  have hmask := h.groups id
  rw [hg, Option.map_some, eq_comm, Option.map_eq_some_iff] at hmask
  obtain ⟨g', hg', -⟩ := hmask
  exact isLive_iff.mpr ⟨g', hg'⟩

theorem Untouched.refl (o : ObjectRef) (s : Store) : Untouched o s s :=
  fun _ hg => ⟨_, hg, rfl⟩

theorem Untouched.trans (h : Untouched o s s') (h' : Untouched o s' s'') : Untouched o s s'' := by
  intro g'' hg''
  obtain ⟨g', hg', hmask'⟩ := h' g'' hg''
  obtain ⟨g, hg, hmask⟩ := h g' hg'
  exact ⟨g, hg, hmask'.trans hmask⟩

namespace Alike

theorem group_eq (h : Alike o s₁ s₂) {id : GroupId} (hid : id ≠ o.group)
    (live₁ : s₁.isLive id = true) (live₂ : s₂.isLive id = true) : s₁.group? id = s₂.group? id := by
  obtain ⟨g₁, hg₁⟩ := isLive_iff.mp live₁
  obtain ⟨g₂, hg₂⟩ := isLive_iff.mp live₂
  have hmask := h.groups hg₁ hg₂
  have hnone : ∀ k, o.hides id k = false := ObjectRef.hides_of_ne hid
  rw [Group.mask_of_shown hnone, Group.mask_of_shown hnone] at hmask
  rw [hg₁, hg₂, hmask]

theorem write (h : Alike o s₁ s₂) {id : GroupId} {g₁ g₂ : Group}
    (hmask : g₁.mask (o.hides id) = g₂.mask (o.hides id)) :
    Alike o (s₁.write id g₁) (s₂.write id g₂) where
  next := h.next
  groups {i x₁ x₂} hx₁ hx₂ := by
    rw [group?_write] at hx₁ hx₂
    split at hx₁
    · rename_i hi
      rw [if_pos hi] at hx₂
      cases hx₁
      cases hx₂
      exact hi ▸ hmask
    · rename_i hi
      rw [if_neg hi] at hx₂
      exact h.groups hx₁ hx₂

/-- Each store may let go of what it likes. -/
theorem letGo (h : Alike o s₁ s₂) (held : Held) (dropped : List GroupId) :
    Alike o (s₁.letGo held dropped) (s₂.letGo held dropped) where
  next := by rw [next_letGo, next_letGo, h.next]
  groups hg₁ hg₂ := h.groups (group?_letGo hg₁) (group?_letGo hg₂)

theorem instantiate (h : Alike o s₁ s₂) (type : ObjectType) :
    Alike o (s₁.instantiate type).2 (s₂.instantiate type).2 where
  next := congrArg (· + 1) h.next
  groups {id g₁ g₂} hg₁ hg₂ := by
    rw [group?_instantiate] at hg₁ hg₂
    rw [h.next] at hg₁
    split at hg₁
    · rename_i hid
      rw [if_pos hid] at hg₂
      cases hg₁
      cases hg₂
      rfl
    · rename_i hid
      rw [if_neg hid] at hg₂
      exact h.groups hg₁ hg₂

theorem bind (h : Alike o s₁ s₂) (type : ObjectType) (value : Payload) :
    (s₁.bind type value).1 = (s₂.bind type value).1 ∧
      Alike o (s₁.bind type value).2 (s₂.bind type value).2 := by
  have hmade := h.instantiate type
  have href : (s₁.instantiate type).1 = (s₂.instantiate type).1 :=
    congrArg (ObjectRef.mk type) h.next
  -- whether the payload fits is decided by the type alone
  by_cases hfits : type.accepts value.kind = true
  · have hset : ∀ s : Store, ∃ s', (s.instantiate type).2.setPayload (s.instantiate type).1 value =
        .ok s' := fun s => ⟨_, if_pos hfits⟩
    obtain ⟨t₁, ht₁⟩ := hset s₁
    obtain ⟨t₂, ht₂⟩ := hset s₂
    obtain ⟨-, hnext₁, hgroups₁, -⟩ := setPayload_cases ht₁
    obtain ⟨-, hnext₂, hgroups₂, -⟩ := setPayload_cases ht₂
    rw [Store.bind, Store.bind]
    dsimp only
    rw [ht₁, ht₂]
    refine ⟨congrArg Except.ok href, ⟨?_, ?_⟩⟩
    · rw [hnext₁, hnext₂, hmade.next]
    · intro id g₁ g₂ hg₁ hg₂
      exact hmade.groups (hgroups₁ id ▸ hg₁) (hgroups₂ id ▸ hg₂)
  · have hset : ∀ s : Store, (s.instantiate type).2.setPayload (s.instantiate type).1 value =
        .error (.binding type.name.text (type.binding.elim "no native binding" Kind.display)
          value.kind.display) := fun s => by
      have htype : (s.instantiate type).1.type = type := rfl
      rw [setPayload, htype, if_neg hfits]
      cases type.binding <;> rfl
    rw [Store.bind, Store.bind]
    dsimp only
    rw [hset s₁, hset s₂]
    exact ⟨rfl, congrArg (· + 1) h.next, h.groups⟩

end Alike

/-! ### What one operation does -/

/-- Whether two attempts come to the same, with stores in a relation to each other. -/
inductive Tied (R : Store → Store → Prop) {α : Type} :
    Except Error (α × Store) → Except Error (α × Store) → Prop where
  | ok {a : α} {s₁ s₂ : Store} (h : R s₁ s₂) : Tied R (.ok (a, s₁)) (.ok (a, s₂))
  | error (e : Error) : Tied R (.error e) (.error e)

theorem Alike.get_eq (h : Alike o s₁ s₂) {id : GroupId} {key : Key}
    (live₁ : s₁.isLive id = true) (live₂ : s₂.isLive id = true)
    (shown : o.hides id key = false) : s₁.get id key = s₂.get id key := by
  obtain ⟨g₁, hg₁⟩ := isLive_iff.mp live₁
  obtain ⟨g₂, hg₂⟩ := isLive_iff.mp live₂
  have hget : g₁.get key = g₂.get key := by
    rw [← Group.get_mask shown, h.groups hg₁ hg₂, Group.get_mask shown]
  rw [get, get, read_eq_ok_iff.mpr hg₁, read_eq_ok_iff.mpr hg₂]
  exact hget

theorem Alike.set (h : Alike o s₁ s₂) {id : GroupId} {key : Key}
    (live₁ : s₁.isLive id = true) (live₂ : s₂.isLive id = true)
    (shown : o.hides id key = false) (value : Option ObjectRef) :
    Tied (Alike o) (s₁.set id key value) (s₂.set id key value) := by
  obtain ⟨g₁, hg₁⟩ := isLive_iff.mp live₁
  obtain ⟨g₂, hg₂⟩ := isLive_iff.mp live₂
  have hset : (g₁.set key value).map (fun r => (r.1, r.2.mask (o.hides id))) =
      (g₂.set key value).map fun r => (r.1, r.2.mask (o.hides id)) := by
    rw [← Group.set_mask shown, ← Group.set_mask shown, h.groups hg₁ hg₂]
  rw [Store.set, Store.set, read_eq_ok_iff.mpr hg₁, read_eq_ok_iff.mpr hg₂]
  change Tied _ (g₁.set key value >>= fun r => pure (r.1, s₁.write id r.2))
    (g₂.set key value >>= fun r => pure (r.1, s₂.write id r.2))
  cases h₁ : g₁.set key value with
  | error e =>
    cases h₂ : g₂.set key value with
    | error e' =>
      rw [h₁, h₂] at hset
      cases hset
      exact .error _
    | ok r =>
      rw [h₁, h₂] at hset
      cases hset
  | ok r₁ =>
    cases h₂ : g₂.set key value with
    | error e =>
      rw [h₁, h₂] at hset
      cases hset
    | ok r₂ =>
      rw [h₁, h₂] at hset
      obtain ⟨hold, hmask⟩ := Prod.mk.inj (Except.ok.inj hset)
      change Tied _ (.ok (r₁.1, _)) (.ok (r₂.1, _))
      rw [hold]
      exact .ok (h.write hmask)

theorem Alike.add (h : Alike o s₁ s₂) {id : GroupId} (hid : id ≠ o.group)
    (live₁ : s₁.isLive id = true) (live₂ : s₂.isLive id = true) (key : Key)
    (value : Option ObjectRef) : Tied (Alike o) (s₁.add id key value) (s₂.add id key value) := by
  obtain ⟨g, hg⟩ := isLive_iff.mp live₁
  have hg₂ : s₂.group? id = some g := (h.group_eq hid live₁ live₂).symm.trans hg
  rw [Store.add, Store.add, read_eq_ok_iff.mpr hg, read_eq_ok_iff.mpr hg₂]
  change Tied _ (g.add key value >>= fun r => pure (r.1, s₁.write id r.2))
    (g.add key value >>= fun r => pure (r.1, s₂.write id r.2))
  cases g.add key value with
  | error e => exact .error e
  | ok r => exact .ok (h.write rfl)

theorem untouched_of_group_eq (h : s'.group? o.group = s.group? o.group) : Untouched o s s' :=
  fun _ hg => ⟨_, h ▸ hg, rfl⟩

theorem untouched_set {id : GroupId} {key : Key} {value old : Option ObjectRef}
    (shown : o.hides id key = false) (hset : s.set id key value = .ok (old, s')) :
    Untouched o s s' := by
  obtain ⟨g, g', hg, hgroup, rfl⟩ := set_cases hset
  by_cases hid : id = o.group
  · subst hid
    intro x hx
    rw [group?_write, if_pos rfl, Option.some.injEq] at hx
    subst hx
    exact ⟨g, hg, Group.mask_set (by simp [shown]) hgroup⟩
  · exact untouched_of_group_eq (by rw [group?_write, if_neg hid])

/-- A write to a private field of `o` changes nothing else. -/
theorem sameBut_set {key : Key} {value old : Option ObjectRef}
    (hidden : o.hides o.group key = true) (hset : s.set o.group key value = .ok (old, s')) :
    SameBut o s s' := by
  obtain ⟨g, g', hg, hgroup, rfl⟩ := set_cases hset
  refine ⟨rfl, fun id => (objectAt?_write ..).symm, fun id => ?_⟩
  rw [group?_write]
  split
  · rename_i hid
    subst hid
    rw [hg, Option.map_some, Option.map_some, Group.mask_set hidden hgroup]
  · rfl

theorem untouched_add {id : GroupId} {key : Key} {value : Option ObjectRef} {added : Bool}
    (hid : id ≠ o.group) (hadd : s.add id key value = .ok (added, s')) : Untouched o s s' := by
  obtain ⟨g, g', -, -, rfl⟩ := add_cases hadd
  exact untouched_of_group_eq (by rw [group?_write, if_neg hid])

/-- Binding a payload makes at most one group more and leaves the others. -/
theorem group?_bind {id : GroupId} (hid : id < s.next) (type : ObjectType) (value : Payload) :
    (s.bind type value).2.group? id = s.group? id := by
  have hmade : (s.instantiate type).2.group? id = s.group? id := by
    rw [group?_instantiate, if_neg (Nat.ne_of_gt hid)]
  dsimp only [bind]
  split
  · rename_i hset
    obtain ⟨-, -, hgroups, -⟩ := setPayload_cases hset
    exact (hgroups id).trans hmade
  · rfl

theorem untouched_letGo (o : ObjectRef) (s : Store) (held : Held) (dropped : List GroupId) :
    Untouched o s (s.letGo held dropped) :=
  fun _ hg => ⟨_, group?_letGo hg, rfl⟩

/-- Nothing but objects is let go. -/
theorem group?_letGo_of_none {id : GroupId} (h : s.objectAt? id = none) (held : Held)
    (dropped : List GroupId) : (s.letGo held dropped).group? id = s.group? id := by
  refine (letGoUpTo_induct (P := fun t => t.objectAt? id = none ∧ t.group? id = s.group? id)
    ?_ _ dropped ⟨h, rfl⟩).2
  intro t other ⟨hnone, hgroup⟩ hmem _
  have hne : other ≠ id := by
    rintro rfl
    obtain ⟨x, p, hx⟩ := mem_objects_iff.mp hmem
    rw [hnone] at hx
    cases hx
  exact ⟨by rw [objectAt?_discard, if_neg hne, hnone], by rw [group?_discard, if_neg hne, hgroup]⟩

/-- Whether a group is live and stays so whatever is let go: it is not that of an object, or it
is that of one that is held. -/
def Secured (s : Store) (held : Held) (id : GroupId) : Prop :=
  s.isLive id = true ∧ (s.objectAt? id = none ∨ id ∈ held)

theorem Secured.evolves {held : Held} {id : GroupId} (h : s.Secured held id) (hs : s.Sound)
    (hh : s.Housed) (hev : s.Evolves (· ∈ held) s')
    (stays : s.objectAt? id = none → s.isLive id = true → s'.isLive id = true) :
    s'.Secured held id := by
  obtain ⟨live, hid⟩ := h
  obtain ⟨g, hg⟩ := isLive_iff.mp live
  cases hobject : s.objectAt? id with
  | none =>
    have hspare : s.Spare id := ⟨hs.group_lt hg, hobject⟩
    exact ⟨stays hobject live, .inl (hev.spare hspare).2⟩
  | some x =>
    -- the object is held, so it is there, and with it its group
    obtain ⟨v, p⟩ := x
    have hheld : id ∈ held := hid.resolve_left (by simp [hobject])
    obtain rfl : v.group = id := (hs.object_lt hobject).1
    obtain ⟨p', hp'⟩ := hev.keeps hheld ⟨p, hobject⟩
    exact ⟨isLive_iff.mpr (hev.housed hh hp'), .inr hheld⟩

/-! ### Slots of stores that are alike -/

theorem Untouched.slotAt?_iff (h : s.Untouched o s') (live : s'.isLive o.group = true) {p : Place}
    (hp : p.group = o.group) {x : Slot} (hx : x.key ∈ o.type.privateKeys) :
    s'.slotAt? p = some x ↔ s.slotAt? p = some x := by
  obtain ⟨g', hg'⟩ := isLive_iff.mp live
  obtain ⟨g, hg, hmask⟩ := h g' hg'
  have hshown : (!o.hides o.group x.key) = false := by simp [ObjectRef.hides, hx]
  rw [slotAt?, slotAt?, hp, hg, hg', Option.bind_some, Option.bind_some]
  exact ⟨Group.getElem?_of_mask hmask hshown, Group.getElem?_of_mask hmask.symm hshown⟩

theorem Alike.slotAt?_iff (h : Alike o s₁ s₂) {p : Place} (live₁ : s₁.isLive p.group = true)
    (live₂ : s₂.isLive p.group = true) {x : Slot} (hx : o.hides p.group x.key = false) :
    s₁.slotAt? p = some x ↔ s₂.slotAt? p = some x := by
  obtain ⟨g₁, hg₁⟩ := isLive_iff.mp live₁
  obtain ⟨g₂, hg₂⟩ := isLive_iff.mp live₂
  have hmask := h.groups hg₁ hg₂
  rw [slotAt?, slotAt?, hg₁, hg₂, Option.bind_some, Option.bind_some]
  exact ⟨Group.getElem?_of_mask hmask hx, Group.getElem?_of_mask hmask.symm hx⟩

end Store

/-! ### Views -/

namespace View

variable {v : View} {s s₁ s₂ : Store}

theorem mem_of_firstWith {has : Group → Bool} {ids : List GroupId} {id : GroupId}
    (h : firstWith s has ids = .ok (some id)) : id ∈ ids := by
  induction ids with
  | nil => cases h
  | cons first ids ih =>
    rw [firstWith] at h
    split at h
    · cases h
    · split at h
      · cases h
        exact List.mem_cons_self
      · exact List.mem_cons_of_mem _ (ih h)

theorem read_congr {id : GroupId} (h : s₁.group? id = s₂.group? id) : s₁.read id = s₂.read id := by
  rw [Store.read, Store.read, h]

theorem firstWith_congr {has : Group → Bool} {ids : List GroupId}
    (h : ∀ id ∈ ids, s₁.group? id = s₂.group? id) :
    firstWith s₁ has ids = firstWith s₂ has ids := by
  induction ids with
  | nil => rfl
  | cons id ids ih =>
    rw [firstWith, firstWith, read_congr (h id List.mem_cons_self),
      ih fun i hi => h i (List.mem_cons_of_mem _ hi)]

theorem findKey?_congr (h : ∀ id ∈ v.links, s₁.group? id = s₂.group? id) (name : String) :
    v.findKey? s₁ name = v.findKey? s₂ name := by
  rw [findKey?, findKey?, firstWith_congr h]
  cases howner : firstWith s₂ (·.hasName name) v.links with
  | error e => rfl
  | ok owner =>
    cases owner with
    | none => rfl
    | some id =>
      change (s₁.read id >>= fun g => pure (g.findKey? name)) =
        s₂.read id >>= fun g => pure (g.findKey? name)
      rw [read_congr (h id (mem_of_firstWith howner))]

theorem get_congr (h : ∀ id ∈ v.links, s₁.group? id = s₂.group? id) (key : Key) :
    v.get s₁ key = v.get s₂ key := by
  rw [get, get, owner?, owner?, firstWith_congr h]
  cases howner : firstWith s₂ (·.hasKey key) v.links with
  | error e => rfl
  | ok owner =>
    cases owner with
    | none => rfl
    | some id =>
      change s₁.get id key = s₂.get id key
      rw [Store.get, Store.get, read_congr (h id (mem_of_firstWith howner))]

/-- A view sets a slot of one of its groups. -/
theorem set_links {s' : Store} {key : Key} {value old : Option ObjectRef}
    (h : v.set s key value = .ok (old, s')) :
    ∃ id ∈ v.links, s.set id key value = .ok (old, s') := by
  obtain ⟨owner, howner, h⟩ := bind_eq_ok_iff.mp h
  cases owner with
  | none => cases h
  | some id => exact ⟨id, mem_of_firstWith howner, h⟩

end View

end Steward
