/-
Slots: what the operations on one group do to its slots.

`Group.set` changes the value of one slot and `Group.add` puts one slot at the end;
`set_position` and `add_cases` say so once, with everything that was checked, and the rest
follows from them:

* **`Fits`** — no operation leaves a value in a slot that does not satisfy the declared
  type, whatever the group held before being irrelevant to the check;
* **`keys_set`**, **`keys_add`** — keys stay, in their order, and come at the end only;
* **`keys_ofKeys`** — a group made for keys of different names has exactly these.
-/
import Mathlib.Data.List.Nodup
import Steward.Thread

namespace Steward

/-- A result that comes in two steps comes of two results. -/
theorem bind_eq_ok_iff {x : Except ε α} {f : α → Except ε β} {b : β} :
    x >>= f = .ok b ↔ ∃ a, x = .ok a ∧ f a = .ok b := by
  cases x with
  | error e =>
    constructor
    · intro h
      cases h
    · rintro ⟨a, h, -⟩
      cases h
  | ok a =>
    constructor
    · intro h
      exact ⟨a, rfl, h⟩
    · rintro ⟨_, h, hb⟩
      cases h
      exact hb

/-- Whether the value of a slot, if it has one, satisfies the declared type. -/
def Slot.Fits (x : Slot) : Prop :=
  ∀ v, x.value = some v → v.satisfies x.key.type = true

/-- Whether every value fits its slot. -/
def Group.Fits (g : Group) : Prop :=
  ∀ x ∈ g.slots, x.Fits

theorem Key.check_eq_ok_iff {key : Key} {value : Option ObjectRef} :
    key.check value = .ok () ↔ ∀ v, value = some v → v.satisfies key.type = true := by
  cases value with
  | none => simp [check]
  | some v =>
    rw [check]
    split
    · rename_i h
      simp [h]
    · rename_i h
      simp [h]

namespace Group

theorem mem_values {g : Group} {v : ObjectRef} :
    v ∈ g.values ↔ ∃ x ∈ g.slots, x.value = some v := by
  rw [values, List.mem_filterMap]

theorem mem_refs_of_mem_values {g : Group} {v : ObjectRef} (h : v ∈ g.values) :
    v.group ∈ g.refs :=
  List.mem_map_of_mem h

/-- Where a key is found, its slot stands. -/
theorem getElem?_of_position? {g : Group} {key : Key} {i : Nat} (h : g.position? key = some i) :
    ∃ x, g.slots[i]? = some x ∧ x.key = key := by
  rw [position?, Option.filter_eq_some_iff] at h
  cases hx : g.slots[i]? with
  | none => simp [hx] at h
  | some x => exact ⟨x, rfl, by simpa [hx] using h.2⟩

/-- What setting a slot does, where, and what was checked before. -/
theorem set_position {g g' : Group} {key : Key} {value old : Option ObjectRef}
    (h : g.set key value = .ok (old, g')) :
    ∃ i x, g.position? key = some i ∧ g.slots[i]? = some x ∧ x.key = key ∧ x.value = old ∧
      (∀ v, value = some v → v.satisfies key.type = true) ∧
      g' = { g with slots := g.slots.set i ⟨key, value⟩ } := by
  rw [set] at h
  split at h
  · cases h
  · rename_i i hi
    obtain ⟨x, hx, hk⟩ := getElem?_of_position? hi
    split at h
    · cases h
    · rename_i hcheck
      cases h
      exact ⟨i, x, hi, hx, hk, by simp [hx], Key.check_eq_ok_iff.mp hcheck, rfl⟩

theorem set_cases {g g' : Group} {key : Key} {value old : Option ObjectRef}
    (h : g.set key value = .ok (old, g')) :
    ∃ i x, g.slots[i]? = some x ∧ x.key = key ∧ x.value = old ∧
      (∀ v, value = some v → v.satisfies key.type = true) ∧
      g' = { g with slots := g.slots.set i ⟨key, value⟩ } := by
  obtain ⟨i, x, -, hrest⟩ := set_position h
  exact ⟨i, x, hrest⟩

/-- What adding a slot does, and what was checked before. -/
theorem add_cases {g g' : Group} {key : Key} {value : Option ObjectRef} {added : Bool}
    (h : g.add key value = .ok (added, g')) :
    (added = false ∧ g.hasName key.name = true ∧ g' = g) ∨
    (added = true ∧ g.hasName key.name = false ∧
      (∀ v, value = some v → v.satisfies key.type = true) ∧
      g' = { g with slots := g.slots ++ [⟨key, value⟩] }) := by
  rw [add] at h
  split at h
  · rename_i hname
    cases h
    exact .inl ⟨rfl, hname, rfl⟩
  · rename_i hname
    split at h
    · cases h
    · rename_i hcheck
      cases h
      rw [Bool.not_eq_true] at hname
      exact .inr ⟨rfl, hname, Key.check_eq_ok_iff.mp hcheck, rfl⟩

/-- The slot that was set, or one that was there before. -/
theorem mem_slots_set {g g' : Group} {key : Key} {value old : Option ObjectRef}
    (h : g.set key value = .ok (old, g')) {x : Slot} (hx : x ∈ g'.slots) :
    x = ⟨key, value⟩ ∨ x ∈ g.slots := by
  obtain ⟨i, _, -, -, -, -, rfl⟩ := set_cases h
  exact (List.mem_or_eq_of_mem_set hx).symm

/-- The slot that was added, or one that was there before. -/
theorem mem_slots_add {g g' : Group} {key : Key} {value : Option ObjectRef} {added : Bool}
    (h : g.add key value = .ok (added, g')) {x : Slot} (hx : x ∈ g'.slots) :
    x = ⟨key, value⟩ ∨ x ∈ g.slots := by
  rcases add_cases h with ⟨-, -, rfl⟩ | ⟨-, -, -, rfl⟩
  · exact .inr hx
  · rcases List.mem_append.mp hx with hx | hx
    · exact .inr hx
    · exact .inl (List.mem_singleton.mp hx)

theorem fits_set {g g' : Group} {key : Key} {value old : Option ObjectRef} (hg : g.Fits)
    (h : g.set key value = .ok (old, g')) : g'.Fits := by
  intro x hx
  rcases mem_slots_set h hx with rfl | hx
  · obtain ⟨_, _, -, -, -, hfit, -⟩ := set_cases h
    exact hfit
  · exact hg x hx

theorem fits_add {g g' : Group} {key : Key} {value : Option ObjectRef} {added : Bool}
    (hg : g.Fits) (h : g.add key value = .ok (added, g')) : g'.Fits := by
  rcases add_cases h with ⟨-, -, rfl⟩ | ⟨-, -, hfit, rfl⟩
  · exact hg
  · intro x hx
    rcases List.mem_append.mp hx with hx | hx
    · exact hg x hx
    · obtain rfl := List.mem_singleton.mp hx
      exact hfit

theorem mem_values_set {g g' : Group} {key : Key} {value old : Option ObjectRef}
    (h : g.set key value = .ok (old, g')) {v : ObjectRef} (hv : v ∈ g'.values) :
    value = some v ∨ v ∈ g.values := by
  obtain ⟨x, hx, hxv⟩ := mem_values.mp hv
  rcases mem_slots_set h hx with rfl | hx
  · exact .inl hxv
  · exact .inr (mem_values.mpr ⟨x, hx, hxv⟩)

theorem mem_values_add {g g' : Group} {key : Key} {value : Option ObjectRef} {added : Bool}
    (h : g.add key value = .ok (added, g')) {v : ObjectRef} (hv : v ∈ g'.values) :
    value = some v ∨ v ∈ g.values := by
  obtain ⟨x, hx, hxv⟩ := mem_values.mp hv
  rcases mem_slots_add h hx with rfl | hx
  · exact .inl hxv
  · exact .inr (mem_values.mpr ⟨x, hx, hxv⟩)

/-- The value that a slot gives up was there. -/
theorem mem_values_of_set {g g' : Group} {key : Key} {value : Option ObjectRef} {v : ObjectRef}
    (h : g.set key value = .ok (some v, g')) : v ∈ g.values := by
  obtain ⟨i, x, hx, -, hv, -, -⟩ := set_cases h
  exact mem_values.mpr ⟨x, List.mem_of_getElem? hx, hv⟩

theorem mem_values_of_get {g : Group} {key : Key} {v : ObjectRef}
    (h : g.get key = .ok (some v)) : v ∈ g.values := by
  rw [get] at h
  split at h
  · rename_i x hx
    obtain ⟨i, -, hi⟩ := Option.bind_eq_some_iff.mp hx
    exact mem_values.mpr ⟨x, List.mem_of_getElem? hi, Except.ok.inj h⟩
  · cases h

/-! ### Keys -/

theorem keys_set {g g' : Group} {key : Key} {value old : Option ObjectRef}
    (h : g.set key value = .ok (old, g')) : g'.keys = g.keys := by
  obtain ⟨i, x, hx, hk, -, -, rfl⟩ := set_cases h
  rw [keys, keys, List.map_set]
  apply List.ext_getElem?
  intro j
  rw [List.getElem?_set]
  split
  · rename_i hij
    subst hij
    obtain ⟨hlt, rfl⟩ := List.getElem?_eq_some_iff.mp hx
    simp [hlt, hk]
  · rfl

theorem keys_add {g g' : Group} {key : Key} {value : Option ObjectRef} {added : Bool}
    (h : g.add key value = .ok (added, g')) : g.keys <+: g'.keys := by
  rcases add_cases h with ⟨-, -, rfl⟩ | ⟨-, -, -, rfl⟩
  · exact List.prefix_refl _
  · rw [keys, keys, List.map_append]
    exact List.prefix_append _ _

theorem hasName_iff {g : Group} {name : String} :
    g.hasName name = true ↔ name ∈ g.keys.map Key.name := by
  rw [hasName, index?, List.findIdx?_isSome, List.any_eq_true]
  simp [keys]

/-- Where a name is found, in terms of the keys. -/
theorem index?_eq (g : Group) (name : String) :
    g.index? name = g.keys.findIdx? (·.name == name) := by
  rw [index?, keys, List.findIdx?_map]
  rfl

/-- A key is found when it stands among the first keys and no other of these has its name;
what comes after them plays no part. -/
theorem hasKey_of_prefix {g : Group} {ks : List Key} {key : Key} (hpre : ks <+: g.keys)
    (hmem : key ∈ ks) (hn : ∀ k ∈ ks, k.name = key.name → k = key) : g.hasKey key = true := by
  obtain ⟨rest, hrest⟩ := hpre
  have hsome : (ks.findIdx? (·.name == key.name)).isSome := by
    rw [List.findIdx?_isSome, List.any_eq_true]
    exact ⟨key, hmem, by simp⟩
  obtain ⟨i, hi⟩ := Option.isSome_iff_exists.mp hsome
  obtain ⟨hlt, hname, -⟩ := List.findIdx?_eq_some_iff_getElem.mp hi
  have hkey : ks[i] = key := hn _ (List.getElem_mem hlt) (by simpa using hname)
  have hindex : g.index? key.name = some i := by
    rw [index?_eq, ← hrest, List.findIdx?_append, hi, Option.some_or]
  have hslot : (g.slots[i]?).map Slot.key = some key := by
    rw [← List.getElem?_map, ← keys, ← hrest, List.getElem?_append_left hlt,
      List.getElem?_eq_getElem hlt, hkey]
  obtain ⟨x, hx, hxkey⟩ := Option.map_eq_some_iff.mp hslot
  rw [hasKey, position?, hindex, Option.filter_some, hx]
  simp [hxkey]

/-- A key that is found can be read. -/
theorem get_of_hasKey {g : Group} {key : Key} (h : g.hasKey key = true) :
    ∃ value, g.get key = .ok value := by
  obtain ⟨i, hi⟩ := Option.isSome_iff_exists.mp h
  obtain ⟨x, hx, -⟩ := getElem?_of_position? hi
  exact ⟨x.value, by simp [get, slot?, hi, hx]⟩

/-! ### Groups made for keys -/

theorem fits_declareAll {g : Group} (hg : g.Fits) (ks : List Key) : (g.declareAll ks).Fits := by
  induction ks generalizing g with
  | nil => exact hg
  | cons k ks ih =>
    rw [declareAll]
    split
    · exact ih hg
    · refine ih fun x hx => ?_
      rcases List.mem_append.mp hx with hx | hx
      · exact hg x hx
      · obtain rfl := List.mem_singleton.mp hx
        intro v hv
        cases hv

theorem fits_ofKeys (role : Role) (ks : List Key) : (ofKeys role ks).Fits :=
  fits_declareAll (fun _ hx => absurd hx List.not_mem_nil) ks

theorem values_ofKeys (role : Role) (ks : List Key) : (ofKeys role ks).values = [] := by
  have h := refs_ofKeys role ks
  rwa [refs, List.map_eq_nil_iff] at h

theorem keys_declareAll {g : Group} {ks : List Key}
    (h : ((g.keys ++ ks).map Key.name).Nodup) : (g.declareAll ks).keys = g.keys ++ ks := by
  induction ks generalizing g with
  | nil => simp [declareAll]
  | cons k ks ih =>
    have hk : g.hasName k.name = false := by
      rw [← Bool.not_eq_true, hasName_iff]
      rw [List.map_append, List.nodup_append] at h
      exact fun hmem => h.2.2 _ hmem k.name (by simp) rfl
    have hkeys : keys { g with slots := g.slots ++ [⟨k, none⟩] } = g.keys ++ [k] := by
      simp [keys]
    rw [declareAll, if_neg (by simp [hk]), ih (by simpa [hkeys] using h), hkeys]
    simp

/-- A group made for keys of different names has exactly these. -/
theorem keys_ofKeys {role : Role} {ks : List Key} (h : (ks.map Key.name).Nodup) :
    (ofKeys role ks).keys = ks :=
  keys_declareAll (g := ⟨role, []⟩) h

end Group

/-! ### Arguments -/

/-- Setting arguments leaves a group that fits, with the same keys, whose values are
arguments. -/
theorem Thread.bindArguments_cases {args : List (Key × Option ObjectRef)} {g g' : Group}
    (hg : g.Fits) (h : bindArguments g args = .ok g') :
    g'.Fits ∧ g'.keys = g.keys ∧
      ∀ v ∈ g'.values, v ∈ g.values ∨ ∃ key, (key, some v) ∈ args := by
  induction args generalizing g with
  | nil =>
    cases h
    exact ⟨hg, rfl, fun v hv => .inl hv⟩
  | cons arg args ih =>
    obtain ⟨key, value⟩ := arg
    cases value with
    | none =>
      rw [bindArguments] at h
      obtain ⟨hfit, hkeys, hvalues⟩ := ih hg h
      refine ⟨hfit, hkeys, fun v hv => ?_⟩
      rcases hvalues v hv with hv | ⟨k, hk⟩
      · exact .inl hv
      · exact .inr ⟨k, List.mem_cons_of_mem _ hk⟩
    | some w =>
      rw [bindArguments] at h
      split at h
      · cases h
      · rename_i old between hset
        obtain ⟨hfit, hkeys, hvalues⟩ := ih (Group.fits_set hg hset) h
        refine ⟨hfit, hkeys.trans (Group.keys_set hset), fun v hv => ?_⟩
        rcases hvalues v hv with hv | ⟨k, hk⟩
        · rcases Group.mem_values_set hset hv with hw | hv
          · cases hw
            exact .inr ⟨key, List.mem_cons_self⟩
          · exact .inl hv
        · exact .inr ⟨k, List.mem_cons_of_mem _ hk⟩

end Steward
