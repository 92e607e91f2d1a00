/-
Indexed groups, compared with the groups of a store.

An indexed group keeps every name twice, in its slots and in its index.  It works as long as both
say the same (`IndexedGroup.InStep`): then no slot is taken from beyond the end, and every
operation does what the operation of that name does to the group without its index.

* **`InStep.index_eq_some_iff`** — what the index says of a name, said of the slots;
* **`InStep.replace`**, **`InStep.tryAdd`** — who has which value afterwards, and what has become of
  the group;
* **`InStep.after`** — one request keeps slots and index in step, and **`InStep.afterAll`** any
  number of them;
* **`representation_invariant`** — so it is with every group that is made for keys and asked for
  whatever, and every group of a session is one of those.
-/
import Steward.Memory.IndexedGroup
import Steward.Proofs.FirstWins
import Steward.Proofs.LiveLinks

namespace Steward

open Std (TreeMap)

/-! ### Requests to groups -/

namespace Group

/-- **A request leaves the keys where they are.** -/
theorem keys_after (g : Group) (r : Request) : g.keys <+: (g.after r).keys := by
  cases r with
  | add key value | tryAdd key value =>
    change g.keys <+: (g.taking (g.add key value)).keys
    rcases hadd : g.add key value with e | ⟨added, g'⟩
    · exact List.prefix_refl _
    · exact keys_add hadd
  | set key value | replace key value =>
    change g.keys <+: (g.taking (g.set key value)).keys
    rcases hset : g.set key value with e | ⟨old, g'⟩
    · exact List.prefix_refl _
    · exact (keys_set hset).symm ▸ List.prefix_refl g.keys

theorem keys_afterAll (g : Group) (rs : List Request) : g.keys <+: (rs.foldl after g).keys := by
  induction rs generalizing g with
  | nil => exact List.prefix_refl _
  | cons r rs ih => exact (g.keys_after r).trans (ih _)

end Group

namespace IndexedGroup

variable {x : IndexedGroup} {key : Key} {value : Option ObjectRef}

/-- Whether the index says of every name where its slot stands, and no name stands twice. -/
structure InStep (x : IndexedGroup) : Prop where
  index : ∀ name, x.index[name]? = x.toGroup.index? name
  distinct : x.toGroup.Distinct

theorem slotAt_eq {i : Nat} {slot : Slot} (h : x.toGroup.slots[i]? = some slot) :
    x.slotAt i = .ok slot := by
  have hslot : x.slots[i]? = some slot := by rwa [← Array.getElem?_toList]
  rw [slotAt, hslot]

theorem slotAt_of_index? {name : String} {i : Nat} (h : x.toGroup.index? name = some i) :
    ∃ slot, x.toGroup.slots[i]? = some slot ∧ slot.key.name = name ∧ x.slotAt i = .ok slot := by
  obtain ⟨hlt, hname, -⟩ := List.findIdx?_eq_some_iff_getElem.mp h
  have hslot := List.getElem?_eq_getElem hlt
  exact ⟨_, hslot, beq_iff_eq.mp hname, slotAt_eq hslot⟩

namespace InStep

variable (h : x.InStep)

include h

/-- **The index says where each name stands.** -/
theorem index_eq_some_iff {name : String} {i : Nat} :
    x.index[name]? = some i ↔ ∃ hi : i < x.slots.size, x.slots[i].key.name = name := by
  have hslots : (∃ hi : i < x.slots.size, x.slots[i].key.name = name) ↔
      ∃ slot, x.toGroup.slots[i]? = some slot ∧ slot.key.name = name := by
    rw [toGroup, Array.getElem?_toList]
    constructor
    · rintro ⟨hi, hname⟩
      exact ⟨_, Array.getElem?_eq_getElem hi, hname⟩
    · rintro ⟨slot, hslot, hname⟩
      obtain ⟨hi, rfl⟩ := Array.getElem?_eq_some_iff.mp hslot
      exact ⟨hi, hname⟩
  rw [h.index, hslots]
  constructor
  · intro hi
    obtain ⟨slot, hslot, hname, -⟩ := slotAt_of_index? hi
    exact ⟨slot, hslot, hname⟩
  · rintro ⟨slot, hslot, hname⟩
    have hsome : (x.toGroup.index? name).isSome = true := by
      rw [Group.index?, List.findIdx?_isSome, List.any_eq_true]
      exact ⟨slot, List.mem_of_getElem? hslot, by simp [hname]⟩
    obtain ⟨j, hj⟩ := Option.isSome_iff_exists.mp hsome
    obtain ⟨other, hother, hsame, -⟩ := slotAt_of_index? hj
    rw [hj, h.distinct.index_eq hother hslot (hsame.trans hname.symm)]

/-! ### Lookups -/

theorem position?_eq (key : Key) : x.position? key = .ok (x.toGroup.position? key) := by
  rw [position?, Group.position?, h.index]
  cases hi : x.toGroup.index? key.name with
  | none => rfl
  | some i =>
    obtain ⟨slot, hslot, -, hat⟩ := slotAt_of_index? hi
    dsimp only
    rw [hat, Option.filter_some, hslot]
    rfl

theorem hasName_eq (name : String) : x.hasName name = x.toGroup.hasName name := by
  rw [hasName, TreeMap.contains_eq_isSome_getElem?, h.index]
  rfl

theorem hasKey_eq (key : Key) : x.hasKey key = .ok (x.toGroup.hasKey key) := by
  rw [hasKey, h.position?_eq]
  rfl

theorem findKey?_eq (name : String) : x.findKey? name = .ok (x.toGroup.findKey? name) := by
  rw [findKey?, Group.findKey?, h.index]
  cases hi : x.toGroup.index? name with
  | none => rfl
  | some i =>
    obtain ⟨slot, hslot, -, hat⟩ := slotAt_of_index? hi
    dsimp only
    rw [hat, Option.bind_some, hslot]
    rfl

theorem slot?_eq (key : Key) : x.slot? key = .ok (x.toGroup.slot? key) := by
  rw [slot?, Group.slot?, h.position?_eq]
  cases hi : x.toGroup.position? key with
  | none => rfl
  | some i =>
    obtain ⟨slot, hslot, -⟩ := Group.getElem?_of_position? hi
    change (x.slotAt i >>= fun s => pure (some s)) = _
    rw [slotAt_eq hslot, Option.bind_some, hslot]
    rfl

theorem get_eq (key : Key) : x.get key = .ok (x.toGroup.get key) := by
  rw [get, Group.get, h.slot?_eq]
  cases x.toGroup.slot? key <;> rfl

end InStep

/-! ### Values on their way in -/

/-- What comes of replacing a value: it changes places with that of one slot, or nothing
happens. -/
inductive Replaced (x : IndexedGroup) (key : Key) (value : Option ObjectRef) : Swap Unit → Prop
  | swapped {i : Nat} {old : Option ObjectRef} (h : x.slots[i]? = some ⟨key, old⟩) :
      Replaced x key value
        ⟨.ok (), { x with slots := x.slots.setIfInBounds i ⟨key, value⟩ }, old⟩
  | failed {e : Error} : Replaced x key value ⟨.error e, x, value⟩

/-- What comes of adding a slot: it takes the value, or nothing happens. -/
inductive Added (x : IndexedGroup) (key : Key) (value : Option ObjectRef) : Swap Bool → Prop
  | taken {index : TreeMap String Nat} :
      Added x key value ⟨.ok true, ⟨x.role, x.slots.push ⟨key, value⟩, index⟩, none⟩
  | left {r : Except Error Bool} (h : r ≠ .ok true) : Added x key value ⟨r, x, value⟩

/-- The group is the one that comes with the result, or the old one if there is none. -/
theorem Replaced.toGroup_eq {r : Swap Unit} (h : x.Replaced key value r) :
    r.group.toGroup =
      x.toGroup.taking (r.result.map fun _ => (r.left, r.group.toGroup)) := by
  cases h <;> rfl

theorem Added.toGroup_eq {r : Swap Bool} (h : x.Added key value r) :
    r.group.toGroup =
      x.toGroup.taking (r.result.map fun added => (added, r.group.toGroup)) := by
  cases h with
  | taken => rfl
  | @left result hresult => cases result <;> rfl

namespace InStep

variable (h : x.InStep)

include h

/-- **A value is replaced** as in the group without the index, and whoever does not have the one
value has the other. -/
theorem replace (key : Key) (value : Option ObjectRef) :
    ∃ r, x.replace key value = .ok r ∧ x.Replaced key value r ∧
      x.toGroup.set key value = r.result.map fun _ => (r.left, r.group.toGroup) := by
  rw [IndexedGroup.replace, Group.set, h.position?_eq]
  cases hi : x.toGroup.position? key with
  | none => exact ⟨_, rfl, .failed, rfl⟩
  | some i =>
    obtain ⟨slot, hslot, rfl⟩ := Group.getElem?_of_position? hi
    dsimp only [bind, Except.bind]
    cases slot.key.check value with
    | error e => exact ⟨_, rfl, .failed, rfl⟩
    | ok u =>
      have hat : x.slots[i]? = some slot := by rwa [← Array.getElem?_toList]
      refine ⟨_, by rw [slotAt_eq hslot]; rfl, .swapped hat, ?_⟩
      rw [hslot]
      simp [toGroup, Except.map]

/-- **A slot is added** as in the group without the index, and takes the value only if there is
one more slot afterwards. -/
theorem tryAdd (key : Key) (value : Option ObjectRef) :
    x.Added key value (x.tryAdd key value) ∧
      x.toGroup.add key value = (x.tryAdd key value).result.map fun added =>
        (added, (x.tryAdd key value).group.toGroup) := by
  rw [IndexedGroup.tryAdd, Group.add, h.hasName_eq]
  split
  · exact ⟨.left (by simp), rfl⟩
  · cases key.check value with
    | error e => exact ⟨.left (by simp), rfl⟩
    | ok u =>
      refine ⟨.taken, ?_⟩
      simp [toGroup, Except.map]

/-- Slots and index are in step as long as both have the names they had. -/
theorem congr {y : IndexedGroup} (hkeys : y.toGroup.keys = x.toGroup.keys)
    (hindex : y.index = x.index) : y.InStep where
  index name := by rw [hindex, h.index, Group.index?_eq, Group.index?_eq, hkeys]
  distinct := by
    rw [Group.Distinct, hkeys]
    exact h.distinct

/-- A slot of a new name comes at the end, and its place into the index. -/
theorem push (hname : x.toGroup.hasName key.name = false) (value : Option ObjectRef) :
    InStep ⟨x.role, x.slots.push ⟨key, value⟩, x.index.insert key.name x.slots.size⟩ where
  index name := by
    have hslots : (x.slots.push ⟨key, value⟩).toList = x.toGroup.slots ++ [⟨key, value⟩] :=
      Array.toList_push
    rw [Group.index?, toGroup, hslots, List.findIdx?_append, List.findIdx?_singleton,
      TreeMap.getElem?_insert]
    change _ = (x.toGroup.index? name).or _
    -- the new name stands at the end only, and every other one where it stood
    by_cases hkey : key.name = name
    · have hnone : x.toGroup.index? name = none := by
        rwa [Group.hasName, Option.isSome_eq_false_iff, Option.isNone_iff_eq_none, hkey] at hname
      rw [hnone, if_pos (by simp [hkey])]
      simp [hkey, toGroup]
    · simp [hkey, h.index]
  distinct := by
    rw [toGroup, Array.toList_push]
    exact h.distinct.append hname

theorem tryAdd_group (key : Key) (value : Option ObjectRef) :
    (x.tryAdd key value).group.InStep := by
  rw [IndexedGroup.tryAdd, h.hasName_eq]
  split
  · exact h
  · rename_i hname
    cases key.check value with
    | error e => exact h
    | ok u => exact h.push (Bool.not_eq_true _ ▸ hname) value

theorem replace_group {r : Swap Unit} (hr : x.replace key value = .ok r) : r.group.InStep := by
  obtain ⟨r', hr', hreplaced, hset⟩ := h.replace key value
  rw [hr, Except.ok.injEq] at hr'
  subst hr'
  cases hreplaced with
  | swapped hat => exact h.congr (Group.keys_set hset) rfl
  | failed => exact h

/-- **A request keeps slots and index in step**, and does what it does to the group without the
index. -/
theorem after (r : Group.Request) :
    ∃ y, x.after r = .ok y ∧ y.InStep ∧ y.toGroup = x.toGroup.after r := by
  cases r with
  | add key value | tryAdd key value =>
    refine ⟨(x.tryAdd key value).group, rfl, h.tryAdd_group key value, ?_⟩
    obtain ⟨hadded, hadd⟩ := h.tryAdd key value
    rw [Group.after, hadd]
    exact hadded.toGroup_eq
  | set key value =>
    obtain ⟨r, hr, hreplaced, hset⟩ := h.replace key value
    refine ⟨r.group, ?_, h.replace_group hr, ?_⟩
    · rw [IndexedGroup.after, IndexedGroup.set, hr]
      rfl
    · rw [Group.after, hset]
      exact hreplaced.toGroup_eq
  | replace key value =>
    obtain ⟨r, hr, hreplaced, hset⟩ := h.replace key value
    refine ⟨r.group, ?_, h.replace_group hr, ?_⟩
    · rw [IndexedGroup.after, hr]
      rfl
    · rw [Group.after, hset]
      exact hreplaced.toGroup_eq

theorem afterAll (rs : List Group.Request) :
    ∃ y, x.afterAll rs = .ok y ∧ y.InStep ∧ y.toGroup = rs.foldl Group.after x.toGroup := by
  induction rs generalizing x with
  | nil => exact ⟨x, rfl, h, rfl⟩
  | cons r rs ih =>
    obtain ⟨y, hy, hstep, hgroup⟩ := h.after r
    obtain ⟨z, hz, hlast, hall⟩ := ih hstep
    refine ⟨z, ?_, hlast, by rw [hall, hgroup, List.foldl_cons]⟩
    rw [IndexedGroup.afterAll, List.foldlM_cons, hy]
    exact hz

end InStep

/-- **A group that is made for keys is in step.** -/
theorem inStep_ofKeys (role : Role) (keys : List Key) :
    (ofKeys role keys).InStep ∧ (ofKeys role keys).toGroup = .ofKeys role keys := by
  have hall : ∀ x : IndexedGroup, x.InStep →
      (keys.foldl (fun g k => (g.add k none).2) x).InStep ∧
      (keys.foldl (fun g k => (g.add k none).2) x).toGroup = x.toGroup.declareAll keys := by
    induction keys with
    | nil => exact fun x hx => ⟨hx, rfl⟩
    | cons k ks ih =>
      intro x hx
      obtain ⟨hstep, hgroup⟩ := ih (x.add k none).2 (hx.tryAdd_group k none)
      refine ⟨hstep, hgroup.trans ?_⟩
      obtain ⟨y, hy, -, hafter⟩ := hx.after (.add k none)
      cases hy
      rw [hafter, Group.after, Group.add, Group.declareAll]
      split <;> rfl
  exact hall { role } ⟨fun _ => rfl, List.nodup_nil⟩

/-! ### The invariant -/

/-- Everything that holds of an indexed group as long as slots and index are in step.  That an
operation gives `.ok` says that it took no slot from beyond the end. -/
structure Works (x : IndexedGroup) : Prop where
  index (name : String) (i : Nat) :
    x.index[name]? = some i ↔ ∃ hi : i < x.slots.size, x.slots[i].key.name = name
  distinct : (x.keys.map Key.name).Nodup
  later (requests : List Group.Request) : ∃ y, x.afterAll requests = .ok y ∧ x.keys <+: y.keys
  hasName (name : String) : x.hasName name = x.toGroup.hasName name
  hasKey (key : Key) : x.hasKey key = .ok (x.toGroup.hasKey key)
  findKey? (name : String) : x.findKey? name = .ok (x.toGroup.findKey? name)
  slot? (key : Key) : x.slot? key = .ok (x.toGroup.slot? key)
  get (key : Key) : x.get key = .ok (x.toGroup.get key)
  replace (key : Key) (value : Option ObjectRef) :
    ∃ r, x.replace key value = .ok r ∧ x.Replaced key value r ∧
      x.toGroup.set key value = r.result.map fun _ => (r.left, r.group.toGroup)
  set (key : Key) (value : Option ObjectRef) :
    ∃ y, x.set key value = .ok ((x.toGroup.set key value).map Prod.fst, y) ∧
      y.toGroup = x.toGroup.after (.set key value)
  tryAdd (key : Key) (value : Option ObjectRef) :
    x.Added key value (x.tryAdd key value) ∧
      x.toGroup.add key value = (x.tryAdd key value).result.map fun added =>
        (added, (x.tryAdd key value).group.toGroup)
  add (key : Key) (value : Option ObjectRef) :
    (x.add key value).1 = (x.toGroup.add key value).map Prod.fst ∧
      (x.add key value).2.toGroup = x.toGroup.after (.add key value)

theorem InStep.works (h : x.InStep) : x.Works where
  index _ _ := h.index_eq_some_iff
  distinct := h.distinct
  later requests := by
    obtain ⟨y, hy, -, hgroup⟩ := h.afterAll requests
    refine ⟨y, hy, ?_⟩
    rw [keys, keys, hgroup]
    exact x.toGroup.keys_afterAll requests
  hasName := h.hasName_eq
  hasKey := h.hasKey_eq
  findKey? := h.findKey?_eq
  slot? := h.slot?_eq
  get := h.get_eq
  replace := h.replace
  set key value := by
    obtain ⟨⟨result, group, left⟩, hr, hreplaced, hset⟩ := h.replace key value
    refine ⟨group, ?_, ?_⟩
    · rw [IndexedGroup.set, hr, hset]
      cases result <;> rfl
    · rw [Group.after, hset]
      exact hreplaced.toGroup_eq
  tryAdd := h.tryAdd
  add key value := by
    obtain ⟨-, hadd⟩ := h.tryAdd key value
    obtain ⟨y, hy, -, hgroup⟩ := h.after (.add key value)
    cases hy
    refine ⟨?_, hgroup⟩
    rw [IndexedGroup.add, hadd]
    cases (x.tryAdd key value).result <;> rfl

end IndexedGroup

/-- Every group that was made, set and added to is made for keys and asked for something. -/
theorem Group.lasting_requested :
    Lasting fun g => ∃ role keys, ∃ requests : List Group.Request,
      requests.foldl Group.after (.ofKeys role keys) = g where
  ofKeys role keys := ⟨role, keys, [], rfl⟩
  set {g g' key value old} hset := by
    rintro ⟨role, keys, requests, rfl⟩
    refine ⟨role, keys, requests ++ [.set key value], ?_⟩
    rw [List.foldl_append, List.foldl_cons, List.foldl_nil, after, hset, taking]
  add {g g' key value added} hadd := by
    rintro ⟨role, keys, requests, rfl⟩
    refine ⟨role, keys, requests ++ [.add key value], ?_⟩
    rw [List.foldl_append, List.foldl_cons, List.foldl_nil, after, hadd, taking]

/-- **Slots and index stay in step.**  A group that is made, for no keys or for some, and asked to
add, set and replace whatever, takes no slot from beyond the end and works as it should: its index
says where each name stands, names are different, keys stay where they are, and a value that is
put in is with the caller if and only if it is not in the group.  It is what the group without the
index becomes, and every group of a session is one of those, whatever is going on. -/
theorem representation_invariant :
    (∀ (role : Role) (keys : List Key) (requests : List Group.Request),
      ∃ x, (IndexedGroup.ofKeys role keys).afterAll requests = .ok x ∧ x.Works ∧
        x.toGroup = requests.foldl Group.after (.ofKeys role keys)) ∧
    ∀ s : Session, s.Reachable → ∀ start, s.Underway start →
      ∀ m, Moment.Passes s.env ⟨start, [], s.store⟩ m →
        ∀ id g, m.store.group? id = some g → ∃ role keys, ∃ requests : List Group.Request,
          requests.foldl Group.after (.ofKeys role keys) = g := by
  constructor
  · intro role keys requests
    obtain ⟨hstep, hgroup⟩ := IndexedGroup.inStep_ofKeys role keys
    obtain ⟨x, hx, hlast, hall⟩ := hstep.afterAll requests
    exact ⟨x, hx, hlast.works, hall.trans (by rw [hgroup])⟩
  · intro s hs start _ m hm id g hg
    exact hm.every Group.lasting_requested (hs.every Group.lasting_requested) hg

namespace Drawer

def type : ObjectType :=
  ⟨0, ⟨"T"⟩, none, [], [], [], none, none⟩

def object : ObjectRef :=
  ⟨type, 7⟩

def keys : List Key :=
  [⟨"a", ⟨"T"⟩⟩, ⟨"b", ⟨"T"⟩⟩, ⟨"a", ⟨"U"⟩⟩]

/-- The first, the third and the last two fail. -/
def requests : List Group.Request := [
  .tryAdd ⟨"a", ⟨"U"⟩⟩ (some object),
  .replace ⟨"b", ⟨"T"⟩⟩ (some object),
  .tryAdd ⟨"c", ⟨"U"⟩⟩ (some object),
  .add ⟨"c", ⟨"T"⟩⟩ (some object),
  .replace ⟨"a", ⟨"U"⟩⟩ (some object),
  .set ⟨"d", ⟨"T"⟩⟩ none]

/-- A host makes a group for the keys and adds to it. -/
def steps : List Step := [
  .memory (.alloc .fields (some [("a", "T"), ("b", "T"), ("a", "U")]) "g"),
  .memory (.rawAdd (.group "g") ("c", "T") none)]

def session : Session :=
  ((Session.start {}).steps steps).2

end Drawer

open Drawer in
theorem representation_invariant_drawer :
    (∃ x, (IndexedGroup.ofKeys .fields keys).afterAll requests = .ok x ∧ x.Works ∧
      x.toGroup = ⟨.fields, [⟨⟨"a", ⟨"T"⟩⟩, none⟩, ⟨⟨"b", ⟨"T"⟩⟩, some object⟩,
        ⟨⟨"c", ⟨"T"⟩⟩, some object⟩]⟩) ∧
    ∃ g, session.store.group? 1 = some g ∧ g.keys.map Key.name = ["a", "b", "c"] ∧
      ∃ role keys, ∃ requests : List Group.Request,
        requests.foldl Group.after (.ofKeys role keys) = g := by
  obtain ⟨hgroups, hsessions⟩ := representation_invariant
  obtain ⟨x, hx, hworks, hgroup⟩ := hgroups .fields keys requests
  refine ⟨⟨x, hx, hworks, hgroup.trans rfl⟩, ?_⟩
  have hs : session.Reachable := Session.reachable_steps {} steps
  have hopen : session.isOpen = true := rfl
  obtain ⟨g, hg, hnames⟩ : ∃ g, session.store.group? 1 = some g ∧
      g.keys.map Key.name = ["a", "b", "c"] := ⟨_, rfl, by decide +kernel⟩
  exact ⟨g, hg, hnames, hsessions session hs _ (.rest hopen) _ .refl 1 g hg⟩

end Steward
