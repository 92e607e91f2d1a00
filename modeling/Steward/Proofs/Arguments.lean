/-
Arguments: what a call finds under its parameters.

A call makes one slot for each parameter, the first of a name counting, and puts the arguments
in one after the other.  Where names are different this gives every parameter its argument.
Parameters that share a name share one slot: the first of them declares it, an argument given
later replaces one given before, and the key of a parameter that declares another type is not
found at all.

* **`Group.findKey?_ofKeys`** — of the keys of one name the first is kept;
* **`Group.get_set`** — setting a slot changes what is read under its key and nothing else;
* **`Thread.get_bindArguments`** — after arguments were put in, a slot has the last that was
  given under its key, or what it had before;
* **`arguments_reach_parameters`** — what is read from the arguments of a call under any key,
  and from it, that a parameter which shares its name with no other has its own argument.
-/
import Steward.Proofs.PrimitiveEffects

namespace Steward

namespace Group

variable {g g' : Group} {key : Key} {value old : Option ObjectRef}

/-! ### Keys found by their names -/

theorem findKey?_eq (g : Group) (name : String) :
    g.findKey? name = g.keys.find? (·.name == name) := by
  rw [findKey?, index?_eq, List.find?_eq_bind_findIdx?_getElem?]
  simp only [keys, List.getElem?_map]

/-- A key is found where it is the one of its name. -/
theorem hasKey_iff : g.hasKey key = true ↔ g.findKey? key.name = some key := by
  constructor
  · intro h
    obtain ⟨i, hi⟩ := Option.isSome_iff_exists.mp h
    obtain ⟨x, hx, hkey⟩ := getElem?_of_position? hi
    rw [findKey?, index?_of_position? hi, Option.bind_some, hx, Option.map_some, hkey]
  · intro h
    exact (hasKey_of_findKey? h).2

theorem hasName_eq (g : Group) (name : String) : g.hasName name = (g.findKey? name).isSome := by
  rw [Bool.eq_iff_iff, hasName_iff, findKey?_eq, List.find?_isSome]
  simp

/-- Keys come after those that are there, and the first of a name counts. -/
theorem findKey?_declareAll (g : Group) (ks : List Key) (name : String) :
    (g.declareAll ks).findKey? name = (g.findKey? name).or (ks.find? (·.name == name)) := by
  induction ks generalizing g with
  | nil => simp [declareAll]
  | cons k ks ih =>
    rw [declareAll]
    split
    · rename_i htaken
      rw [ih]
      by_cases hname : k.name = name
      · -- a key of this name is there already, so neither is looked for
        rw [hasName_eq, hname] at htaken
        obtain ⟨k', hk'⟩ := Option.isSome_iff_exists.mp htaken
        rw [hk', Option.some_or, Option.some_or]
      · rw [List.find?_cons_of_neg (by simpa using hname)]
    · rename_i hfree
      have hkeys : keys { g with slots := g.slots ++ [⟨k, none⟩] } = g.keys ++ [k] := by
        simp [keys]
      rw [ih, findKey?_eq, hkeys, List.find?_append, ← findKey?_eq, Option.or_assoc,
        ← List.find?_append, List.singleton_append]

theorem findKey?_ofKeys (role : Role) (ks : List Key) (name : String) :
    (ofKeys role ks).findKey? name = ks.find? (·.name == name) :=
  findKey?_declareAll ⟨role, []⟩ ks name

/-! ### Values -/

theorem get_of_not_hasKey (h : g.hasKey key = false) :
    g.get key = .error (.missingKey key.display) := by
  have hnone : g.position? key = none := by simpa [hasKey] using h
  rw [get, slot?, hnone]
  rfl

/-- A group made for keys has nothing under any of them. -/
theorem get_ofKeys (role : Role) (ks : List Key) (key : Key) :
    (ofKeys role ks).get key =
      if ks.find? (·.name == key.name) = some key then .ok none
      else .error (.missingKey key.display) := by
  rw [← findKey?_ofKeys role]
  split
  · rename_i h
    obtain ⟨value, hvalue⟩ := get_of_hasKey (hasKey_iff.mpr h)
    cases value with
    | none => exact hvalue
    | some v =>
      have hmem := mem_values_of_get hvalue
      rw [values_ofKeys] at hmem
      cases hmem
  · rename_i h
    exact get_of_not_hasKey (Bool.eq_false_iff.mpr (mt hasKey_iff.mp h))

/-- Where a key stands is a matter of the keys. -/
theorem position?_congr (h : g'.keys = g.keys) (key : Key) :
    g'.position? key = g.position? key := by
  have hkey : ∀ (g : Group) (i : Nat),
      g.slots[i]?.any (·.key == key) = g.keys[i]?.any (· == key) := by
    intro g i
    rw [keys, List.getElem?_map, Option.any_map]
  rw [position?, position?, index?_eq, index?_eq, h]
  simp only [hkey, h]

/-- Setting a slot changes what is read under its key and nothing else. -/
theorem get_set (h : g.set key value = .ok (old, g')) (k : Key) :
    g'.get k = if k = key then .ok value else g.get k := by
  have hposition := position?_congr (keys_set h) k
  obtain ⟨i, x, hi, hx, hkey, -, -, rfl⟩ := set_position h
  rw [get, slot?, hposition]
  by_cases hk : k = key
  · obtain ⟨hlt, -⟩ := List.getElem?_eq_some_iff.mp hx
    rw [if_pos hk, hk, hi, Option.bind_some, List.getElem?_set_self hlt]
  · rw [if_neg hk, get, slot?]
    cases hj : g.position? k with
    | none => rfl
    | some j =>
      obtain ⟨y, hy, hykey⟩ := getElem?_of_position? hj
      have hne : i ≠ j := by
        rintro rfl
        rw [hx] at hy
        cases hy
        exact hk (hykey.symm.trans hkey)
      rw [Option.bind_some, Option.bind_some, List.getElem?_set_ne hne]

/-- What can be set can be read. -/
theorem get_of_set (h : g.set key value = .ok (old, g')) : g.get key = .ok old := by
  obtain ⟨i, x, hi, hx, -, hold, -⟩ := set_position h
  rw [get, slot?, hi, Option.bind_some, hx]
  exact congrArg Except.ok hold

end Group

namespace Thread

/-- The last object given under a key. -/
def lastGiven (key : Key) : List (Key × Option ObjectRef) → Option ObjectRef
  | [] => none
  | (k, arg) :: args => (lastGiven key args).or (if k = key then arg else none)

/-- Arguments that were put in are read under their keys, the last one counting. -/
theorem get_bindArguments {args : List (Key × Option ObjectRef)} {g g' : Group}
    (h : bindArguments g args = .ok g') (key : Key) :
    g'.get key = (g.get key).map fun before => (lastGiven key args).or before := by
  induction args generalizing g with
  | nil =>
    cases h
    cases g'.get key with
    | error e => rfl
    | ok before => rfl
  | cons arg args ih =>
    obtain ⟨k, arg⟩ := arg
    cases arg with
    | none =>
      rw [bindArguments] at h
      rw [ih h, lastGiven, ite_self, Option.or_none]
    | some v =>
      rw [bindArguments] at h
      split at h
      · cases h
      · rename_i old between hset
        rw [ih h, Group.get_set hset, lastGiven]
        by_cases hk : key = k
        · rw [if_pos hk, if_pos hk.symm, hk, Group.get_of_set hset, Except.map, Except.map,
            Option.or_assoc, Option.some_or]
        · rw [if_neg hk, if_neg (Ne.symm hk), Option.or_none]

theorem lastGiven_eq_none {key : Key} {args : List (Key × Option ObjectRef)}
    (h : ∀ arg ∈ args, arg.1 ≠ key) : lastGiven key args = none := by
  induction args with
  | nil => rfl
  | cons arg args ih =>
    rw [lastGiven, ih fun a ha => h a (List.mem_cons_of_mem _ ha),
      if_neg (h arg List.mem_cons_self), Option.or_none]

/-- Where a key comes once, what is given under it is its argument. -/
theorem lastGiven_of_once {key : Key} {args : List (Key × Option ObjectRef)} {i : Nat}
    {arg : Option ObjectRef} (hi : args[i]? = some (key, arg))
    (once : ∀ j other, args[j]? = some (key, other) → j = i) : lastGiven key args = arg := by
  induction args generalizing i with
  | nil => cases hi
  | cons a args ih =>
    obtain ⟨k, other⟩ := a
    rw [lastGiven]
    cases i with
    | zero =>
      cases hi
      have hrest : lastGiven key args = none := by
        refine lastGiven_eq_none fun b hb hk => ?_
        obtain ⟨j, hj⟩ := List.mem_iff_getElem?.mp hb
        have := once (j + 1) b.2 (by rw [List.getElem?_cons_succ, hj, ← hk])
        cases this
      rw [hrest, if_pos rfl, Option.none_or]
    | succ i =>
      have hk : k ≠ key := by
        rintro rfl
        cases once 0 other rfl
      rw [if_neg hk, Option.or_none]
      exact ih hi fun j b hj => Nat.succ.inj (once (j + 1) b hj)

variable {s s' : Store} {script : Script} {invoker : Context} {args : List Context}
  {scope : Scope} {t : Thread}

/-- A call that was entered has its arguments in a group of its own. -/
theorem inputs_of_enter (h : Thread.enter s script invoker args scope = (.ok t, s')) :
    args.length = script.params.length ∧ ∃ g, s'.group? t.inputs = some g ∧
      bindArguments (.ofKeys .inputs script.params) (script.params.zip args) = .ok g := by
  rw [enter] at h
  split at h
  · cases h
  · rename_i hlength
    split at h
    · cases h
    · rename_i g hbind
      cases h
      refine ⟨not_not.mp hlength, g, ?_, hbind⟩
      -- the group of the variables has the number after that of the arguments
      have hne : s.next + 1 ≠ s.next := Nat.succ_ne_self _
      change ((s.skip.write s.next g).skip.write (s.next + 1) _).group? s.next = some g
      rw [Store.group?_write, if_neg hne]
      exact (Store.group?_write s.skip s.next g s.next).trans (if_pos rfl)

/-- What is read from the arguments of a call, under any key. -/
theorem get_inputs (h : Thread.enter s script invoker args scope = (.ok t, s')) (key : Key) :
    s'.get t.inputs key =
      if script.params.find? (·.name == key.name) = some key then
        .ok (lastGiven key (script.params.zip args))
      else .error (.missingKey key.display) := by
  obtain ⟨-, g, hg, hbind⟩ := inputs_of_enter h
  rw [Store.get, Store.read_eq_ok_iff.mpr hg]
  change g.get key = _
  rw [get_bindArguments hbind, Group.get_ofKeys]
  split
  · rw [Except.map, Option.or_none]
  · rfl

end Thread

/-- **Every argument reaches its parameter, if no other parameter has the name.**  What is read
under a key from the arguments of a call is the last object given under that key, if it is the
first parameter of its name; otherwise the key is not found.  So a parameter that is the only
one of its name has exactly the argument at its place, and an unset one stays unset. -/
theorem arguments_reach_parameters {s s' : Store} {script : Script} {invoker : Context}
    {args : List Context} {scope : Scope} {t : Thread}
    (h : Thread.enter s script invoker args scope = (.ok t, s')) :
    (∀ key, s'.get t.inputs key =
      if script.params.find? (·.name == key.name) = some key then
        .ok (Thread.lastGiven key (script.params.zip args))
      else .error (.missingKey key.display)) ∧
    ∀ (i : Nat) (key : Key), script.params[i]? = some key →
      (∀ (j : Nat) (other : Key), script.params[j]? = some other → other.name = key.name →
        j = i) →
      ∃ arg, args[i]? = some arg ∧ s'.get t.inputs key = .ok arg := by
  refine ⟨Thread.get_inputs h, fun i key hkey only => ?_⟩
  obtain ⟨hlt, hi⟩ := List.getElem?_eq_some_iff.mp hkey
  have hargs : i < args.length := (Thread.inputs_of_enter h).1 ▸ hlt
  have hfirst : script.params.find? (·.name == key.name) = some key := by
    refine List.find?_eq_some_iff_getElem.mpr ⟨by simp, i, hlt, hi, fun j hj => ?_⟩
    have hname : script.params[j].name ≠ key.name := fun hname =>
      Nat.ne_of_lt hj (only j _ (List.getElem?_eq_getElem (hj.trans hlt)) hname)
    simpa using hname
  have hgiven : Thread.lastGiven key (script.params.zip args) = args[i] := by
    refine Thread.lastGiven_of_once (i := i) ?_ fun j other hj => ?_
    · rw [List.getElem?_zip_eq_some]
      exact ⟨hkey, List.getElem?_eq_getElem hargs⟩
    · exact only j key (List.getElem?_zip_eq_some.mp hj).1 rfl
  refine ⟨args[i], List.getElem?_eq_getElem hargs, ?_⟩
  rw [Thread.get_inputs h, if_pos hfirst, hgiven]

namespace Parcel

def box : ObjectType := ⟨0, ⟨"Box"⟩, none, [], [], [], none, none⟩

def left : Key := ⟨"left", ⟨"Box"⟩⟩

def right : Key := ⟨"right", ⟨"Box"⟩⟩

/-- A memory with two boxes. -/
def memory : Store :=
  ((Store.instantiate {} box).2.instantiate box).2

/-- A call that carries boxes under some parameters. -/
def carrier (params : List Key) : Thread where
  script := .mk 1 ⟨"Carry"⟩ params none [] none
  invoker := none
  scope := {}
  inputs := 3
  locals := 4

/-- Begins to carry. -/
def enter (params : List Key) (args : List Context) : Except Error Thread × Store :=
  Thread.enter memory (carrier params).script none args {}

end Parcel

open Parcel in
/-- Two parameters are both called left, and the second of them is given nothing. -/
theorem arguments_reach_parameters_parcel :
    let entered := enter [left, right, left] [some ⟨box, 1⟩, some ⟨box, 2⟩, none]
    entered.1 = .ok (carrier [left, right, left]) ∧
    entered.2.get 3 left = .ok (some ⟨box, 1⟩) ∧
    entered.2.get 3 right = .ok (some ⟨box, 2⟩) := by
  have hentered : enter [left, right, left] [some ⟨box, 1⟩, some ⟨box, 2⟩, none] =
    (.ok (carrier [left, right, left]), _) := rfl
  obtain ⟨read, reach⟩ := arguments_reach_parameters hentered
  have only : ∀ (j : Nat) (other : Key), [left, right, left][j]? = some other →
      other.name = right.name → j = 1 := by
    rintro (_ | _ | _ | j) other hj hname
    · cases hj
      exact absurd hname (by decide)
    · rfl
    · cases hj
      exact absurd hname (by decide)
    · cases hj
  obtain ⟨arg, harg, hget⟩ := reach 1 right rfl only
  cases harg
  exact ⟨rfl, read left, hget⟩

open Parcel in
/-- Of two arguments given under one name the first is lost. -/
theorem arguments_under_one_name :
    ¬ ∀ (s : Store) (script : Script) (invoker : Context) (args : List Context) (scope : Scope)
      (t : Thread) (s' : Store), Thread.enter s script invoker args scope = (.ok t, s') →
      ∀ (i : Nat) (key : Key), script.params[i]? = some key →
        ∃ arg, args[i]? = some arg ∧ s'.get t.inputs key = .ok arg := by
  intro h
  have hentered : enter [left, left] [some ⟨box, 1⟩, some ⟨box, 2⟩] =
    (.ok (carrier [left, left]), _) := rfl
  obtain ⟨arg, harg, hget⟩ := h _ _ _ _ _ _ _ hentered 0 left rfl
  cases harg
  have hsecond : (enter [left, left] [some ⟨box, 1⟩, some ⟨box, 2⟩]).2.get 3 left =
    .ok (some ⟨box, 2⟩) := rfl
  cases hsecond.symm.trans hget

end Steward
