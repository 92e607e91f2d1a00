/-
Standing groups: the groups of hosts, libraries and threads.

A live group is for the fields of an object, or it stands by itself (`Store.standing`).  What
stands is added by `allocate` and removed by `release`, and by nothing else: in particular no
object takes a standing group with it when it goes.  This holds of stores whose objects have
groups of fields, and whose numbers were given out (`Orderly`), and every operation keeps that.

* **`Ages own s s'`** — what an operation may make of a store `s`: the groups that were there
  are there with the keys they had, or gone; only the groups `own` may have got new keys;
* **`Keeps own s s'`** — the same, and what stands is what stood;
* **`keeps_letGo`**, **`Thread.keeps_or_declares`** — so do letting go and the primitive actions,
  of which one, in one group, adds keys;
* **`Thread.opens_enter`**, **`Thread.closes_leave`** — a call adds two groups that stand, and
  takes them away again.

Design notes: to be orderly is less than to be sound, and is kept whether or not the objects
that an operation is given are there.
-/
import Mathlib.Order.BooleanAlgebra.Set
import Steward.Proofs.SoundRun

namespace Steward

/-! ### Roles -/

namespace Group

theorem role_set {g g' : Group} {key : Key} {value old : Option ObjectRef}
    (h : g.set key value = .ok (old, g')) : g'.role = g.role := by
  obtain ⟨_, _, -, -, -, -, rfl⟩ := set_cases h
  rfl

theorem role_add {g g' : Group} {key : Key} {value : Option ObjectRef} {added : Bool}
    (h : g.add key value = .ok (added, g')) : g'.role = g.role := by
  rcases add_cases h with ⟨-, -, rfl⟩ | ⟨-, -, -, rfl⟩
  · rfl
  · rfl

theorem role_declareAll (g : Group) (ks : List Key) : (g.declareAll ks).role = g.role := by
  induction ks generalizing g with
  | nil => rfl
  | cons k ks ih =>
    rw [declareAll]
    split
    · exact ih g
    · exact ih _

@[simp]
theorem role_ofKeys (role : Role) (ks : List Key) : (ofKeys role ks).role = role :=
  role_declareAll _ ks

end Group

theorem Thread.role_bindArguments {args : List (Key × Option ObjectRef)} {g g' : Group}
    (h : bindArguments g args = .ok g') : g'.role = g.role := by
  induction args generalizing g with
  | nil =>
    cases h
    rfl
  | cons arg args ih =>
    obtain ⟨key, value⟩ := arg
    cases value with
    | none => exact ih h
    | some v =>
      rw [bindArguments] at h
      split at h
      · cases h
      · rename_i hset
        exact (ih h).trans (Group.role_set hset)

namespace Store

/-- The live groups that are not the fields of an object. -/
def standing (s : Store) : Set GroupId :=
  {id | ∃ g, s.group? id = some g ∧ g.role ≠ .fields}

theorem mem_standing {s : Store} {id : GroupId} :
    id ∈ s.standing ↔ ∃ g, s.group? id = some g ∧ g.role ≠ .fields :=
  Iff.rfl

/-- Whether all numbers in use were given out and the groups of objects are groups of fields. -/
structure Orderly (s : Store) : Prop where
  group_lt : ∀ {id g}, s.group? id = some g → id < s.next
  object_lt : ∀ {id x}, s.objectAt? id = some x → id < s.next
  role : ∀ {id x g}, s.objectAt? id = some x → s.group? id = some g → g.role = .fields

theorem Orderly.lt_of_standing {s : Store} (h : s.Orderly) {id : GroupId}
    (hid : id ∈ s.standing) : id < s.next := by
  obtain ⟨g, hg, -⟩ := hid
  exact h.group_lt hg

/-- What an operation may make of a store `s`: an orderly store in which a number given out
before means what it meant, or nothing.  Keys are as they were but in the groups `own`. -/
structure Ages (own : GroupId → Prop) (s s' : Store) : Prop where
  orderly : s'.Orderly
  next_le : s.next ≤ s'.next
  old : ∀ {id g'}, id < s.next → s'.group? id = some g' →
    ∃ g, s.group? id = some g ∧ g'.role = g.role ∧ (¬ own id → g'.keys = g.keys)

/-- Whether a store ages into another one in which the same groups stand. -/
structure Keeps (own : GroupId → Prop) (s s' : Store) : Prop extends Ages own s s' where
  standing_eq : s'.standing = s.standing

variable {own own' : GroupId → Prop} {s s' s'' : Store}

theorem Ages.refl (h : s.Orderly) : s.Ages own s where
  orderly := h
  next_le := Nat.le_refl _
  old _ hg := ⟨_, hg, rfl, fun _ => rfl⟩

/-- The second step may change the keys of groups that the first one made. -/
theorem Ages.trans (h : s.Ages own s') (h' : s'.Ages own' s'')
    (hown : ∀ id < s.next, own' id → own id) : s.Ages own s'' where
  orderly := h'.orderly
  next_le := Nat.le_trans h.next_le h'.next_le
  old {id g''} hid hg'' := by
    obtain ⟨g', hg', hrole', hkeys'⟩ := h'.old (Nat.lt_of_lt_of_le hid h.next_le) hg''
    obtain ⟨g, hg, hrole, hkeys⟩ := h.old hid hg'
    refine ⟨g, hg, hrole'.trans hrole, fun hno => ?_⟩
    exact (hkeys' fun ho => hno (hown id hid ho)).trans (hkeys hno)

theorem Keeps.refl (h : s.Orderly) : s.Keeps own s where
  toAges := .refl h
  standing_eq := rfl

theorem Keeps.trans (h : s.Keeps own s') (h' : s'.Keeps own s'') : s.Keeps own s'' where
  toAges := h.toAges.trans h'.toAges fun _ _ ho => ho
  standing_eq := h'.standing_eq.trans h.standing_eq

/-- More groups may be allowed to get new keys. -/
theorem Keeps.mono (h : s.Keeps own s') (hown : ∀ id, own id → own' id) : s.Keeps own' s' where
  orderly := h.orderly
  next_le := h.next_le
  old hid hg := by
    obtain ⟨g, hg, hrole, hkeys⟩ := h.old hid hg
    exact ⟨g, hg, hrole, fun hno => hkeys fun ho => hno (hown _ ho)⟩
  standing_eq := h.standing_eq

/-! ### Operations -/

theorem orderly_empty : Orderly {} where
  group_lt h := by simp [group?] at h
  object_lt h := by simp [objectAt?] at h
  role h := by simp [objectAt?] at h

theorem keeps_skip (h : s.Orderly) : s.Keeps own s.skip where
  orderly :=
    ⟨fun hg => Nat.lt_succ_of_lt (h.group_lt hg), fun ho => Nat.lt_succ_of_lt (h.object_lt ho),
      h.role⟩
  next_le := Nat.le_succ _
  old _ hg := ⟨_, hg, rfl, fun _ => rfl⟩
  standing_eq := rfl

/-- Another group may take the place of a live one, if it is for the same. -/
theorem keeps_write (h : s.Orderly) {id : GroupId} {g g' : Group} (hg : s.group? id = some g)
    (role : g'.role = g.role) (keys : ¬ own id → g'.keys = g.keys) :
    s.Keeps own (s.write id g') where
  orderly.group_lt {i gᵢ} hi := by
    rw [group?_write] at hi
    split at hi
    · rename_i heq
      exact heq ▸ h.group_lt hg
    · exact h.group_lt hi
  orderly.object_lt ho := h.object_lt (by simpa using ho)
  orderly.role {i x gᵢ} ho hi := by
    rw [objectAt?_write] at ho
    rw [group?_write] at hi
    split at hi
    · rename_i heq
      subst heq
      cases hi
      exact role.trans (h.role ho hg)
    · exact h.role ho hi
  next_le := Nat.le_refl _
  old {i gᵢ} _ hi := by
    rw [group?_write] at hi
    split at hi
    · rename_i heq
      subst heq
      cases hi
      exact ⟨g, hg, role, keys⟩
    · exact ⟨gᵢ, hi, rfl, fun _ => rfl⟩
  standing_eq := by
    ext i
    rw [mem_standing, mem_standing, group?_write]
    split
    · rename_i heq
      subst heq
      simp [hg, role]
    · rfl

theorem keeps_set (h : s.Orderly) {id : GroupId} {key : Key} {value old : Option ObjectRef}
    (hset : s.set id key value = .ok (old, s')) : s.Keeps own s' := by
  obtain ⟨g, g', hg, hgroup, rfl⟩ := set_cases hset
  exact keeps_write h hg (Group.role_set hgroup) fun _ => Group.keys_set hgroup

theorem keeps_add (h : s.Orderly) {id : GroupId} {key : Key} {value : Option ObjectRef}
    {added : Bool} (hown : own id) (hadd : s.add id key value = .ok (added, s')) :
    s.Keeps own s' := by
  obtain ⟨g, g', hg, hgroup, rfl⟩ := add_cases hadd
  exact keeps_write h hg (Group.role_add hgroup) fun hno => absurd hown hno

/-- If nothing is added, keys are as they were. -/
theorem keeps_add_false (h : s.Orderly) {id : GroupId} {key : Key} {value : Option ObjectRef}
    (hadd : s.add id key value = .ok (false, s')) : s.Keeps own s' := by
  obtain ⟨g, g', hg, hgroup, rfl⟩ := add_cases hadd
  refine keeps_write h hg (Group.role_add hgroup) fun _ => ?_
  rcases Group.add_cases hgroup with ⟨-, -, rfl⟩ | ⟨hadded, -⟩
  · rfl
  · cases hadded

theorem ages_allocate (h : s.Orderly) (g : Group) : s.Ages own (s.allocate g).2 where
  orderly.group_lt {i gᵢ} hi := by
    change i < s.next + 1
    rw [allocate, group?_write] at hi
    split at hi
    · rename_i heq
      exact heq ▸ Nat.lt_succ_self s.next
    · exact Nat.lt_succ_of_lt (h.group_lt hi)
  orderly.object_lt ho := by
    rw [allocate, objectAt?_write] at ho
    exact Nat.lt_succ_of_lt (h.object_lt ho)
  orderly.role {i x gᵢ} ho hi := by
    rw [allocate, objectAt?_write] at ho
    -- no object has the new number
    rw [allocate, group?_write, if_neg (Nat.ne_of_gt (h.object_lt ho))] at hi
    exact h.role ho hi
  next_le := Nat.le_succ _
  old {i gᵢ} hid hi := by
    rw [allocate, group?_write, if_neg (Nat.ne_of_gt hid)] at hi
    exact ⟨gᵢ, hi, rfl, fun _ => rfl⟩

theorem standing_allocate {g : Group} (hrole : g.role ≠ .fields) :
    (s.allocate g).2.standing = insert s.next s.standing := by
  ext i
  rw [Set.mem_insert_iff, mem_standing, mem_standing, allocate, group?_write]
  by_cases hi : s.next = i
  · simp [hi, hrole]
  · have hne : i ≠ s.next := fun he => hi he.symm
    rw [if_neg hi]
    simp only [hne, false_or]
    rfl

theorem ages_release (h : s.Orderly) (id : GroupId) : s.Ages own (s.release id) where
  orderly.group_lt hi := h.group_lt (group?_of_release hi)
  orderly.object_lt ho := h.object_lt (by simpa using ho)
  orderly.role ho hi := h.role (by simpa using ho) (group?_of_release hi)
  next_le := Nat.le_refl _
  old _ hi := ⟨_, group?_of_release hi, rfl, fun _ => rfl⟩

theorem standing_release (s : Store) (id : GroupId) :
    (s.release id).standing = s.standing \ {id} := by
  ext i
  rw [Set.mem_sdiff, Set.mem_singleton_iff, mem_standing, mem_standing, group?_release]
  by_cases hi : id = i
  · simp [hi]
  · have hne : i ≠ id := fun he => hi he.symm
    simp [hi, hne]

theorem keeps_instantiate (h : s.Orderly) (type : ObjectType) :
    s.Keeps own (s.instantiate type).2 where
  orderly.group_lt {i gᵢ} hi := by
    change i < s.next + 1
    rw [group?_instantiate] at hi
    split at hi
    · rename_i heq
      exact heq ▸ Nat.lt_succ_self s.next
    · exact Nat.lt_succ_of_lt (h.group_lt hi)
  orderly.object_lt {i x} ho := by
    change i < s.next + 1
    rw [objectAt?_instantiate] at ho
    split at ho
    · rename_i heq
      exact heq ▸ Nat.lt_succ_self s.next
    · exact Nat.lt_succ_of_lt (h.object_lt ho)
  orderly.role {i x gᵢ} ho hi := by
    rw [objectAt?_instantiate] at ho
    rw [group?_instantiate] at hi
    split at hi
    · cases hi
      exact Group.role_ofKeys _ _
    · rename_i hne
      rw [if_neg hne] at ho
      exact h.role ho hi
  next_le := Nat.le_succ _
  old {i gᵢ} hid hi := by
    rw [group?_instantiate, if_neg (Nat.ne_of_gt hid)] at hi
    exact ⟨gᵢ, hi, rfl, fun _ => rfl⟩
  standing_eq := by
    ext i
    rw [mem_standing, mem_standing, group?_instantiate]
    split
    · rename_i heq
      -- the new group is one of fields, and there was none with its number
      cases hg : s.group? i with
      | none => simp
      | some g => exact absurd (h.group_lt hg) (heq ▸ Nat.lt_irrefl s.next)
    · rfl

theorem keeps_setPayload (h : s.Orderly) {o : ObjectRef} {value : Payload}
    (hset : s.setPayload o value = .ok s') : s.Keeps own s' := by
  obtain ⟨-, hnext, hgroups, -⟩ := setPayload_cases hset
  have hobject : ∀ {i x}, s'.objectAt? i = some x → ∃ y, s.objectAt? i = some y := by
    rintro i ⟨o', p⟩ ho
    obtain ⟨p', hp⟩ := objectAt?_of_setPayload hset ho
    exact ⟨_, hp⟩
  refine ⟨⟨⟨?_, ?_, ?_⟩, Nat.le_of_eq hnext.symm, ?_⟩, ?_⟩
  · intro i g hg
    exact hnext ▸ h.group_lt (hgroups i ▸ hg)
  · intro i x ho
    obtain ⟨y, hy⟩ := hobject ho
    exact hnext ▸ h.object_lt hy
  · intro i x g ho hg
    obtain ⟨y, hy⟩ := hobject ho
    exact h.role hy (hgroups i ▸ hg)
  · intro i g _ hg
    exact ⟨g, hgroups i ▸ hg, rfl, fun _ => rfl⟩
  · ext i
    rw [mem_standing, mem_standing, hgroups]

theorem keeps_bind (h : s.Orderly) (type : ObjectType) (value : Payload) :
    s.Keeps own (s.bind type value).2 := by
  have hmade : s.Keeps own (s.instantiate type).2 := keeps_instantiate h type
  dsimp only [bind]
  split
  · rename_i hset
    exact hmade.trans (keeps_setPayload hmade.orderly hset)
  · exact keeps_skip h

theorem ages_discard (h : s.Orderly) (id : GroupId) : s.Ages own (s.discard id) where
  orderly.group_lt hi := h.group_lt (group?_of_release hi)
  orderly.object_lt ho := h.object_lt (objectAt?_of_discard ho)
  orderly.role ho hi := h.role (objectAt?_of_discard ho) (group?_of_release hi)
  next_le := Nat.le_refl _
  old _ hi := ⟨_, group?_of_release hi, rfl, fun _ => rfl⟩

/-- An object takes no standing group with it. -/
theorem keeps_discard (h : s.Orderly) {id : GroupId} (hid : id ∈ s.objects) :
    s.Keeps own (s.discard id) where
  toAges := ages_discard h id
  standing_eq := by
    obtain ⟨o, p, ho⟩ := mem_objects_iff.mp hid
    have hfields : id ∉ s.standing := by
      rintro ⟨g, hg, hrole⟩
      exact hrole (h.role ho hg)
    exact (standing_release s id).trans (Set.sdiff_singleton_eq_self hfields)

theorem keeps_letGo (h : s.Orderly) (held : Held) (dropped : List GroupId) :
    s.Keeps own (s.letGo held dropped) := by
  refine letGoUpTo_induct ?_ _ dropped (.refl h)
  intro t id ht hid _
  exact ht.trans (keeps_discard ht.orderly hid)

theorem Keeps.letGo (h : s.Keeps own s') (held : Held) (dropped : List GroupId) :
    s.Keeps own (s'.letGo held dropped) :=
  h.trans (keeps_letGo h.orderly held dropped)

end Store

/-! ### Threads -/

namespace Thread

/-- The groups of a thread. -/
def groups (t : Thread) : List GroupId :=
  [t.inputs, t.locals]

/-- What entering a call makes of a store: two groups more. -/
structure Opens (t : Thread) (s s' : Store) : Prop extends Store.Ages (fun _ => False) s s' where
  inputs_eq : t.inputs = s.next
  locals_eq : t.locals = s.next + 1
  standing_eq : s'.standing = insert t.locals (insert t.inputs s.standing)

/-- What leaving a call makes of a store: two groups less. -/
structure Closes (t : Thread) (s s' : Store) : Prop extends Store.Ages (fun _ => False) s s' where
  standing_eq : s'.standing = (s.standing \ {t.inputs}) \ {t.locals}

variable {t : Thread} {s s' : Store}

/-- A primitive action adds no key, unless it declares a variable with a name that its thread did
not see. -/
theorem keeps_or_declares (h : s.Orderly) {ctx : Context} {p : Primitive}
    {r : Except Error (Context × Context)} (hp : t.perform s ctx p = (r, s')) :
    s.Keeps (fun _ => False) s' ∨ ∃ key, t.view.add s key none = .ok (true, s') := by
  cases p with
  | declare name type =>
    rw [perform] at hp
    split at hp
    · rename_i added _ hadd
      cases hp
      cases added with
      | true => exact .inr ⟨_, hadd⟩
      | false =>
        rcases View.add_target hadd with rfl | ⟨id, -, hadd⟩
        · exact .inl (.refl h)
        · exact .inl (Store.keeps_add_false h hadd)
    · cases hp
      exact .inl (.refl h)
  | assign target =>
    rw [perform] at hp
    split at hp
    · rename_i hassign
      cases hp
      obtain ⟨id, key, hset⟩ := assign_cases hassign
      exact .inl (Store.keeps_set h hset)
    · cases hp
      exact .inl (.refl h)
  | lookup path =>
    rw [perform] at hp
    split at hp
    · cases hp
      exact .inl (.refl h)
    · cases hp
      exact .inl (.refl h)
  | native type value =>
    have hbind : s.Keeps (fun _ => False) (s.bind type value).2 := Store.keeps_bind h type value
    rw [perform] at hp
    split at hp
    · rename_i heq
      cases hp
      rw [heq] at hbind
      exact .inl hbind
    · rename_i heq
      cases hp
      rw [heq] at hbind
      exact .inl hbind
  | self =>
    cases hp
    exact .inl (.refl h)
  | clear =>
    cases hp
    exact .inl (.refl h)

/-- A thread that declares a variable adds a key to its own variables. -/
theorem keeps_declare (h : s.Orderly) {key : Key} {value : Option ObjectRef} {added : Bool}
    (hadd : t.view.add s key value = .ok (added, s')) : s.Keeps (t.locals = ·) s' := by
  rcases View.add_target hadd with rfl | ⟨id, htarget, hadd⟩
  · exact .refl h
  · exact Store.keeps_add h (Option.some.inj htarget) hadd

theorem opens_enter (h : s.Orderly) {script : Script} {invoker : Context} {args : List Context}
    {scope : Scope} (he : enter s script invoker args scope = (.ok t, s')) : t.Opens s s' := by
  rw [enter] at he
  split at he
  · cases he
  · split at he
    · cases he
    · rename_i g hbind
      have hinputs : g.role = .inputs := (role_bindArguments hbind).trans (Group.role_ofKeys _ _)
      have hg : g.role ≠ .fields := by simp [hinputs]
      cases he
      have hfirst : s.Ages (fun _ => False) (s.allocate g).2 := Store.ages_allocate h g
      have hlocals : ((s.allocate g).2.allocate ⟨.locals, []⟩).2.standing =
          insert (s.next + 1) (insert s.next s.standing) := by
        rw [Store.standing_allocate (by simp), Store.standing_allocate hg]
        rfl
      refine ⟨hfirst.trans (Store.ages_allocate hfirst.orderly _) fun _ _ ho => ho, rfl, rfl, ?_⟩
      exact hlocals

theorem keeps_enter (h : s.Orderly) {script : Script} {invoker : Context} {args : List Context}
    {scope : Scope} {e : Error} (he : enter s script invoker args scope = (.error e, s'))
    (own : GroupId → Prop) : s.Keeps own s' := by
  rw [enter] at he
  split at he
  · cases he
    exact .refl h
  · split at he
    · cases he
      exact Store.keeps_skip h
    · cases he

theorem closes_leave (h : s.Orderly) (t : Thread) : t.Closes s (t.leave s) := by
  have hfirst : s.Ages (fun _ => False) (s.release t.inputs) := Store.ages_release h t.inputs
  refine ⟨hfirst.trans (Store.ages_release hfirst.orderly t.locals) fun _ _ ho => ho, ?_⟩
  rw [leave, Store.standing_release, Store.standing_release]

theorem Opens.letGo (h : t.Opens s s') (held : Held) (dropped : List GroupId) :
    t.Opens s (s'.letGo held dropped) :=
  have hgo : s'.Keeps (fun _ => False) _ := Store.keeps_letGo h.orderly held dropped
  { toAges := h.toAges.trans hgo.toAges fun _ _ ho => ho
    inputs_eq := h.inputs_eq
    locals_eq := h.locals_eq
    standing_eq := hgo.standing_eq.trans h.standing_eq }

theorem Closes.letGo (h : t.Closes s s') (held : Held) (dropped : List GroupId) :
    t.Closes s (s'.letGo held dropped) :=
  have hgo : s'.Keeps (fun _ => False) _ := Store.keeps_letGo h.orderly held dropped
  { toAges := h.toAges.trans hgo.toAges fun _ _ ho => ho
    standing_eq := hgo.standing_eq.trans h.standing_eq }

end Thread

end Steward
