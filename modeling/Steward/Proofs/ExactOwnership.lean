/-
Exact ownership: an object is there exactly as long as something refers to it.

Between two steps of a host, a reference to an object is held by the host, stands in a slot of a
live group, or belongs to a thread or to a call that waits (`Session.Holds`).

* **`Reachable.exists_group?`** — what is held is there, with its group, since nothing goes while
  it is referred to (`Session.Sound`);
* **`Reachable.exists_holds`** — and a group of fields that is not one of the host's own is held,
  since nothing is left after a step that nothing refers to;
* **`Reachable.circle`** — objects in a circle stay, whatever the host drops;
* **`ownership_exact`** — this together, with the fact that what is left after a step does not
  depend on the order in which references are dropped (`Cascade.group?_eq`).

Design notes: besides its objects, a session owns the groups of the host, the statics of
libraries and the groups of threads.  Those of libraries and threads are never groups of fields
(`Owners`); a host may well make one, but no object comes with it.
-/
import Steward.Proofs.Cascade
import Steward.Proofs.Changes
import Steward.Proofs.Footprint
import Steward.Proofs.Identity

namespace Steward

/-! ### Numbers that are not those of objects -/

namespace Store

variable {s s' : Store}

/-- Whether the group of a number, if it is live, is not one of fields. -/
def Plain (s : Store) (id : GroupId) : Prop :=
  id < s.next ∧ ∀ g, s.group? id = some g → g.role ≠ .fields

theorem Changes.plain (h : s.Changes s') (hs : s.Orderly) {id : GroupId} (hid : s.Plain id) :
    s'.Plain id := by
  have hages := h.ages hs
  refine ⟨Nat.lt_of_lt_of_le hid.1 hages.next_le, fun g' hg' => ?_⟩
  obtain ⟨g, hg, hrole, -⟩ := hages.old hid.1 hg'
  rw [hrole]
  exact hid.2 g hg

theorem Change.spare (h : s.Change s') {id : GroupId} (hid : s.Spare id) : s'.Spare id := by
  obtain ⟨hlt, hnone⟩ := hid
  cases h with
  | skip => exact ⟨Nat.lt_succ_of_lt hlt, hnone⟩
  | set hset =>
    obtain ⟨g, g', -, -, rfl⟩ := set_cases hset
    exact ⟨hlt, (objectAt?_write ..).trans hnone⟩
  | add hadd =>
    obtain ⟨g, g', -, -, rfl⟩ := add_cases hadd
    exact ⟨hlt, (objectAt?_write ..).trans hnone⟩
  | allocate hbind => exact ⟨Nat.lt_succ_of_lt hlt, (objectAt?_write ..).trans hnone⟩
  | instantiate =>
    refine ⟨Nat.lt_succ_of_lt hlt, ?_⟩
    rw [objectAt?_instantiate, if_neg (Nat.ne_of_gt hlt), hnone]
  | setPayload hset =>
    obtain ⟨-, hnext, -, hobjects⟩ := setPayload_cases hset
    refine ⟨hnext ▸ hlt, ?_⟩
    rw [hobjects, hnone]
    split
    · rfl
    · rfl
  | release => exact ⟨hlt, (objectAt?_release ..).trans hnone⟩
  | discard =>
    refine ⟨hlt, ?_⟩
    rw [objectAt?_discard, hnone, ite_self]

theorem Changes.spare (h : s.Changes s') {id : GroupId} (hid : s.Spare id) : s'.Spare id := by
  induction h with
  | refl => exact hid
  | tail _ hchange ih => exact hchange.spare ih

/-- No object has the number of a new group. -/
theorem Orderly.spare_allocate (h : s.Orderly) (g : Group) : (s.allocate g).2.Spare s.next := by
  refine ⟨Nat.lt_succ_self s.next, (objectAt?_write ..).trans ?_⟩
  rw [← Option.not_isSome_iff_eq_none, Option.isSome_iff_exists]
  rintro ⟨x, hx⟩
  exact Nat.lt_irrefl _ (h.object_lt hx)

/-- A new group that is not one of fields. -/
theorem plain_allocate (s : Store) {g : Group} (hrole : g.role ≠ .fields) :
    (s.allocate g).2.Plain s.next := by
  refine ⟨Nat.lt_succ_self s.next, fun g' hg' => ?_⟩
  rw [allocate, group?_write, if_pos rfl] at hg'
  cases hg'
  exact hrole

end Store

theorem Thread.Opens.plain {t : Thread} {s s' : Store} (h : t.Opens s s') :
    s'.Plain t.inputs ∧ s'.Plain t.locals := by
  have hplain : ∀ id, id ∈ s'.standing → s'.Plain id := by
    rintro id ⟨g, hg, hrole⟩
    refine ⟨h.orderly.group_lt hg, fun g' hg' => ?_⟩
    rw [hg] at hg'
    cases hg'
    exact hrole
  constructor
  · exact hplain _ (by rw [h.standing_eq]; exact .inr (.inl rfl))
  · exact hplain _ (by rw [h.standing_eq]; exact .inl rfl)

/-! ### Owners -/

/-- Whether something holds of the statics of every library that a library uses. -/
def Library.Statics (P : GroupId → Prop) (l : Library) : Prop :=
  ∀ m, l.Uses m → P m.statics

theorem Library.statics_iff {P : GroupId → Prop} {l : Library} :
    l.Statics P ↔ P l.statics ∧ ∀ d ∈ l.dependencies, d.Statics P := by
  constructor
  · intro h
    refine ⟨h l (.refl l), fun d hd m hm => h m (uses_iff.mpr (.inr ⟨d, hd, hm⟩))⟩
  · rintro ⟨hself, hdependencies⟩ m hm
    rcases uses_iff.mp hm with rfl | ⟨d, hd, hdm⟩
    · exact hself
    · exact hdependencies d hd m hdm

namespace Session

/-- What a session owns besides its objects: groups of the host, which are not those of objects,
and groups of libraries and threads, which are not groups of fields. -/
structure Owners (s : Session) : Prop where
  groups : ∀ id ∈ s.groups.values, s.store.Spare id
  drafts : ∀ d ∈ s.drafts.values, d.library.Statics s.store.Plain
  libraries : ∀ l ∈ s.libraries.values, l.Statics s.store.Plain
  catalog : ∀ l ∈ s.catalog.libraries, l.Statics s.store.Plain
  threads : ∀ t ∈ s.threads.values, s.store.Plain t.inputs ∧ s.store.Plain t.locals

theorem owners_start (config : Config) : (start config).Owners where
  groups _ h := absurd h List.not_mem_nil
  drafts _ h := absurd h List.not_mem_nil
  libraries _ h := absurd h List.not_mem_nil
  catalog _ h := absurd h List.not_mem_nil
  threads _ h := absurd h List.not_mem_nil

variable {s s' : Session}

/-- What a session owns depends on six fields only. -/
theorem Owners.congr (h : s.Owners) (store : s'.store = s.store) (groups : s'.groups = s.groups)
    (drafts : s'.drafts = s.drafts) (libraries : s'.libraries = s.libraries)
    (catalog : s'.catalog = s.catalog) (threads : s'.threads = s.threads) : s'.Owners where
  groups := groups ▸ store ▸ h.groups
  drafts := drafts ▸ store ▸ h.drafts
  libraries := libraries ▸ store ▸ h.libraries
  catalog := catalog ▸ store ▸ h.catalog
  threads := threads ▸ store ▸ h.threads

/-- Whatever happens to the store, what is owned stays what it is. -/
theorem Owners.change (h : s.Owners) (hs : s.store.Orderly) {store : Store}
    (hchanges : s.store.Changes store) : { s with store }.Owners where
  groups id hid := hchanges.spare (h.groups id hid)
  drafts d hd m hm := hchanges.plain hs (h.drafts d hd m hm)
  libraries l hl m hm := hchanges.plain hs (h.libraries l hl m hm)
  catalog l hl m hm := hchanges.plain hs (h.catalog l hl m hm)
  threads t ht := (h.threads t ht).imp (hchanges.plain hs) (hchanges.plain hs)

/-- A draft takes the place of what was under its name. -/
theorem Owners.drafted (h : s.Owners) {d : Draft} (handle : String)
    (hd : d.library.Statics s.store.Plain) :
    { s with drafts := s.drafts.insert handle d }.Owners where
  groups := h.groups
  drafts d' hd' := by
    rcases Table.mem_values_of_insert hd' with rfl | hd'
    · exact hd
    · exact h.drafts d' hd'
  libraries := h.libraries
  catalog := h.catalog
  threads := h.threads

theorem owners_without (h : s.Owners) (name : String) (what : Droppable) :
    (s.without name what).Owners := by
  cases what with
  | group => exact { h with groups := fun id hid => h.groups id (Table.mem_values_of_erase hid) }
  | builder => exact { h with drafts := fun d hd => h.drafts d (Table.mem_values_of_erase hd) }
  | library =>
    exact { h with libraries := fun l hl => h.libraries l (Table.mem_values_of_erase hl) }
  | thread => exact { h with threads := fun t ht => h.threads t (Table.mem_values_of_erase ht) }
  | object | view | lock | pending => exact h.congr rfl rfl rfl rfl rfl rfl

theorem owners_entered (h : s.Owners) (hs : s.store.Orderly) (c : Call) (name : String) :
    (s.entered (Thread.enter s.store c.script c.invoker c.args c.scope) name).Owners := by
  rcases he : Thread.enter s.store c.script c.invoker c.args c.scope with ⟨e | t, store⟩
  · exact (h.change hs (Thread.changes_enter he)).congr rfl rfl rfl rfl rfl rfl
  · have hchanged := h.change hs (Thread.changes_enter he)
    refine { hchanged with threads := fun t' ht' => ?_ }
    rcases Table.mem_values_of_insert ht' with rfl | ht'
    · exact (Thread.opens_enter hs he).plain
    · exact hchanged.threads t' ht'

theorem owners_effect (heff : Effect s s') (hs : s.store.Orderly) (h : s.Owners) : s'.Owners := by
  cases heff with
  | @allocate role keys handle isOpen =>
    have hchanged := h.change hs (s.store.changes_allocate role keys)
    refine { hchanged with groups := fun id hid => ?_ }
    rcases Table.mem_values_of_insert hid with rfl | hid
    · exact hs.spare_allocate _
    · exact hchanged.groups id hid
  | @draft name handle isOpen =>
    have hchanged := h.change hs (s.store.changes_allocate .statics [])
    refine hchanged.drafted handle (Library.statics_iff.mpr ⟨?_, ?_⟩)
    · exact s.store.plain_allocate (by simp)
    · exact fun d hd => absurd hd List.not_mem_nil
  | operate hop => exact (h.change hs hop.changes).congr rfl rfl rfl rfl rfl rfl
  | enter isOpen known => exact owners_entered h hs _ _
  | resume hp hs' turn hrun =>
    subst hs'
    exact (h.change hs hrun.changes).congr rfl rfl rfl rfl rfl rfl
  | @depend d l builder hd known =>
    obtain ⟨hstatics, hdependencies⟩ :=
      Library.statics_iff.mp (h.drafts d (Table.mem_values_of_find? hd))
    refine h.drafted builder (Library.statics_iff.mpr ⟨hstatics, fun m hm => ?_⟩)
    rcases List.mem_append.mp hm with hm | hm
    · exact hdependencies m hm
    · obtain rfl := List.mem_singleton.mp hm
      exact h.libraries m known
  | define hd known hd' =>
    obtain rfl := Draft.define_eq_ok hd'
    have hdraft := Library.statics_iff.mp (h.drafts _ (Table.mem_values_of_find? hd))
    exact h.drafted _ (Library.statics_iff.mpr hdraft)
  | @addScript d _ x copy builder handle hd hd' =>
    obtain ⟨-, rfl⟩ := Draft.addScript_eq_ok hd'
    have hdraft := Library.statics_iff.mp (h.drafts _ (Table.mem_values_of_find? hd))
    have hdrafted := h.drafted (d := { d with scripts := d.scripts ++ [copy] }) builder
      (Library.statics_iff.mpr hdraft)
    exact hdrafted.congr rfl rfl rfl rfl rfl rfl
  | @build d l builder handle hd hl =>
    obtain rfl := Draft.build_eq_ok hl
    refine { owners_without h builder .builder with libraries := fun m hm => ?_ }
    rcases Table.mem_values_of_insert hm with rfl | hm
    · exact h.drafts d (Table.mem_values_of_find? hd)
    · exact h.libraries m hm
  | load isOpen known hload =>
    obtain ⟨rfl, -⟩ := Catalog.load_eq_ok hload
    refine { h with catalog := fun m hm => ?_ }
    rcases List.mem_append.mp hm with hm | hm
    · exact h.catalog m hm
    · obtain rfl := List.mem_singleton.mp hm
      exact h.libraries m known
  | drop => exact owners_without h _ _
  | close =>
    -- without libraries in the catalog and without threads there is less to own
    exact { h.change hs Effect.close.changes with
      catalog := fun _ hl => absurd hl List.not_mem_nil
      threads := fun _ ht => absurd ht List.not_mem_nil }
  | tidy => exact h.change hs Effect.tidy.changes
  | note | remember | lock | pass | contract | type | wait | script | resolve =>
    exact h.congr rfl rfl rfl rfl rfl rfl

/-- A group that is owned is one of the host's, or not a group of fields. -/
theorem Owners.plain_of_owned (h : s.Owners) {id : GroupId} (hid : id ∈ s.owned) :
    id ∈ s.groups.values ∨ s.store.Plain id := by
  rw [owned, List.mem_append, List.mem_append, List.mem_flatMap] at hid
  rcases hid with (hid | hid) | ⟨t, ht, hid⟩
  · exact .inl hid
  · right
    obtain ⟨l, hl, m, hm, rfl⟩ := Library.uses_of_mem_ownedGroups hid
    rw [List.mem_append, List.mem_append, List.mem_map] at hl
    rcases hl with (⟨d, hd, rfl⟩ | hl) | hl
    · exact h.drafts d hd m hm
    · exact h.libraries l hl m hm
    · exact h.catalog l hl m hm
  · right
    rcases List.mem_cons.mp hid with rfl | hid
    · exact (h.threads t ht).1
    · obtain rfl := List.mem_singleton.mp hid
      exact (h.threads t ht).2

/-! ### References -/

/-- Whether a reference is held between two steps: by the host, in a slot of a live group, by a
thread, or by a call that waits. -/
inductive Holds (s : Session) (o : ObjectRef) : Prop where
  | host (known : o ∈ s.objects.values)
  | slot {id : GroupId} {g : Group} (live : s.store.group? id = some g) (value : o ∈ g.values)
  | thread {t : Thread} (entered : t ∈ s.threads.values) (invoker : t.invoker = some o)
  | invoker {p : Pending} (waits : p ∈ s.pendings.values) (invoker : p.call.invoker = some o)
  | argument {p : Pending} (waits : p ∈ s.pendings.values) (argument : some o ∈ p.call.args)

/-- What is held is there. -/
theorem Sound.has_of_holds (h : s.Sound) {o : ObjectRef} (ho : s.Holds o) : s.store.Has o := by
  cases ho with
  | host known => exact h.objects o known
  | slot live value => exact h.store.present live o value
  | thread entered invoker => exact (h.threads _ entered).2 o invoker
  | invoker waits invoker => exact (h.pendings _ waits).2.1 o invoker
  | argument waits argument => exact (h.pendings _ waits).2.2 _ argument o rfl

theorem exists_holds_of_mem_held {id : GroupId} (h : id ∈ s.held) :
    ∃ o, s.Holds o ∧ o.group = id := by
  rcases mem_held.mp h with ⟨o, ho, hid⟩ | ⟨t, ht, hid⟩ | ⟨p, hp, hid⟩
  · exact ⟨o, .host ho, hid⟩
  · obtain ⟨o, ho, hid⟩ := Context.mem_refs.mp hid
    exact ⟨o, .thread ht ho, hid⟩
  · rcases List.mem_append.mp hid with hid | hid
    · obtain ⟨o, ho, hid⟩ := Context.mem_refs.mp hid
      exact ⟨o, .invoker hp ho, hid⟩
    · obtain ⟨ctx, hctx, hid⟩ := List.mem_flatMap.mp hid
      obtain ⟨o, ho, hid⟩ := Context.mem_refs.mp hid
      exact ⟨o, .argument hp (ho ▸ hctx), hid⟩

theorem exists_holds_of_valuesIn {id user : GroupId} (h : id ∈ s.store.valuesIn user) :
    ∃ o, s.Holds o ∧ o.group = id := by
  obtain ⟨g, hg, hid⟩ := Cascade.exists_group?_of_valuesIn h
  obtain ⟨o, ho, hid⟩ := List.mem_map.mp hid
  exact ⟨o, .slot hg ho, hid⟩

/-- After tidying up, a group of fields that is not one of the host's own is that of an object
that something refers to. -/
theorem exists_holds_tidy (hsound : s.Sound) (howners : s.Owners) {id : GroupId} {g : Group}
    (hg : s.tidy.store.group? id = some g) (hrole : g.role = .fields)
    (hid : id ∉ s.groups.values) : ∃ o, s.tidy.Holds o ∧ o.group = id := by
  have hplain : id ∉ s.owned := by
    intro howned
    have hold : s.store.group? id = some g :=
      (Cascade.steps_tidy hsound.store s.owned s.held []).shrinks.group hg
    rcases howners.plain_of_owned howned with hgroup | hplain
    · exact hid hgroup
    · exact hplain.2 g hold hrole
  have hobject := (Cascade.mem_owned_of_tidy hsound.store hg).resolve_left hplain
  have hsettled := Store.settle_isSettled (s.store.retain s.owned) s.held id hobject
  have hindexed := (sound_tidy hsound).store.indexed
  rcases (Store.isReferenced_iff hindexed hobject).mp hsettled with hheld | ⟨user, huser⟩
  · exact exists_holds_of_mem_held (s := s.tidy) hheld
  · exact exists_holds_of_valuesIn huser

/-! ### Steps -/

/-- The session that a step leaves behind before it is tidied up. -/
def unsettled (s : Session) (step : Step) : Session :=
  ((step.take.run).run s).2

theorem effects_unsettled (s : Session) (step : Step) : s.Effects (s.unsettled step) :=
  Host.effects_take step s

theorem step_eq (s : Session) (step : Step) : (s.step step).2 = (s.unsettled step).tidy :=
  rfl

/-- What is known of a session at all times. -/
structure Steady (s : Session) : Prop where
  sound : s.Sound
  orderly : s.store.Orderly
  owners : s.Owners

theorem steady_effect (heff : Effect s s') (h : s.Steady) : s'.Steady :=
  ⟨sound_effect heff h.sound, orderly_effect heff h.orderly,
    owners_effect heff h.orderly h.owners⟩

theorem steady_start (config : Config) : (start config).Steady :=
  ⟨sound_start config, Store.orderly_empty, owners_start config⟩

theorem Reachable.steady (h : s.Reachable) : s.Steady :=
  h.induct steady_start steady_effect

theorem Reachable.steady_effects (h : s.Reachable) (heffects : s.Effects s') : s'.Steady :=
  heffects.invariant steady_effect h.steady

theorem Reachable.steady_unsettled (h : s.Reachable) (step : Step) : (s.unsettled step).Steady :=
  h.steady_effects (s.effects_unsettled step)

/-- What is held has a live group of fields, which is not one of the host's own. -/
theorem Reachable.exists_group? (h : s.Reachable) (isOpen : s.isOpen = true) {o : ObjectRef}
    (ho : s.Holds o) :
    (∃ g, s.store.group? o.group = some g ∧ g.role = .fields) ∧ o.group ∉ s.groups.values := by
  obtain ⟨p, hobject⟩ := h.sound.has_of_holds ho
  obtain ⟨g, hg⟩ := h.sound.housed isOpen hobject
  refine ⟨⟨g, hg, h.orderly.role hobject hg⟩, fun hgroup => ?_⟩
  have hspare := (h.steady.owners.groups _ hgroup).2
  rw [hobject] at hspare
  cases hspare

theorem Reachable.exists_holds (h : s.Reachable) {id : GroupId} {g : Group}
    (hg : s.store.group? id = some g) (hrole : g.role = .fields) (hid : id ∉ s.groups.values) :
    ∃ o, s.Holds o ∧ o.group = id := by
  rcases h.eq_start_or_tidy with ⟨config, rfl⟩ | ⟨r, x, hr, heffects, rfl⟩
  · simp [start, Store.group?] at hg
  · have hsteady := hr.steady_effects heffects
    exact exists_holds_tidy hsteady.sound hsteady.owners hg hrole hid

/-! ### Circles -/

theorem unsettled_drop (s : Session) (what : Droppable) (name : String) :
    s.unsettled (.memory (.drop what name)) = s.without name what :=
  Host.leaves_bind_pure (Q := (· = s.without name what)) (Host.leaves_dropNamed s what name)

/-- Dropping a name does nothing to the store by itself. -/
theorem store_without (s : Session) (name : String) (what : Droppable) :
    (s.without name what).store = s.store := by
  cases what with
  | object | group | view | builder | library | thread | lock | pending => rfl

/-- Whether each of some objects stands in a slot of another of them. -/
def Circle (s : Session) (C : Set GroupId) : Prop :=
  ∀ id ∈ C, ∃ user ∈ C, id ∈ s.store.valuesIn user

/-- A circle is left as it is when a name is dropped. -/
theorem Reachable.circle_drop (h : s.Reachable) {C : Set GroupId} (hC : s.Circle C)
    (what : Droppable) (name : String) {id : GroupId} (hid : id ∈ C) :
    (s.step (.memory (.drop what name))).2.store.group? id = s.store.group? id := by
  have hstore := s.store_without name what
  rw [← s.unsettled_drop what name] at hstore
  have hsteady := h.steady_unsettled (.memory (.drop what name))
  generalize hs' : s.unsettled (.memory (.drop what name)) = s' at hstore hsteady
  have hsupported : Cascade.Supported s'.owned s'.held s'.store C := by
    intro i hi
    obtain ⟨user, huser, hvalue⟩ := hC i hi
    obtain ⟨g, hg, hvalue'⟩ := Cascade.exists_group?_of_valuesIn hvalue
    obtain ⟨o, ho, rfl⟩ := List.mem_map.mp hvalue'
    obtain ⟨p, hobject⟩ := h.sound.store.present hg o ho
    refine .inl ⟨?_, .inr ⟨user, huser, ?_⟩⟩
    · rw [hstore]
      exact Store.mem_objects_iff.mpr ⟨o, p, hobject⟩
    · rwa [hstore]
  have htidy := (Cascade.steps_tidy hsteady.sound.store s'.owned s'.held []).supported hsupported
  rw [step_eq, hs', ← hstore]
  exact htidy.2 id hid

/-- **Objects in a circle stay**, whatever names are dropped. -/
theorem Reachable.circle (h : s.Reachable) {C : Set GroupId} (hC : s.Circle C)
    (drops : List (Droppable × String)) {id : GroupId} (hid : id ∈ C) :
    (s.steps (drops.map fun d => .memory (.drop d.1 d.2))).2.store.group? id =
      s.store.group? id := by
  induction drops generalizing s with
  | nil => rfl
  | cons d drops ih =>
    have hsame : ∀ i ∈ C, (s.step (.memory (.drop d.1 d.2))).2.store.group? i =
        s.store.group? i := fun i hi => h.circle_drop hC d.1 d.2 hi
    have hC' : (s.step (.memory (.drop d.1 d.2))).2.Circle C := by
      intro i hi
      obtain ⟨user, huser, hvalue⟩ := hC i hi
      refine ⟨user, huser, ?_⟩
      rwa [Store.valuesIn, hsame user huser]
    exact (ih (h.step _) hC').trans (hsame id hid)

/-! ### Exactness -/

/-- What it means that objects are there exactly as long as something refers to them. -/
structure OwnsExactly (s : Session) : Prop where
  /-- A group of fields, but for those that the host made by itself, is live if and only if a
  reference to its object is held. -/
  live_iff : ∀ id, ((∃ g, s.store.group? id = some g ∧ g.role = .fields) ∧ id ∉ s.groups.values) ↔
    ∃ o, s.Holds o ∧ o.group = id
  /-- Objects that refer to each other in a circle are live, and stay so whatever is dropped. -/
  circle : ∀ C, s.Circle C → ∀ id ∈ C, ∃ g, s.store.group? id = some g ∧
    ∀ drops : List (Droppable × String),
      (s.steps (drops.map fun d => .memory (.drop d.1 d.2))).2.store.group? id = some g
  /-- By way of a reference that is held no member access meets a released group. -/
  access : ∀ o, s.Holds o → ∀ key released,
    s.store.readMember o key ≠ .error (.releasedGroup released) ∧
    ∀ value, s.store.writeMember o key value ≠ .error (.releasedGroup released)
  /-- What goes after a step, with whatever references about to be dropped, goes in finitely many
  steps. -/
  halts : ∀ (step : Step) (falling : List GroupId),
    Acc (fun c' c => Cascade.Next (s.unsettled step).owned (s.unsettled step).held c c')
      ⟨(s.unsettled step).store, falling⟩
  /-- The store after the step is an end of the cascade. -/
  ends : ∀ (step : Step) (falling : List GroupId),
    Cascade.Ends (s.unsettled step).owned (s.unsettled step).held
      ⟨(s.unsettled step).store, falling⟩ ⟨(s.step step).2.store, []⟩
  /-- In whatever order the cascade goes, it ends with the same live groups. -/
  anyOrder : ∀ (step : Step) (falling : List GroupId) (c : Cascade),
    Cascade.Ends (s.unsettled step).owned (s.unsettled step).held
      ⟨(s.unsettled step).store, falling⟩ c →
    ∀ id, c.store.group? id = (s.step step).2.store.group? id

end Session

/-! The errors of a group do not speak of released groups. -/

theorem Group.get_error {g : Group} {key : Key} {e : Error} (h : g.get key = .error e) :
    e = .missingKey key.display := by
  rw [get] at h
  split at h
  · cases h
  · cases h
    rfl

theorem Group.set_error {g : Group} {key : Key} {value : Option ObjectRef} {e : Error}
    (h : g.set key value = .error e) :
    e = .missingKey key.display ∨ ∃ v, e = .typeMismatch key.name key.type.text v := by
  rw [set] at h
  split at h
  · cases h
    exact .inl rfl
  · split at h
    · rename_i hcheck
      cases h
      right
      cases value with
      | none => cases hcheck
      | some v =>
        rw [Key.check] at hcheck
        split at hcheck
        · cases hcheck
        · cases hcheck
          exact ⟨_, rfl⟩
    · cases h

namespace Session

variable {s : Session}

theorem Reachable.access (h : s.Reachable) (isOpen : s.isOpen = true) {o : ObjectRef}
    (ho : s.Holds o) (key : Key) (released : GroupId) :
    s.store.readMember o key ≠ .error (.releasedGroup released) ∧
    ∀ value, s.store.writeMember o key value ≠ .error (.releasedGroup released) := by
  obtain ⟨⟨g, hg, -⟩, -⟩ := h.exists_group? isOpen ho
  have hread := Store.read_eq_ok_iff.mpr hg
  constructor
  · intro herror
    rw [Store.readMember, Store.get, hread] at herror
    cases Group.get_error (g := g) herror
  · intro value herror
    rw [Store.writeMember, Store.set, hread] at herror
    cases hset : g.set key value with
    | ok r =>
      change (g.set key value >>= fun r => pure (r.1, s.store.write o.group r.2)) = _ at herror
      rw [hset] at herror
      cases herror
    | error e =>
      change (g.set key value >>= fun r => pure (r.1, s.store.write o.group r.2)) = _ at herror
      rw [hset] at herror
      cases herror
      rcases Group.set_error hset with heq | ⟨v, heq⟩
      · cases heq
      · cases heq

theorem Reachable.ends (h : s.Reachable) (step : Step) (falling : List GroupId) :
    Cascade.Ends (s.unsettled step).owned (s.unsettled step).held
      ⟨(s.unsettled step).store, falling⟩ ⟨(s.step step).2.store, []⟩ :=
  have hsound := (h.steady_unsettled step).sound.store
  ⟨Cascade.steps_tidy hsound _ _ falling, Cascade.over_tidy hsound⟩

/-- **Ownership is exact.**  In every open session there can be, between two steps: a group of
fields is live if and only if a reference to its object is held by the host, by a slot of a live
group, by a thread or by a call that waits; objects in a circle of slots stay; no member access
by way of a reference that is held meets a released group; and what goes after a step goes in
finitely many steps and is the same in whatever order it goes. -/
theorem ownership_exact (h : s.Reachable) (isOpen : s.isOpen = true) : s.OwnsExactly where
  live_iff id := by
    constructor
    · rintro ⟨⟨g, hg, hrole⟩, hid⟩
      exact h.exists_holds hg hrole hid
    · rintro ⟨o, ho, rfl⟩
      exact h.exists_group? isOpen ho
  circle C hC id hid := by
    obtain ⟨user, huser, hvalue⟩ := hC id hid
    obtain ⟨o, ho, rfl⟩ := exists_holds_of_valuesIn hvalue
    obtain ⟨⟨g, hg, -⟩, -⟩ := h.exists_group? isOpen ho
    exact ⟨g, hg, fun drops => (h.circle hC drops hid).trans hg⟩
  access o ho key released := h.access isOpen ho key released
  halts step falling := Cascade.halts _ _ _
  ends := h.ends
  anyOrder step falling c hc := Cascade.group?_eq hc (h.ends step falling)

/-- A host makes two objects that refer to each other, and a third that nothing refers to, and
drops them all. -/
def circleSteps : List Step := [
  .definition (.type "Node" [("next", "Node")] [] [] none none none "node"),
  .object (.instantiate "node" "a"),
  .object (.instantiate "node" "b"),
  .object (.instantiate "node" "c"),
  .object (.write (some "b") "a" "next" false),
  .object (.write (some "a") "b" "next" false),
  .memory (.drop .object "a"),
  .memory (.drop .object "b"),
  .memory (.drop .object "c")]

def circled : Session :=
  ((start {}).steps circleSteps).2

theorem ownership_exact_circled :
    circled.objects.values.length = 0 ∧ circled.store.groups.keys = [1, 2] ∧
      circled.store.valuesIn 1 = [2] ∧ circled.store.valuesIn 2 = [1] ∧ circled.OwnsExactly := by
  refine ⟨?_, ?_, ?_, ?_, ownership_exact (reachable_steps {} circleSteps) ?_⟩
  · decide +kernel
  · decide +kernel
  · decide +kernel
  · decide +kernel
  · decide +kernel

end Session

end Steward
