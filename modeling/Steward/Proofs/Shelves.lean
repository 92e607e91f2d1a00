/-
Shelves: which libraries a session has, and how it comes by them.

A library is in use if it is under a name, loaded, being put together, or one that these depend
on.  It is known by its statics, which were made for the draft it was built from, and a draft is
built once.

* **`Effect.restock`** — what an effect can do to the libraries of a session: a draft is started,
  changed, finished or thrown away, or there is nothing new;
* **`Reachable.shelved`** — in every session there can be, libraries in use with the same statics
  are equal, and the scripts of a library use its statics;
* **`Shelved.mem_owned`** — so the session owns the statics of every library in use, by way of
  whichever library they are found first.

Design notes: a draft changes, so its library is in use without being `Built`.  What is built
stays as it is.
-/
import Steward.Proofs.ExactOwnership

namespace Steward

namespace Session

variable {s s' : Session} {m n : Library}

/-- Whether a library that is finished is under a name, loaded, depended on by a draft, or used by
such a one. -/
def Built (s : Session) (m : Library) : Prop :=
  ∃ l, (l ∈ s.libraries.values ∨ l ∈ s.catalog.libraries ∨
    ∃ d ∈ s.drafts.values, l ∈ d.dependencies) ∧ l.Uses m

/-- Whether a library is finished, or being put together. -/
def InUse (s : Session) (m : Library) : Prop :=
  s.Built m ∨ ∃ d ∈ s.drafts.values, m = d.library

theorem built_of_library {l : Library} (hl : l ∈ s.libraries.values) (hm : l.Uses m) : s.Built m :=
  ⟨l, .inl hl, hm⟩

theorem built_of_catalog {l : Library} (hl : l ∈ s.catalog.libraries) (hm : l.Uses m) :
    s.Built m :=
  ⟨l, .inr (.inl hl), hm⟩

/-- What a draft uses besides itself is finished. -/
theorem built_of_draft {d : Draft} (hd : d ∈ s.drafts.values) (hm : d.library.Uses m) :
    m = d.library ∨ s.Built m := by
  rcases Library.uses_iff.mp hm with rfl | ⟨l, hl, hlm⟩
  · exact .inl rfl
  · exact .inr ⟨l, .inr (.inr ⟨d, hd, hl⟩), hlm⟩

/-- What can become of the libraries of a session. -/
inductive Restock (s s' : Session) : Prop where
  /-- There is nothing new. -/
  | keep (drafts : s'.drafts = s.drafts) (built : ∀ m, s'.Built m → s.Built m)
  /-- A draft is started, with statics of its own. -/
  | start (name handle : String)
      (drafts : s'.drafts = s.drafts.insert handle { name, statics := s.store.next })
      (next : s.store.next < s'.store.next) (standing : s.store.next ∈ s'.store.standing)
      (built : ∀ m, s'.Built m → s.Built m)
  /-- A draft is changed; it keeps its statics, and a script it takes in uses them. -/
  | revise {builder : String} {d d' : Draft} (h : s.drafts.find? builder = some d)
      (drafts : s'.drafts = s.drafts.insert builder d') (statics : d'.statics = d.statics)
      (scripts : ∀ x ∈ d'.scripts, x ∈ d.scripts ∨ x.statics = some d.statics ∧
        ∀ id, x.Mentions id → s.Mentions id)
      (built : ∀ m, s'.Built m → s.Built m)
  /-- A draft is finished. -/
  | build {builder : String} {d : Draft} (h : s.drafts.find? builder = some d)
      (drafts : s'.drafts = s.drafts.erase builder)
      (built : ∀ m, s'.Built m → m = d.library ∨ s.Built m)
  /-- A draft is thrown away. -/
  | drop {name : String} (drafts : s'.drafts = s.drafts.erase name)
      (built : ∀ m, s'.Built m → s.Built m)

/-- Libraries that come from a draft in the place of another. -/
theorem built_of_drafted {handle : String} {d : Draft}
    (hd : ∀ l ∈ d.dependencies, ∀ m, l.Uses m → s.Built m)
    (h : Built { s with drafts := s.drafts.insert handle d } m) : s.Built m := by
  obtain ⟨l, hl | hl | ⟨d', hd', hl⟩, hm⟩ := h
  · exact built_of_library hl hm
  · exact built_of_catalog hl hm
  · rcases Table.mem_values_of_insert hd' with rfl | hd'
    · exact hd l hl m hm
    · exact ⟨l, .inr (.inr ⟨d', hd', hl⟩), hm⟩

theorem restock_without (s : Session) (name : String) (what : Droppable) :
    s.Restock (s.without name what) := by
  cases what with
  | builder =>
    refine .drop rfl fun m hm => ?_
    obtain ⟨l, hl | hl | ⟨d, hd, hl⟩, hm⟩ := hm
    · exact built_of_library hl hm
    · exact built_of_catalog hl hm
    · exact ⟨l, .inr (.inr ⟨d, Table.mem_values_of_erase hd, hl⟩), hm⟩
  | library =>
    refine .keep rfl fun m hm => ?_
    obtain ⟨l, hl | hl, hm⟩ := hm
    · exact built_of_library (Table.mem_values_of_erase hl) hm
    · exact ⟨l, .inr hl, hm⟩
  | object | group | view | thread | lock | pending => exact .keep rfl fun m hm => hm

/-- **What an effect can do to the libraries of a session.** -/
theorem Effect.restock (heff : Effect s s') : s.Restock s' := by
  cases heff with
  | @draft name handle isOpen =>
    refine .start name handle rfl (Nat.lt_succ_self _) ?_ fun m hm => ?_
    · refine ⟨⟨.statics, []⟩, ?_, by simp⟩
      rw [Store.allocate, Store.group?_write, if_pos rfl]
    · exact built_of_drafted (fun l hl => absurd hl List.not_mem_nil) (s := s) hm
  | @depend d l builder hd known =>
    refine .revise hd rfl rfl (fun x hx => .inl hx) fun _ => built_of_drafted ?_
    intro l' hl' m hm
    rcases List.mem_append.mp hl' with hl' | hl'
    · exact ⟨l', .inr (.inr ⟨d, Table.mem_values_of_find? hd, hl'⟩), hm⟩
    · obtain rfl := List.mem_singleton.mp hl'
      exact built_of_library known hm
  | @define d d' x builder hd known hd' =>
    obtain rfl := Draft.define_eq_ok hd'
    refine .revise hd rfl rfl (fun x hx => .inl hx) fun _ => built_of_drafted ?_
    exact fun l hl m hm => ⟨l, .inr (.inr ⟨d, Table.mem_values_of_find? hd, hl⟩), hm⟩
  | @addScript d d' x copy builder handle hd hd' given =>
    obtain ⟨hcopy, rfl⟩ := Draft.addScript_eq_ok hd'
    have hmem := Table.mem_values_of_find? hd
    refine .revise hd rfl rfl ?_ fun m hm => built_of_drafted (s := s) ?_ hm
    · intro y hy
      refine (List.mem_append.mp hy).imp_right fun hy => ?_
      obtain rfl := List.mem_singleton.mp hy
      refine ⟨by rw [hcopy]; rfl, fun id hid => ?_⟩
      rw [hcopy] at hid
      rcases Script.mentions_withStatics hid with rfl | hid
      · exact .inr (.inr (.inr (.inl ⟨d, hmem, Library.mentions_iff.mpr (.inl (.inl rfl))⟩)))
      · exact given id hid
    · exact fun l hl m hm => ⟨l, .inr (.inr ⟨d, hmem, hl⟩), hm⟩
  | @build d l builder handle hd hl =>
    obtain rfl := Draft.build_eq_ok hl
    refine .build hd rfl fun m hm => ?_
    obtain ⟨l, hl | hl | ⟨d', hd', hl⟩, hm⟩ := hm
    · rcases Table.mem_values_of_insert hl with rfl | hl
      · exact built_of_draft (Table.mem_values_of_find? hd) hm
      · exact .inr (built_of_library hl hm)
    · exact .inr (built_of_catalog hl hm)
    · exact .inr ⟨l, .inr (.inr ⟨d', Table.mem_values_of_erase hd', hl⟩), hm⟩
  | @load l catalog isOpen known hload =>
    obtain ⟨rfl, -⟩ := Catalog.load_eq_ok hload
    refine .keep rfl fun m hm => ?_
    obtain ⟨l', hl | hl | hl, hm⟩ := hm
    · exact built_of_library hl hm
    · rcases List.mem_append.mp hl with hl | hl
      · exact built_of_catalog hl hm
      · obtain rfl := List.mem_singleton.mp hl
        exact built_of_library known hm
    · exact ⟨l', .inr (.inr hl), hm⟩
  | drop => exact restock_without s _ _
  | close =>
    refine .keep rfl fun m hm => ?_
    obtain ⟨l, hl | hl | hl, hm⟩ := hm
    · exact built_of_library hl hm
    · exact absurd hl List.not_mem_nil
    · exact ⟨l, .inr (.inr hl), hm⟩
  | resume hp hs turn =>
    subst hs
    exact .keep rfl fun m hm => hm
  | note | remember | lock | pass | contract | type | allocate | operate | enter | wait | script
  | resolve | tidy => exact .keep rfl fun m hm => hm

/-! ### Statics -/

/-- What is known of the libraries of a session at all times. -/
structure Shelved (s : Session) : Prop where
  keyed : s.drafts.Keyed
  drafts : (s.drafts.values.map Draft.statics).Nodup
  apart : ∀ d ∈ s.drafts.values, ∀ m, s.Built m → m.statics ≠ d.statics
  one : ∀ m n, s.Built m → s.Built n → m.statics = n.statics → m = n
  scripts : ∀ m, s.InUse m → ∀ x ∈ m.scripts, x.statics = some m.statics

theorem shelved_start (config : Config) : (start config).Shelved := by
  have hbuilt : ∀ m, ¬ (start config).Built m := by
    rintro m ⟨l, hl | hl | ⟨d, hd, -⟩, -⟩
    · exact absurd hl List.not_mem_nil
    · exact absurd hl List.not_mem_nil
    · exact absurd hd List.not_mem_nil
  refine ⟨Table.keyed_empty, .nil, fun d hd => absurd hd List.not_mem_nil,
    fun m _ hm => absurd hm (hbuilt m), ?_⟩
  rintro m (hm | ⟨d, hd, -⟩)
  · exact absurd hm (hbuilt m)
  · exact absurd hd List.not_mem_nil

/-- The statics of the draft under a name, and those of the others. -/
theorem Shelved.draft_nodup (h : s.Shelved) {builder : String} {d : Draft}
    (hd : s.drafts.find? builder = some d) :
    d.statics ∉ (s.drafts.erase builder).values.map Draft.statics ∧
      ((s.drafts.erase builder).values.map Draft.statics).Nodup := by
  have hperm := (h.keyed.values_perm builder).map Draft.statics
  rw [hd] at hperm
  exact List.nodup_cons.mp (hperm.nodup_iff.mp h.drafts)

/-- Libraries in use have statics that were given out. -/
theorem Owners.statics_lt (h : s.Owners) (hm : s.InUse m) : m.statics < s.store.next := by
  rcases hm with ⟨l, hl | hl | ⟨d, hd, hl⟩, hm⟩ | ⟨d, hd, rfl⟩
  · exact (h.libraries l hl m hm).1
  · exact (h.catalog l hl m hm).1
  · exact (h.drafts d hd m (Library.uses_iff.mpr (.inr ⟨l, hl, hm⟩))).1
  · exact (h.drafts d hd _ (.refl _)).1

/-- There is nothing new. -/
theorem Shelved.fewer (h : s.Shelved) (keyed : s'.drafts.Keyed)
    (drafts : s'.drafts.values.Sublist s.drafts.values) (built : ∀ m, s'.Built m → s.Built m) :
    s'.Shelved where
  keyed := keyed
  drafts := h.drafts.sublist (drafts.map Draft.statics)
  apart d hd m hm := h.apart d (drafts.subset hd) m (built m hm)
  one m n hm hn := h.one m n (built m hm) (built n hn)
  scripts m hm := by
    refine h.scripts m (hm.imp (built m) ?_)
    exact fun ⟨d, hd, heq⟩ => ⟨d, drafts.subset hd, heq⟩

/-- A draft takes the place of what was under its name. -/
theorem Shelved.drafted (h : s.Shelved) {handle : String} {d : Draft}
    (drafts : s'.drafts = s.drafts.insert handle d) (built : ∀ m, s'.Built m → s.Built m)
    (hout : d.statics ∉ (s.drafts.erase handle).values.map Draft.statics)
    (hapart : ∀ m, s.Built m → m.statics ≠ d.statics)
    (hscripts : ∀ x ∈ d.scripts, x.statics = some d.statics) : s'.Shelved where
  keyed := drafts ▸ h.keyed.insert _ _
  drafts := by
    have herase := h.drafts.sublist ((s.drafts.values_erase_sublist handle).map Draft.statics)
    rw [drafts, Table.values_insert, List.map_append]
    exact List.Nodup.append herase (List.nodup_singleton _) (by simpa using hout)
  apart d' hd' m hm := by
    rw [drafts] at hd'
    rcases Table.mem_values_of_insert hd' with rfl | hd'
    · exact hapart m (built m hm)
    · exact h.apart d' hd' m (built m hm)
  one m n hm hn := h.one m n (built m hm) (built n hn)
  scripts := by
    rintro m (hm | ⟨d', hd', rfl⟩)
    · exact h.scripts m (.inl (built m hm))
    · rw [drafts] at hd'
      rcases Table.mem_values_of_insert hd' with rfl | hd'
      · exact hscripts
      · exact h.scripts _ (.inr ⟨d', hd', rfl⟩)

theorem shelved_restock (h : s.Restock s') (howners : s.Owners) (hs : s.Shelved) :
    s'.Shelved := by
  cases h with
  | keep drafts built =>
    exact hs.fewer (drafts ▸ hs.keyed) (drafts ▸ List.Sublist.refl _) built
  | start name handle drafts next standing built =>
    have hnew : ∀ m, s.InUse m → m.statics ≠ s.store.next := fun m hm =>
      Nat.ne_of_lt (howners.statics_lt hm)
    refine hs.drafted drafts built ?_ (fun m hm => hnew m (.inl hm))
      fun x hx => absurd hx List.not_mem_nil
    intro hmem
    obtain ⟨d, hd, heq⟩ := List.mem_map.mp hmem
    exact hnew d.library (.inr ⟨d, Table.mem_values_of_erase hd, rfl⟩) heq
  | @revise builder d d' hd drafts statics scripts built =>
    have hmem := Table.mem_values_of_find? hd
    refine hs.drafted drafts built ?_ ?_ ?_
    · rw [statics]
      exact (hs.draft_nodup hd).1
    · rw [statics]
      exact hs.apart d hmem
    · intro x hx
      rw [statics]
      rcases scripts x hx with hx | ⟨hx, -⟩
      · exact hs.scripts d.library (.inr ⟨d, hmem, rfl⟩) x hx
      · exact hx
  | @build builder d hd drafts built =>
    have hmem := Table.mem_values_of_find? hd
    obtain ⟨hout, hnodup⟩ := hs.draft_nodup hd
    refine ⟨drafts ▸ hs.keyed.erase _, drafts ▸ hnodup, ?_, ?_, ?_⟩
    · intro d' hd' m hm
      rw [drafts] at hd'
      rcases built m hm with rfl | hm
      · exact fun heq => hout (List.mem_map.mpr ⟨d', hd', heq.symm⟩)
      · exact hs.apart d' (Table.mem_values_of_erase hd') m hm
    · intro m n hm hn heq
      -- what was finished before has other statics than the draft
      rcases built m hm with rfl | hm
      · rcases built n hn with rfl | hn
        · rfl
        · exact absurd heq.symm (hs.apart d hmem n hn)
      · rcases built n hn with rfl | hn
        · exact absurd heq (hs.apart d hmem m hm)
        · exact hs.one m n hm hn heq
    · rintro m (hm | ⟨d', hd', rfl⟩)
      · rcases built m hm with rfl | hm
        · exact hs.scripts _ (.inr ⟨d, hmem, rfl⟩)
        · exact hs.scripts m (.inl hm)
      · rw [drafts] at hd'
        exact hs.scripts _ (.inr ⟨d', Table.mem_values_of_erase hd', rfl⟩)
  | drop drafts built =>
    exact hs.fewer (drafts ▸ hs.keyed.erase _) (drafts ▸ s.drafts.values_erase_sublist _) built

/-- **In every session there can be, a library is known by its statics**, and its scripts use
them. -/
theorem Reachable.shelved (h : s.Reachable) : s.Steady ∧ s.Shelved :=
  h.induct (P := fun s => s.Steady ∧ s.Shelved)
    (fun config => ⟨steady_start config, shelved_start config⟩)
    fun heff hs => ⟨steady_effect heff hs.1, shelved_restock heff.restock hs.1.owners hs.2⟩

/-- Libraries in use with the same statics are equal. -/
theorem Shelved.unique (h : s.Shelved) (hm : s.InUse m) (hn : s.InUse n)
    (heq : m.statics = n.statics) : m = n := by
  rcases hm with hm | ⟨d, hd, rfl⟩
  · rcases hn with hn | ⟨e, he, rfl⟩
    · exact h.one m n hm hn heq
    · exact absurd heq (h.apart e he m hm)
  · rcases hn with hn | ⟨e, he, rfl⟩
    · exact absurd heq.symm (h.apart d hd n hn)
    · rw [List.inj_on_of_nodup_map h.drafts hd he heq]

/-- **A session owns the statics of every library in use.** -/
theorem Shelved.mem_owned (h : s.Shelved) (hm : s.InUse m) : m.statics ∈ s.owned := by
  have inUse : ∀ l ∈ s.drafts.values.map Draft.library ++ s.libraries.values ++
      s.catalog.libraries, ∀ m, l.Uses m → s.InUse m := by
    intro l hl m hm
    rw [List.mem_append, List.mem_append, List.mem_map] at hl
    rcases hl with (⟨d, hd, rfl⟩ | hl) | hl
    · rcases built_of_draft hd hm with rfl | hm
      · exact .inr ⟨d, hd, rfl⟩
      · exact .inl hm
    · exact .inl (built_of_library hl hm)
    · exact .inl (built_of_catalog hl hm)
  obtain ⟨l, hl, hlm⟩ : ∃ l ∈ s.drafts.values.map Draft.library ++ s.libraries.values ++
      s.catalog.libraries, l.Uses m := by
    rcases hm with ⟨l, hl | hl | ⟨d, hd, hl⟩, hm⟩ | ⟨d, hd, rfl⟩
    · exact ⟨l, List.mem_append_left _ (List.mem_append_right _ hl), hm⟩
    · exact ⟨l, List.mem_append_right _ hl, hm⟩
    · exact ⟨d.library, List.mem_append_left _ (List.mem_append_left _ (List.mem_map_of_mem hd)),
        Library.uses_iff.mpr (.inr ⟨l, hl, hm⟩)⟩
    · exact ⟨d.library, List.mem_append_left _ (List.mem_append_left _ (List.mem_map_of_mem hd)),
        .refl _⟩
  refine List.mem_append_left _ (List.mem_append_right _ ?_)
  refine Library.mem_ownedGroups_of_uses ?_ hl hlm
  exact fun l hl l' hl' m n hm hn => h.unique (inUse l hl m hm) (inUse l' hl' n hn)

end Session

end Steward
