/-
Assembly: the libraries there can be.

A library is built from a draft, and a draft comes of an empty one, which takes in libraries that
are built, definitions and scripts, one after the other.  What each of these steps checks is
checked for every library below as well, since a dependency was built before:

* **`Assembled.uses`** — whatever an assembled library uses is assembled;
* **`Assembled.definitions`**, **`Assembled.scripts`** — within one library a name stands for one
  definition and for one script;
* **`Assembled.resolves_constructor`** — the constructors of its own types are found;
* **`Session.Reachable.assembled`** — the libraries of a session are like that at all times.
-/
import Steward.Proofs.Identity

namespace Steward

namespace Draft

/-- The drafts there can be. -/
inductive Assembled : Draft → Prop where
  | start (name : String) (statics : GroupId) : Assembled { name, statics }
  | depend {d e : Draft} {l : Library} (h : Assembled d) (below : Assembled e)
      (hl : e.build = .ok l) : Assembled (d.depend l)
  | define {d d' : Draft} {x : Definition} (h : Assembled d) (hd : d.define x = .ok d') :
      Assembled d'
  | addScript {d d' : Draft} {x copy : Script} {stamp : Nat} (h : Assembled d)
      (hd : d.addScript x stamp = .ok (copy, d')) : Assembled d'

theorem name_of_define {d d' : Draft} {x : Definition} (h : d.define x = .ok d') :
    x.name ∉ d.registry.definitions.map Definition.name := by
  obtain ⟨r, hr, -⟩ := bind_eq_ok_iff.mp h
  rw [Registry.register] at hr
  split at hr
  · cases hr
  · rename_i hnew
    intro hmem
    obtain ⟨e, he, hname⟩ := List.mem_map.mp hmem
    obtain ⟨y, hy, -, -⟩ := find?_name_isSome he hname
    exact hnew (by rw [Registry.contains, Registry.find?, hy]; rfl)

theorem name_of_addScript {d d' : Draft} {x copy : Script} {stamp : Nat}
    (h : d.addScript x stamp = .ok (copy, d')) : copy.name ∉ d.scripts.map Script.name := by
  rw [addScript] at h
  split at h
  · cases h
  · rename_i hnew
    cases h
    intro hmem
    obtain ⟨y, hy, hname⟩ := List.mem_map.mp hmem
    exact hnew (List.any_eq_true.mpr ⟨y, hy, beq_iff_eq.mpr hname⟩)

end Draft

/-- The libraries there can be. -/
def Library.Assembled (l : Library) : Prop :=
  ∃ d : Draft, d.Assembled ∧ d.build = .ok l

/-- What a draft is like at all times. -/
structure Draft.Orderly (d : Draft) : Prop where
  dependencies : ∀ l ∈ d.dependencies, l.Assembled
  definitions : (d.registry.definitions.map Definition.name).Nodup
  scripts : (d.scripts.map Script.name).Nodup

theorem Draft.Assembled.orderly {d : Draft} (h : d.Assembled) : d.Orderly := by
  induction h with
  | start => exact ⟨fun l hl => absurd hl List.not_mem_nil, .nil, .nil⟩
  | @depend d e l _ below hl ih _ =>
    refine ⟨?_, ih.definitions, ih.scripts⟩
    intro m hm
    rcases List.mem_append.mp hm with hm | hm
    · exact ih.dependencies m hm
    · obtain rfl := List.mem_singleton.mp hm
      exact ⟨e, below, hl⟩
  | @define d d' x _ hd ih =>
    have hnew := name_of_define hd
    obtain rfl := define_eq_ok hd
    refine ⟨ih.dependencies, ?_, ih.scripts⟩
    rw [List.map_append]
    exact ih.definitions.append (List.nodup_singleton _) (List.disjoint_singleton.mpr hnew)
  | @addScript d d' x copy stamp _ hd ih =>
    have hnew := name_of_addScript hd
    obtain ⟨-, rfl⟩ := addScript_eq_ok hd
    refine ⟨ih.dependencies, ih.definitions, ?_⟩
    rw [List.map_append]
    exact ih.scripts.append (List.nodup_singleton _) (List.disjoint_singleton.mpr hnew)

namespace Library.Assembled

variable {l m : Library}

theorem orderly (h : l.Assembled) : ∃ d : Draft, d.Orderly ∧ l = d.library := by
  obtain ⟨d, hd, hl⟩ := h
  exact ⟨d, hd.orderly, Draft.build_eq_ok hl⟩

theorem definitions (h : l.Assembled) : (l.registry.definitions.map Definition.name).Nodup := by
  obtain ⟨d, hd, rfl⟩ := h.orderly
  exact hd.definitions

theorem scripts (h : l.Assembled) : (l.scripts.map Script.name).Nodup := by
  obtain ⟨d, hd, rfl⟩ := h.orderly
  exact hd.scripts

/-- **What an assembled library uses is assembled.** -/
theorem uses (h : l.Assembled) (hm : l.Uses m) : m.Assembled := by
  induction hm with
  | refl => exact h
  | tail _ hk ih =>
    obtain ⟨d, hd, rfl⟩ := ih.orderly
    exact hd.dependencies _ hk

/-- **A constructor is found**, if it is that of a type of the library itself. -/
theorem resolves_constructor (h : l.Assembled) {t : ObjectType}
    (ht : .type t ∈ l.registry.definitions) {name : Name} (hname : t.ctor = some name) :
    ∃ x, l.resolveScript? name = some x := by
  obtain ⟨d, -, hl⟩ := h
  rw [Draft.build] at hl
  split at hl
  · cases hl
  · rename_i hnone
    cases hl
    -- the name was looked up when the library was built, as was every other one
    have hmem : name ∈ d.registry.definitions.filterMap fun x => x.type?.bind ObjectType.ctor :=
      List.mem_filterMap.mpr ⟨.type t, ht, hname⟩
    have hfound := List.find?_eq_none.mp hnone name hmem
    rwa [Bool.not_eq_true, Option.isNone_eq_false_iff, Option.isSome_iff_exists] at hfound

end Library.Assembled

/-! ### Sessions -/

namespace Session

variable {s s' : Session}

/-- Whether all libraries of a session are assembled, and the drafts too. -/
structure Assembled (s : Session) : Prop where
  drafts : ∀ d ∈ s.drafts.values, d.Assembled
  libraries : ∀ l ∈ s.libraries.values, l.Assembled
  catalog : ∀ l ∈ s.catalog.libraries, l.Assembled

theorem assembled_start (config : Config) : (start config).Assembled where
  drafts _ hd := absurd hd List.not_mem_nil
  libraries _ hl := absurd hl List.not_mem_nil
  catalog _ hl := absurd hl List.not_mem_nil

/-- A draft takes the place of what was under its name. -/
theorem Assembled.drafted (h : s.Assembled) {d : Draft} (hd : d.Assembled) (name : String) :
    ∀ e ∈ (s.drafts.insert name d).values, e.Assembled := by
  intro e he
  rcases Table.mem_values_of_insert he with rfl | he
  · exact hd
  · exact h.drafts e he

theorem Assembled.without (h : s.Assembled) (name : String) (what : Droppable) :
    (s.without name what).Assembled := by
  cases what with
  | builder => exact { h with drafts := fun d hd => h.drafts d (Table.mem_values_of_erase hd) }
  | library =>
    exact { h with libraries := fun l hl => h.libraries l (Table.mem_values_of_erase hl) }
  | object | group | view | thread | lock | pending => exact { h with }

/-- Every effect keeps the libraries assembled. -/
theorem assembled_effect (heff : Effect s s') (h : s.Assembled) : s'.Assembled := by
  cases heff with
  | draft => exact { h with drafts := h.drafted (.start _ _) _ }
  | depend hd known =>
    obtain ⟨e, below, hl⟩ := h.libraries _ known
    have hdraft := h.drafts _ (Table.mem_values_of_find? hd)
    exact { h with drafts := h.drafted (.depend hdraft below hl) _ }
  | define hd _ hd' =>
    have hdraft := h.drafts _ (Table.mem_values_of_find? hd)
    exact { h with drafts := h.drafted (.define hdraft hd') _ }
  | addScript hd hd' =>
    have hdraft := h.drafts _ (Table.mem_values_of_find? hd)
    exact { h with drafts := h.drafted (.addScript hdraft hd') _ }
  | @build d l builder handle hd hl =>
    refine ⟨fun e he => h.drafts e (Table.mem_values_of_erase he), ?_, h.catalog⟩
    intro m hm
    rcases Table.mem_values_of_insert hm with rfl | hm
    · exact ⟨d, h.drafts d (Table.mem_values_of_find? hd), hl⟩
    · exact h.libraries m hm
  | @load l catalog _ known hload =>
    obtain ⟨rfl, -⟩ := Catalog.load_eq_ok hload
    refine ⟨h.drafts, h.libraries, fun m hm => ?_⟩
    rcases List.mem_append.mp hm with hm | hm
    · exact h.catalog m hm
    · obtain rfl := List.mem_singleton.mp hm
      exact h.libraries m known
  | drop => exact h.without _ _
  | close => exact { h with catalog := fun _ hl => absurd hl List.not_mem_nil }
  | resume _ hs =>
    subst hs
    exact { h with }
  | note | remember | lock | pass | contract | type | allocate | operate | enter | wait | script
  | resolve | tidy => exact { h with }

/-- **In every session there can be, libraries are assembled.** -/
theorem Reachable.assembled (h : s.Reachable) : s.Assembled :=
  h.induct assembled_start assembled_effect

end Session

end Steward
