/-
Indexed registries, compared with the definitions they were given.

A registry takes the first definition of every name and refuses the others.  So after any number of
definitions it has those that come first under their names (`firsts`), in their order.

* **`firsts_append_singleton`** — one more definition is one more first one, or none;
* **`Recalls.register`** — to register a definition, or to fail to, keeps definitions and order in
  step;
* **`registry_in_step`** — so both say the same of all that was registered, and so does the
  registry without an index.
-/
import Mathlib.Data.Finset.Card
import Steward.Definition.IndexedRegistry

namespace Steward

open Std (TreeMap)

namespace Definition

/-- The definitions before which no other of their name comes. -/
def firsts (ds : List Definition) : List Definition :=
  (ds.zipIdx.filter fun p => (ds.take p.2).all (·.name != p.1.name)).map Prod.fst

variable {d : Definition} {ds : List Definition} {name : Name}

/-- **One more definition** is a first one if its name is new. -/
theorem firsts_append_singleton (ds : List Definition) (d : Definition) :
    firsts (ds ++ [d]) =
      if d.name ∈ ds.map Definition.name then firsts ds else firsts ds ++ [d] := by
  -- what comes before each of the others is the same
  have hbefore : ds.zipIdx.filter (fun p => ((ds ++ [d]).take p.2).all (·.name != p.1.name)) =
      ds.zipIdx.filter fun p => (ds.take p.2).all (·.name != p.1.name) := by
    refine List.filter_congr fun p hp => ?_
    rw [List.take_append_of_le_length (Nat.le_of_lt (List.snd_lt_of_mem_zipIdx hp))]
  have hnew : (ds.all (·.name != d.name)) = decide (d.name ∉ ds.map Definition.name) := by
    rw [Bool.eq_iff_iff]
    simp
  rw [firsts, List.zipIdx_append, List.filter_append, hbefore, List.map_append]
  change firsts ds ++ _ = _
  simp only [List.zipIdx_singleton, List.filter_singleton, Nat.zero_add, List.take_left, hnew]
  by_cases h : d.name ∈ ds.map Definition.name
  · simp [h]
  · simp [h]

theorem isSome_find? :
    (ds.find? (·.name == name)).isSome = true ↔ name ∈ ds.map Definition.name := by
  simp

theorem find?_firsts (ds : List Definition) (name : Name) :
    (firsts ds).find? (·.name == name) = ds.find? (·.name == name) := by
  induction ds using List.reverseRecOn with
  | nil => rfl
  | append_singleton ds d ih =>
    rw [firsts_append_singleton, List.find?_append]
    split
    · rename_i htaken
      rw [ih]
      by_cases hd : d.name = name
      · rw [Option.or_of_isSome (isSome_find?.mpr (hd ▸ htaken))]
      · simp [hd]
    · rw [List.find?_append, ih]

/-- The first definitions have all the names, each once. -/
theorem names_firsts (ds : List Definition) :
    ((firsts ds).map Definition.name).Nodup ∧
      ∀ name, name ∈ (firsts ds).map Definition.name ↔ name ∈ ds.map Definition.name := by
  induction ds using List.reverseRecOn with
  | nil => exact ⟨List.nodup_nil, fun _ => Iff.rfl⟩
  | append_singleton ds d ih =>
    obtain ⟨hnodup, hmem⟩ := ih
    rw [firsts_append_singleton, List.map_append, List.map_singleton]
    split
    · rename_i htaken
      refine ⟨hnodup, fun name => ?_⟩
      rw [hmem, List.mem_append, List.mem_singleton]
      exact ⟨.inl, fun h => h.elim id fun he => he ▸ htaken⟩
    · rename_i hfree
      rw [List.map_append, List.map_singleton]
      refine ⟨List.Nodup.append hnodup (List.nodup_singleton _) ?_, fun name => ?_⟩
      · exact List.disjoint_singleton.mpr fun h => hfree ((hmem _).mp h)
      · rw [List.mem_append, List.mem_append, hmem]

/-- A first definition is found under its name. -/
theorem find?_of_mem_firsts (h : d ∈ firsts ds) : ds.find? (·.name == d.name) = some d := by
  have hsome : ((firsts ds).find? (·.name == d.name)).isSome = true :=
    isSome_find?.mpr (List.mem_map_of_mem h)
  obtain ⟨x, hx⟩ := Option.isSome_iff_exists.mp hsome
  have hname : x.name = d.name := by simpa using List.find?_some hx
  have hsame := List.inj_on_of_nodup_map (names_firsts ds).1 (List.mem_of_find?_eq_some hx) h hname
  rw [← find?_firsts, hx, hsame]

theorem length_firsts (ds : List Definition) :
    (firsts ds).length = (ds.map Definition.name).toFinset.card := by
  obtain ⟨hnodup, hmem⟩ := names_firsts ds
  have hsame : (ds.map Definition.name).toFinset = ((firsts ds).map Definition.name).toFinset := by
    ext name
    rw [List.mem_toFinset, List.mem_toFinset, hmem]
  rw [hsame, List.toFinset_card_of_nodup hnodup, List.length_map]

end Definition

open Definition

namespace IndexedRegistry

variable {r : IndexedRegistry} {ds : List Definition}

/-- Whether a registry has the first of some definitions under every name, in their order. -/
structure Recalls (r : IndexedRegistry) (ds : List Definition) : Prop where
  find? : ∀ name, r.find? name = ds.find? (·.name == name)
  order : r.order = (firsts ds).map Definition.name
  size : r.size = (firsts ds).length

theorem recalls_nil : Recalls {} [] where
  find? _ := rfl
  order := rfl
  size := rfl

namespace Recalls

variable (h : r.Recalls ds)

include h

theorem contains_iff (name : Name) : r.contains name = true ↔ name ∈ ds.map Definition.name := by
  rw [contains, TreeMap.contains_eq_isSome_getElem?, ← isSome_find?, ← h.find?]
  rfl

theorem list_eq : r.list = firsts ds := by
  have hfound : ∀ d ∈ firsts ds, (r.find? ∘ Definition.name) d = some d := fun d hd =>
    (h.find? d.name).trans (find?_of_mem_firsts hd)
  rw [list, h.order, List.filterMap_map, List.filterMap_congr hfound, List.filterMap_some]

/-- **To register a definition**, or to fail to, keeps definitions and order in step. -/
theorem register (d : Definition) : (r.register d).2.Recalls (ds ++ [d]) := by
  have hfirsts := firsts_append_singleton ds d
  rw [IndexedRegistry.register]
  split
  · rename_i htaken
    rw [h.contains_iff] at htaken
    rw [if_pos htaken] at hfirsts
    refine ⟨fun name => ?_, hfirsts ▸ h.order, hfirsts ▸ h.size⟩
    rw [← find?_firsts, hfirsts, find?_firsts, h.find?]
  · rename_i hfree
    have hnew := hfree
    rw [h.contains_iff] at hnew
    rw [if_neg hnew] at hfirsts
    refine ⟨fun name => ?_, ?_, ?_⟩
    · rw [← find?_firsts, hfirsts, List.find?_append, find?_firsts, ← h.find?,
        IndexedRegistry.find?, TreeMap.getElem?_insert]
      by_cases hname : d.name = name
      · have hnone : r.find? name = none := by
          rw [h.find?, ← Option.not_isSome_iff_eq_none, isSome_find?]
          exact hname ▸ hnew
        rw [hnone]
        simp [hname]
      · have htext : d.name.text ≠ name.text := fun he => hname (Name.mk.injEq .. ▸ he)
        simp [hname, htext, IndexedRegistry.find?]
    · rw [hfirsts, List.map_append, ← h.order]
      rfl
    · rw [hfirsts, List.length_append, ← h.size, IndexedRegistry.size, TreeMap.size_insert,
        if_neg (by simpa [contains] using hfree)]
      rfl

theorem registerAll (more : List Definition) : (r.registerAll more).Recalls (ds ++ more) := by
  induction more generalizing r ds with
  | nil => rwa [List.append_nil]
  | cons d more ih =>
    have hall := ih (h.register d)
    rwa [List.append_assoc] at hall

end Recalls

/-- Everything there is to say of a registry that was given some definitions. -/
structure Works (r : IndexedRegistry) (ds : List Definition) : Prop where
  list : r.list = firsts ds
  distinct : (r.list.map Definition.name).Nodup
  size : r.size = (ds.map Definition.name).toFinset.card
  find? (name : Name) : r.find? name = ds.find? (·.name == name)
  contains (name : Name) : r.contains name = (r.find? name).isSome
  oneKind (name : Name) : ¬ ((r.type? name).isSome = true ∧ (r.contract? name).isSome = true)
  someKind (name : Name) :
    (r.type? name).isSome = true ∨ (r.contract? name).isSome = true ↔
      (r.find? name).isSome = true
  taken (d : Definition) : d.name ∈ ds.map Definition.name →
    r.register d = (.error (.definition d.name.text [.alreadyDefined d.name.text]), r)
  free (d : Definition) : d.name ∉ ds.map Definition.name → (r.register d).1 = .ok ()

theorem Recalls.works (h : r.Recalls ds) : r.Works ds where
  list := h.list_eq
  distinct := h.list_eq ▸ (names_firsts ds).1
  size := h.size.trans (length_firsts ds)
  find? := h.find?
  contains name := TreeMap.contains_eq_isSome_getElem?
  oneKind name := by
    rw [type?, contract?]
    rcases r.find? name with _ | t | c <;> simp [Definition.type?, Definition.contract?]
  someKind name := by
    rw [type?, contract?]
    rcases r.find? name with _ | t | c <;> simp [Definition.type?, Definition.contract?]
  taken d hd := by rw [IndexedRegistry.register, if_pos ((h.contains_iff _).mpr hd)]
  free d hd := by rw [IndexedRegistry.register, if_neg (mt (h.contains_iff _).mp hd)]

end IndexedRegistry

namespace Registry

/-- Whether a registry answers as an indexed one does. -/
structure Matches (q : Registry) (r : IndexedRegistry) : Prop where
  definitions : q.definitions = r.list
  size : q.size = r.size
  find? (name : Name) : q.find? name = r.find? name
  type? (name : Name) : q.type? name = r.type? name
  contract? (name : Name) : q.contract? name = r.contract? name
  contains (name : Name) : q.contains name = r.contains name
  register (d : Definition) :
    q.register d = (r.register d).1.map fun _ => (r.register d).2.toRegistry

/-- A registry that has the first definitions answers as an indexed one that does. -/
theorem matches_of_definitions {q : Registry} {r : IndexedRegistry} {ds : List Definition}
    (hq : q.definitions = firsts ds) (h : r.Recalls ds) : q.Matches r := by
  have hfind : ∀ name, q.find? name = r.find? name := fun name => by
    rw [find?, hq, find?_firsts, h.find?]
  have hcontains : ∀ name, q.contains name = r.contains name := fun name => by
    rw [contains, hfind, h.works.contains]
  refine ⟨hq.trans h.list_eq.symm, ?_, hfind, fun name => ?_, fun name => ?_, hcontains,
    fun d => ?_⟩
  · rw [size, hq, h.size]
  · rw [type?, hfind, IndexedRegistry.type?]
  · rw [contract?, hfind, IndexedRegistry.contract?]
  · by_cases htaken : d.name ∈ ds.map Definition.name
    · rw [register, hcontains, if_pos ((h.contains_iff _).mpr htaken), h.works.taken d htaken]
      rfl
    · have hnext := (h.register d).list_eq
      rw [firsts_append_singleton, if_neg htaken, ← hq] at hnext
      rw [register, hcontains, if_neg (mt (h.contains_iff _).mp htaken), h.works.free d htaken,
        IndexedRegistry.toRegistry, hnext]
      rfl

theorem definitions_registerAll (ds : List Definition) :
    (registerAll {} ds).definitions = firsts ds := by
  induction ds using List.reverseRecOn with
  | nil => rfl
  | append_singleton ds d ih =>
    have hrecalls : (IndexedRegistry.registerAll {} ds).Recalls ds :=
      IndexedRegistry.recalls_nil.registerAll ds
    have hstep : registerAll {} (ds ++ [d]) =
        ((registerAll {} ds).register d).toOption.getD (registerAll {} ds) := by
      rw [registerAll, List.foldl_append]
      rfl
    rw [hstep, (matches_of_definitions ih hrecalls).register]
    have hnext := (hrecalls.register d).list_eq
    rw [firsts_append_singleton] at hnext ⊢
    split at hnext <;> rename_i htaken
    · rw [hrecalls.works.taken d htaken, if_pos htaken]
      exact ih
    · rw [hrecalls.works.free d htaken, if_neg htaken]
      exact hnext

end Registry

/-- **Definitions and order of a registry stay in step.**  After any definitions were registered,
or refused, a registry lists those that come first under their names, in their order; it has as
many as there are names, finds each under its name, as a type or as a contract and never as both,
and refuses a definition of a name that is taken, which leaves it as it was.  The registry
without an index says the same. -/
theorem registry_in_step (ds : List Definition) :
    (IndexedRegistry.registerAll {} ds).Works ds ∧
      (Registry.registerAll {} ds).Matches (IndexedRegistry.registerAll {} ds) := by
  have hrecalls := IndexedRegistry.recalls_nil.registerAll ds
  exact ⟨hrecalls.works,
    Registry.matches_of_definitions (Registry.definitions_registerAll ds) hrecalls⟩

/-- A name is taken for types and contracts alike, and stays where it was first. -/
example (t u : ObjectType) (c : Contract) (ht : t.name = ⟨"T"⟩) (hc : c.name = ⟨"T"⟩)
    (hu : u.name = ⟨"U"⟩) :
    (IndexedRegistry.registerAll {} [.type t, .contract c, .type u]).list = [.type t, .type u] := by
  rw [(IndexedRegistry.recalls_nil.registerAll _).list_eq]
  simp [Definition.firsts, Definition.name, ht, hc, hu]

end Steward
