/-
Searches: looking a name up in a library is looking through what a walk meets.

A search stops at the first answer and a walk goes on to the end, and both keep the names they
have met.  Up to where the search stops it has met what the walk has met:

* **`visited_search`** — a search leaves the names of the libraries on the walk up to the first
  that has an answer (`upTo`), in that order;
* **`nodup_visited_walk`** — no name is met twice;
* **`find?_filterMap_of_nodup`** — where the names of definitions are different, the first type of
  a name is the first definition of that name, if it is a type;
* **`search_agrees_with_walk`** — so every look-up in a library is a look-up in the lists that a
  walk gives, however its dependencies are shared, repeated or called.

Design notes: a registry looks for a definition of the name before it asks for the kind.  That a
type is not hidden there by a contract of its name rests on how libraries are put together
(`Library.Assembled`).
-/
import Steward.Proofs.Assembly
import Steward.Proofs.Loading
import Steward.Proofs.Lookups

namespace Steward

namespace Library

variable {l m : Library}

/-! ### Names met -/

section Visited

variable {α : Type}

/-- The libraries up to the first that has an answer, itself included. -/
def upTo (find : Library → Option α) : List Library → List Library
  | [] => []
  | l :: ls => if (find l).isSome then [l] else l :: upTo find ls

theorem upTo_append (find : Library → Option α) (ls ms : List Library) :
    upTo find (ls ++ ms) =
      if (ls.findSome? find).isSome then upTo find ls else ls ++ upTo find ms := by
  induction ls with
  | nil => rfl
  | cons l ls ih =>
    rw [List.cons_append, upTo, upTo, List.findSome?_cons]
    cases hl : find l with
    | some a => rfl
    | none =>
      simp only [Option.isSome_none, Bool.false_eq_true, if_false]
      rw [ih]
      split <;> rfl

theorem upTo_eq_self {find : Library → Option α} {ls : List Library}
    (h : ls.findSome? find = none) : upTo find ls = ls := by
  have happend := upTo_append find ls []
  rwa [List.append_nil, h, upTo, List.append_nil] at happend

theorem upTo_sublist (find : Library → Option α) (ls : List Library) :
    (upTo find ls).Sublist ls := by
  induction ls with
  | nil => exact .slnil
  | cons l ls ih =>
    rw [upTo]
    split
    · exact (List.nil_sublist ls).cons_cons l
    · exact ih.cons_cons l

mutual

/-- **The names that a search leaves behind** are those of the libraries on the walk, the last one
met first, up to the first library that has an answer. -/
theorem visited_search (find : Library → Option α) (visited : List String) :
    ∀ l : Library, (l.search find visited).2 =
      ((upTo find (l.walk visited).1).map name).reverse ++ visited
  | ⟨name, dependencies, registry, scripts, statics⟩ => by
    rw [search, walk]
    split
    · rfl
    · rw [upTo]
      split
      · rename_i a hfind
        rw [hfind]
        rfl
      · rename_i hfind
        rw [visited_searchAll find (name :: visited) dependencies, hfind]
        simp

theorem visited_searchAll (find : Library → Option α) (visited : List String) :
    ∀ ls : List Library, (searchAll find visited ls).2 =
      ((upTo find (walkAll visited ls).1).map name).reverse ++ visited
  | [] => rfl
  | l :: ls => by
    have first := visited_search find visited l
    obtain ⟨hanswer, hleft⟩ := @search_walk _ find visited l
    rw [searchAll, walkAll, upTo_append, ← hanswer]
    split
    · rename_i a visited' heq
      rw [heq] at first ⊢
      exact first
    · -- without an answer the search has met the whole walk, and goes on where the walk does
      rename_i visited' heq
      rw [heq] at first hanswer hleft ⊢
      rw [upTo_eq_self hanswer.symm] at first
      obtain rfl : visited' = (l.walk visited).2 := hleft rfl
      rw [visited_searchAll find (l.walk visited).2 ls, if_neg (by simp)]
      simp only [List.map_append, List.reverse_append, List.append_assoc]
      rw [← first]

end

/-- A walk is a search that nothing ends. -/
theorem visited_walk (visited : List String) (l : Library) :
    (l.walk visited).2 = ((l.walk visited).1.map name).reverse ++ visited := by
  have hnone : (l.walk visited).1.findSome? (fun _ => (none : Option Unit)) = none :=
    List.findSome?_eq_none_iff.mpr fun _ _ => rfl
  obtain ⟨hanswer, hleft⟩ := @search_walk _ (fun _ => (none : Option Unit)) visited l
  rw [← hleft (hanswer.trans hnone), visited_search, upTo_eq_self hnone]

mutual

/-- No name is met twice. -/
theorem nodup_visited_walk {visited : List String} (h : visited.Nodup) :
    ∀ l : Library, (l.walk visited).2.Nodup
  | ⟨name, dependencies, registry, scripts, statics⟩ => by
    rw [walk]
    split
    · exact h
    · rename_i hnew
      exact nodup_visited_walkAll (List.nodup_cons.mpr ⟨hnew, h⟩) dependencies

theorem nodup_visited_walkAll {visited : List String} (h : visited.Nodup) :
    ∀ ls : List Library, (walkAll visited ls).2.Nodup
  | [] => h
  | l :: ls => by
    rw [walkAll]
    exact nodup_visited_walkAll (nodup_visited_walk h l) ls

end

theorem nodup_closure (l : Library) : (l.closure.map name).Nodup := by
  have h := nodup_visited_walk List.nodup_nil l
  rwa [visited_walk, List.append_nil, List.nodup_reverse] at h

theorem nodup_visited_search (find : Library → Option α) (l : Library) :
    (l.search find []).2.Nodup := by
  rw [visited_search, List.append_nil, List.nodup_reverse]
  exact l.nodup_closure.sublist ((upTo_sublist find l.closure).map name)

end Visited

/-! ### Kinds of definitions -/

/-- Where the names of definitions are different, looking for one that is of some kind is looking
for one and asking whether it is of that kind. -/
theorem find?_filterMap_of_nodup {γ : Type} {pick : Definition → Option γ} {name : γ → Name}
    (hpick : ∀ d a, pick d = some a → name a = d.name) {ds : List Definition}
    (h : (ds.map Definition.name).Nodup) (n : Name) :
    (ds.filterMap pick).find? (name · == n) = (ds.find? (·.name == n)).bind pick := by
  induction ds with
  | nil => rfl
  | cons d ds ih =>
    rw [List.map_cons, List.nodup_cons] at h
    obtain ⟨hnew, hrest⟩ := h
    by_cases hn : d.name = n
    · rw [List.find?_cons_of_pos (by simpa using hn), Option.bind_some]
      cases hd : pick d with
      | some a =>
        rw [List.filterMap_cons_some hd,
          List.find?_cons_of_pos (by simpa [hpick d a hd] using hn)]
      | none =>
        -- what follows has other names, of whatever kind it is
        rw [List.filterMap_cons_none hd, List.find?_eq_none]
        intro a ha
        obtain ⟨e, he, hea⟩ := List.mem_filterMap.mp ha
        rw [hpick e a hea, beq_iff_eq, ← hn]
        exact fun heq => hnew (List.mem_map.mpr ⟨e, he, heq⟩)
    · rw [List.find?_cons_of_neg (by simpa using hn), ← ih hrest]
      cases hd : pick d with
      | some a =>
        rw [List.filterMap_cons_some hd,
          List.find?_cons_of_neg (by simpa [hpick d a hd] using hn)]
      | none => rw [List.filterMap_cons_none hd]

/-- A search for one kind of definition finds the first of that kind on the walk. -/
theorem search_kind {γ : Type} {pick : Definition → Option γ} {name : γ → Name}
    (hpick : ∀ d a, pick d = some a → name a = d.name)
    (h : ∀ m ∈ l.closure, (m.registry.definitions.map Definition.name).Nodup) (n : Name) :
    (l.search (fun m => (m.registry.find? n).bind pick) []).1 =
      (l.reachableDefinitions.filterMap pick).find? (name · == n) := by
  rw [search_eq, reachableDefinitions, List.filterMap_flatMap, List.find?_flatMap]
  generalize l.closure = ms at h ⊢
  induction ms with
  | nil => rfl
  | cons m ms ih =>
    obtain ⟨hm, hms⟩ := List.forall_mem_cons.mp h
    rw [List.findSome?_cons, List.findSome?_cons, find?_filterMap_of_nodup hpick hm, ih hms]
    rfl

/-! ### Scripts -/

/-- Where the names of scripts are different, a library has one script of a name at most. -/
theorem ownScript?_eq_some_iff (h : (l.scripts.map Script.name).Nodup) {n : Name} {x : Script} :
    l.ownScript? n = some x ↔ x ∈ l.scripts ∧ x.name = n := by
  constructor
  · intro hx
    exact ⟨List.mem_of_find?_eq_some hx, by simpa using List.find?_some hx⟩
  · rintro ⟨hx, hn⟩
    obtain ⟨y, hy, hmem, hyn⟩ := find?_name_isSome hx hn
    rwa [List.inj_on_of_nodup_map h hx hmem (hn.trans hyn.symm)]

theorem ownScript?_eq_none_iff {n : Name} :
    l.ownScript? n = none ↔ ∀ x ∈ l.scripts, x.name ≠ n := by
  simp [ownScript?]

/-! ### Look-ups -/

/-- Whether looking names up in a library is looking through what a walk from it meets. -/
structure FollowsWalk (l : Library) : Prop where
  definition : ∀ n, l.resolve? n = l.reachableDefinitions.find? (·.name == n)
  unknown : ∀ n, l.resolve? n = none ↔ ∀ d ∈ l.reachableDefinitions, d.name ≠ n
  type : ∀ n, l.resolveType? n =
    (l.reachableDefinitions.filterMap Definition.type?).find? (·.name == n)
  contract : ∀ n, l.resolveContract? n =
    (l.reachableDefinitions.filterMap Definition.contract?).find? (·.name == n)
  /-- It is the script of the first library that has one. -/
  script : ∀ n x, l.resolveScript? n = some x ↔ ∃ before m after,
    l.closure = before ++ m :: after ∧ (∀ k ∈ before, ∀ y ∈ k.scripts, y.name ≠ n) ∧
      x ∈ m.scripts ∧ x.name = n
  noScript : ∀ n, l.resolveScript? n = none ↔ ∀ m ∈ l.closure, ∀ x ∈ m.scripts, x.name ≠ n
  /-- What is searched for does not change the way, only where it ends. -/
  searched : ∀ {α : Type} (find : Library → Option α),
    (l.search find []).2.reverse = (upTo find l.closure).map name
  walked : (l.walk []).2.reverse = l.closure.map name
  walkedOnce : (l.walk []).2.Nodup
  searchedOnce : ∀ {α : Type} (find : Library → Option α), (l.search find []).2.Nodup

theorem Assembled.followsWalk (h : l.Assembled) : l.FollowsWalk where
  definition := l.resolve?_eq
  unknown n := by simp [resolve?_eq]
  type n := by
    refine search_kind ?_ (fun m hm => (h.uses (uses_of_mem_walk hm)).definitions) n
    intro d t hd
    cases d with
    | type t' => exact congrArg ObjectType.name (Option.some.inj hd.symm)
    | contract k => cases hd
  contract n := by
    refine search_kind ?_ (fun m hm => (h.uses (uses_of_mem_walk hm)).definitions) n
    intro d k hd
    cases d with
    | type t => cases hd
    | contract k' => exact congrArg Contract.name (Option.some.inj hd.symm)
  script n x := by
    rw [resolveScript?, search_eq, List.findSome?_eq_some_iff]
    simp only [ownScript?_eq_none_iff]
    constructor
    · rintro ⟨before, m, after, hclosure, hx, hbefore⟩
      exact ⟨before, m, after, hclosure, hbefore, List.mem_of_find?_eq_some hx,
        by simpa using List.find?_some hx⟩
    · rintro ⟨before, m, after, hclosure, hbefore, hx⟩
      have hm : m ∈ l.closure := by simp [hclosure]
      have hnodup := (h.uses (uses_of_mem_walk hm)).scripts
      exact ⟨before, m, after, hclosure, (ownScript?_eq_some_iff hnodup).mpr hx, hbefore⟩
  noScript n := by
    rw [resolveScript?, search_eq, List.findSome?_eq_none_iff]
    simp only [ownScript?_eq_none_iff]
  searched find := by
    rw [visited_search, List.append_nil, List.reverse_reverse]
    rfl
  walked := by
    rw [visited_walk, List.append_nil, List.reverse_reverse]
    rfl
  walkedOnce := nodup_visited_walk List.nodup_nil l
  searchedOnce find := nodup_visited_search find l

end Library

/-- **Search agrees with walk.**  In every library that can be put together a name stands for the
first definition, type or contract of that name among what is reachable, and for the script of
the first library on the walk that has one.  Whatever is searched for, a search meets the
libraries of the walk in their order, up to the first that has an answer, and no name twice.  The
libraries of a session are of this kind. -/
theorem search_agrees_with_walk :
    (∀ l : Library, l.Assembled → l.FollowsWalk) ∧
    ∀ s : Session, s.Reachable → ∀ l, l ∈ s.libraries.values ∨ l ∈ s.catalog.libraries →
      l.FollowsWalk := by
  refine ⟨fun l h => h.followsWalk, ?_⟩
  rintro s hs l (hl | hl)
  · exact (hs.assembled.libraries l hl).followsWalk
  · exact (hs.assembled.catalog l hl).followsWalk

namespace Shared

/-- A library that uses the third one twice, and another one of the name of the third. -/
def crossed : Library := ⟨"crossed", [left, right, otherBase], {}, [], 7⟩

theorem assembled_base : base.Assembled :=
  ⟨_, .define (.start "base" 0) (x := .type point) rfl, rfl⟩

theorem assembled_crossed : crossed.Assembled := by
  obtain ⟨b, hb, hbase⟩ := assembled_base
  have hleft := Draft.Assembled.depend (.start "left" 1) hb hbase
  have hright := Draft.Assembled.depend (.start "right" 2) hb hbase
  have hother := Draft.Assembled.define (.start "base" 4) (x := .type circle) rfl
  refine ⟨_, ((Draft.Assembled.start "crossed" 7).depend hleft (l := left) rfl
    |>.depend hright (l := right) rfl).depend hother (l := otherBase) rfl, rfl⟩

end Shared

open Shared in
/-- The third library is met once, and the other one of its name is not met: what it defines is
not found.  In a session both libraries look the type up in what they reach. -/
theorem search_agrees_with_walk_crossed :
    crossed.closure.map Library.name = ["crossed", "left", "base", "right"] ∧
    crossed.resolveType? point.name = some point ∧
    (crossed.search (·.registry.type? point.name) []).2 = ["base", "left", "crossed"] ∧
    crossed.resolveType? circle.name = none ∧
    (crossed.search (·.registry.type? circle.name) []).2.Nodup ∧
    shaped.catalog.libraries.map Library.name = ["base", "shapes"] ∧
    ∀ l ∈ shaped.catalog.libraries,
      l.resolve? point.name = l.reachableDefinitions.find? (·.name == point.name) := by
  have follows := search_agrees_with_walk.1 crossed assembled_crossed
  have hshaped : shaped.Reachable := Session.reachable_steps {} shapeSteps
  refine ⟨rfl, ?_, ?_, ?_, follows.searchedOnce _, by decide +kernel, ?_⟩
  · rw [follows.type]
    rfl
  · rw [← List.reverse_inj, follows.searched]
    rfl
  · rw [follows.type]
    rfl
  · intro l hl
    exact (search_agrees_with_walk.2 shaped hshaped l (.inr hl)).definition _

end Steward
