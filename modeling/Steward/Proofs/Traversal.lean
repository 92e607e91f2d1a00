/-
Traversal: which libraries a library leads to, and what is found on the way.

Two traversals go through the dependencies of a library, with the names met so far left
behind: `walk` lists the libraries it meets, and `search` stops at the first that has an
answer.  They meet the same libraries in the same order:

* **`search_eq`** — searching is looking through the walk, up to the first answer;
* **`resolve?_eq`**, **`resolveScript?_eq`** — so a name stands for the first definition, or
  script, of that name in what is reachable.

`Uses` is dependence in any number of steps.  A walk stays inside of it, but need not meet
all of it, since two libraries of one name count as one:

* **`mem_closure_iff`** — where the libraries that are used have different names, all of them
  are met.

What a library keeps live is found by a third traversal, which goes by statics:

* **`mem_ownedGroups_of_uses`** — where the libraries that are used have different statics, all
  of these are kept live.
-/
import Mathlib.Logic.Relation
import Steward.Library

namespace Steward

namespace Library

/-- Whether a library is, or depends in any number of steps on, another. -/
def Uses (l m : Library) : Prop :=
  Relation.ReflTransGen (fun a b => b ∈ a.dependencies) l m

theorem Uses.refl (l : Library) : l.Uses l :=
  Relation.ReflTransGen.refl

/-- Dependence, by its first step. -/
theorem uses_iff {l m : Library} : l.Uses m ↔ m = l ∨ ∃ d ∈ l.dependencies, d.Uses m := by
  rw [Uses, Relation.ReflTransGen.cases_head_iff]
  constructor
  · rintro (h | ⟨d, hd, h⟩)
    · exact .inl h.symm
    · exact .inr ⟨d, hd, h⟩
  · rintro (h | ⟨d, hd, h⟩)
    · exact .inl h.symm
    · exact .inr ⟨d, hd, h⟩

mutual

theorem uses_of_mem_walk {visited : List String} {m : Library} :
    ∀ {l : Library}, m ∈ (l.walk visited).1 → l.Uses m
  | ⟨name, dependencies, registry, scripts, statics⟩, h => by
    rw [walk] at h
    split at h
    · exact absurd h List.not_mem_nil
    · -- the library itself, then whatever its dependencies lead to
      rcases List.mem_cons.mp h with rfl | h
      · exact .refl _
      · obtain ⟨d, hd, hdm⟩ := uses_of_mem_walkAll h
        exact uses_iff.mpr (.inr ⟨d, hd, hdm⟩)

theorem uses_of_mem_walkAll {visited : List String} {m : Library} :
    ∀ {ls : List Library}, m ∈ (walkAll visited ls).1 → ∃ l ∈ ls, l.Uses m
  | [], h => absurd h List.not_mem_nil
  | l :: ls, h => by
    rw [walkAll] at h
    rcases List.mem_append.mp h with h | h
    · exact ⟨l, List.mem_cons_self, uses_of_mem_walk h⟩
    · obtain ⟨l', hl', hm⟩ := uses_of_mem_walkAll h
      exact ⟨l', List.mem_cons_of_mem l hl', hm⟩

end

/-- What going through `ls` does that starts with the groups `owned` and ends with `after`: the
statics of what it was given are there, and whatever is there and was not before are the statics
of a library that is used, with those of all it depends on. -/
structure Owns (owned : List GroupId) (ls : List Library) (after : List GroupId) : Prop where
  kept : ∀ id ∈ owned, id ∈ after
  given : ∀ l ∈ ls, l.statics ∈ after
  next : ∀ id ∈ after, id ∈ owned ∨ ∃ l ∈ ls, ∃ m, l.Uses m ∧ m.statics = id ∧
    ∀ d ∈ m.dependencies, d.statics ∈ after

mutual

theorem owns_own (owned : List GroupId) : ∀ l : Library, Owns owned [l] (l.own owned)
  | ⟨name, dependencies, registry, scripts, statics⟩ => by
    rw [own]
    split
    · rename_i hseen
      refine ⟨fun _ hid => hid, ?_, fun _ hid => .inl hid⟩
      intro l hl
      obtain rfl := List.mem_singleton.mp hl
      exact hseen
    · have below := owns_ownAll (statics :: owned) dependencies
      refine ⟨fun id hid => below.kept id (List.mem_cons_of_mem statics hid), ?_, ?_⟩
      · intro l hl
        obtain rfl := List.mem_singleton.mp hl
        exact below.kept statics List.mem_cons_self
      · intro id hid
        rcases below.next id hid with hid | ⟨d, hd, m, hdm, hrest⟩
        · rcases List.mem_cons.mp hid with rfl | hid
          · exact .inr ⟨_, List.mem_singleton_self _, _, .refl _, rfl, below.given⟩
          · exact .inl hid
        · exact .inr ⟨_, List.mem_singleton_self _, m, uses_iff.mpr (.inr ⟨d, hd, hdm⟩), hrest⟩

theorem owns_ownAll (owned : List GroupId) : ∀ ls : List Library, Owns owned ls (ownAll owned ls)
  | [] => ⟨fun _ hid => hid, fun _ hl => absurd hl List.not_mem_nil, fun _ hid => .inl hid⟩
  | l :: ls => by
    have first := owns_own owned l
    have rest := owns_ownAll (l.own owned) ls
    rw [ownAll]
    refine ⟨fun id hid => rest.kept id (first.kept id hid), ?_, ?_⟩
    · exact List.forall_mem_cons.mpr
        ⟨rest.kept _ (first.given l (List.mem_singleton_self l)), rest.given⟩
    · intro id hid
      rcases rest.next id hid with hid | ⟨l', hl', hm⟩
      · rcases first.next id hid with hid | ⟨l', hl', m, hm, hstatics, hdependencies⟩
        · exact .inl hid
        · obtain rfl := List.mem_singleton.mp hl'
          exact .inr ⟨l', List.mem_cons_self, m, hm, hstatics,
            fun d hd => rest.kept _ (hdependencies d hd)⟩
      · exact .inr ⟨l', List.mem_cons_of_mem l hl', hm⟩

end

/-- What some libraries keep live are statics of libraries that they use, -/
theorem uses_of_mem_ownedGroups {ls : List Library} {id : GroupId} (h : id ∈ ownedGroups ls) :
    ∃ l ∈ ls, ∃ m, l.Uses m ∧ m.statics = id := by
  rcases (owns_ownAll [] ls).next id h with h | ⟨l, hl, m, hm, hid, -⟩
  · exact absurd h List.not_mem_nil
  · exact ⟨l, hl, m, hm, hid⟩

/-- and they keep the statics of all of these live, if different libraries have different
statics. -/
theorem mem_ownedGroups_of_uses {ls : List Library}
    (apart : ∀ l ∈ ls, ∀ l' ∈ ls, ∀ m n, l.Uses m → l'.Uses n → m.statics = n.statics → m = n)
    {l m : Library} (hl : l ∈ ls) (hm : l.Uses m) : m.statics ∈ ownedGroups ls := by
  have owns := owns_ownAll [] ls
  induction hm with
  | refl => exact owns.given l hl
  | @tail m d hlm hd ih =>
    rcases owns.next m.statics ih with h | ⟨l', hl', n, hn, hstatics, hdependencies⟩
    · exact absurd h List.not_mem_nil
    · -- the library that was gone through for these statics is the one that depends on `d`
      rw [apart l' hl' l hl n m hn hlm hstatics] at hdependencies
      exact hdependencies d hd

/-- What a walk over `ls` does that starts with the names `visited`, finds the libraries `found`
and ends with the names `after`: it leaves behind the names of what it was given, of what it
found and of what that depends on, and no others. -/
structure Meets (visited : List String) (ls found : List Library) (after : List String) :
    Prop where
  kept : ∀ n ∈ visited, n ∈ after
  given : ∀ l ∈ ls, l.name ∈ after
  next : ∀ m ∈ found, ∀ d ∈ m.dependencies, d.name ∈ after
  named : ∀ n ∈ after, n ∈ visited ∨ ∃ m ∈ found, m.name = n

mutual

theorem meets_walk (visited : List String) :
    ∀ l : Library, Meets visited [l] (l.walk visited).1 (l.walk visited).2
  | ⟨name, dependencies, registry, scripts, statics⟩ => by
    rw [walk]
    split
    · rename_i hseen
      refine ⟨fun _ hn => hn, ?_, fun _ hm => absurd hm List.not_mem_nil, fun _ hn => .inl hn⟩
      intro l hl
      obtain rfl := List.mem_singleton.mp hl
      exact hseen
    · have below := meets_walkAll (name :: visited) dependencies
      have hname := below.kept name List.mem_cons_self
      refine ⟨fun n hn => below.kept n (List.mem_cons_of_mem name hn), ?_, ?_, ?_⟩
      · intro l hl
        obtain rfl := List.mem_singleton.mp hl
        exact hname
      · exact List.forall_mem_cons.mpr ⟨below.given, below.next⟩
      · intro n hn
        rcases below.named n hn with hn | ⟨m, hm, hmn⟩
        · rcases List.mem_cons.mp hn with rfl | hn
          · exact .inr ⟨_, List.mem_cons_self, rfl⟩
          · exact .inl hn
        · exact .inr ⟨m, List.mem_cons_of_mem _ hm, hmn⟩

theorem meets_walkAll (visited : List String) :
    ∀ ls : List Library, Meets visited ls (walkAll visited ls).1 (walkAll visited ls).2
  | [] => ⟨fun _ hn => hn, fun _ hl => absurd hl List.not_mem_nil,
      fun _ hm => absurd hm List.not_mem_nil, fun _ hn => .inl hn⟩
  | l :: ls => by
    have first := meets_walk visited l
    have rest := meets_walkAll (l.walk visited).2 ls
    rw [walkAll]
    refine ⟨fun n hn => rest.kept n (first.kept n hn), ?_, ?_, ?_⟩
    · exact List.forall_mem_cons.mpr
        ⟨rest.kept _ (first.given l (List.mem_singleton_self l)), rest.given⟩
    · intro m hm d hd
      rcases List.mem_append.mp hm with hm | hm
      · exact rest.kept _ (first.next m hm d hd)
      · exact rest.next m hm d hd
    · intro n hn
      rcases rest.named n hn with hn | ⟨m, hm, hmn⟩
      · rcases first.named n hn with hn | ⟨m, hm, hmn⟩
        · exact .inl hn
        · exact .inr ⟨m, List.mem_append_left _ hm, hmn⟩
      · exact .inr ⟨m, List.mem_append_right _ hm, hmn⟩

end

/-- Whether the libraries that a library uses, itself included, have different names. -/
def NamesApart (l : Library) : Prop :=
  ∀ m n, l.Uses m → l.Uses n → m.name = n.name → m = n

/-- A library of the name of each dependency is met. -/
theorem exists_mem_closure {l m d : Library} (hm : m ∈ l.closure) (hd : d ∈ m.dependencies) :
    ∃ e ∈ l.closure, e.name = d.name := by
  have meets := meets_walk [] l
  rcases meets.named d.name (meets.next m hm d hd) with hn | he
  · exact absurd hn List.not_mem_nil
  · exact he

/-- **A walk meets every library that is used**, if these have different names. -/
theorem mem_closure_iff {l m : Library} (h : l.NamesApart) : m ∈ l.closure ↔ l.Uses m := by
  constructor
  · exact uses_of_mem_walk
  · intro hm
    induction hm with
    | refl =>
      cases l
      exact List.mem_cons_self
    | @tail m d hlm hd ih =>
      obtain ⟨e, he, hname⟩ := exists_mem_closure ih hd
      -- the library met under the name of the dependency is the dependency
      rwa [← h e d (uses_of_mem_walk he) (hlm.tail hd) hname]

section Search

variable {α : Type} {find : Library → Option α}

mutual

/-- A search gives the first answer on the walk; if there is none, it has left the same names
behind, so that the next search goes on from where the next walk does. -/
theorem search_walk (visited : List String) :
    ∀ l : Library, (l.search find visited).1 = (l.walk visited).1.findSome? find ∧
      ((l.search find visited).1 = none → (l.search find visited).2 = (l.walk visited).2)
  | ⟨name, dependencies, registry, scripts, statics⟩ => by
    rw [search, walk]
    split
    · exact ⟨rfl, fun _ => rfl⟩
    · rw [List.findSome?_cons]
      split
      · rename_i a hfind
        rw [hfind]
        refine ⟨rfl, ?_⟩
        intro h
        cases h
      · rename_i hfind
        rw [hfind]
        exact searchAll_walkAll (name :: visited) dependencies

theorem searchAll_walkAll (visited : List String) :
    ∀ ls : List Library,
      (searchAll find visited ls).1 = (walkAll visited ls).1.findSome? find ∧
      ((searchAll find visited ls).1 = none →
        (searchAll find visited ls).2 = (walkAll visited ls).2)
  | [] => ⟨rfl, fun _ => rfl⟩
  | l :: ls => by
    obtain ⟨hfirst, hleft⟩ := search_walk visited l
    rw [searchAll, walkAll, List.findSome?_append]
    rw [← hfirst]
    split
    · rename_i a visited' heq
      rw [heq]
      refine ⟨rfl, ?_⟩
      intro h
      cases h
    · -- nothing found, so the names left behind are those of the walk
      rename_i visited' heq
      rw [heq] at hleft ⊢
      obtain rfl : visited' = (l.walk visited).2 := hleft rfl
      exact searchAll_walkAll _ ls

end

theorem search_eq (l : Library) : (l.search find []).1 = l.closure.findSome? find :=
  (search_walk [] l).1

end Search

/-- **A name stands for the first definition of that name** in what is reachable. -/
theorem resolve?_eq (l : Library) (name : Name) :
    l.resolve? name = l.reachableDefinitions.find? (·.name == name) := by
  rw [resolve?, search_eq, reachableDefinitions, List.find?_flatMap]
  rfl

theorem resolveScript?_eq (l : Library) (name : Name) :
    l.resolveScript? name = l.reachableScripts.find? (·.name == name) := by
  rw [resolveScript?, search_eq, reachableScripts, List.find?_flatMap]
  rfl

end Library

end Steward
