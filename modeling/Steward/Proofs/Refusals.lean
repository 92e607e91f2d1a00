/-
Refusals: the errors with which a library fails to be put together or loaded.

Four things can go wrong on the way of a library into a catalog: a definition or a script is refused
for its name, the finished library is refused for what it clashes with, and a library is not built
for want of a constructor.  Each has one kind of error, and a host asks of which class it is
(`Error.IsFatal`).

* **`define_eq_error_iff`**, **`addScript_eq_error_iff`** — a name that is taken is all there is to
  refuse in what is added;
* **`exists_of_load_eq_error`** — a library is refused for names, too;
* **`build_eq_error_iff`**, **`exists_build_eq_error_iff`** — building fails for the first
  constructor that is not found, and for nothing else;
* **`refusals_classified`** — the first three are fatal, and none of them is a matter of one call;
* **`missing_constructor_not_fatal`** — but the last is not classed with the others.
-/
import Steward.Proofs.Clashes
import Steward.Proofs.Lookups

namespace Steward

/-- Whether an error keeps a library from being loaded, and is no matter of one call. -/
def Error.IsFatal (e : Error) : Prop :=
  e.stopsLoading = true ∧ e.isContained = false

theorem Error.isFatal_definition (name : String) (violations : List Violation) :
    (Error.definition name violations).IsFatal :=
  ⟨rfl, rfl⟩

theorem Registry.register_eq_error_iff {r : Registry} {x : Definition} {e : Error} :
    r.register x = .error e ↔
      r.contains x.name = true ∧ e = .definition x.name.text [.alreadyDefined x.name.text] := by
  rw [register]
  split
  · rename_i htaken
    simp [htaken, eq_comm]
  · rename_i hfree
    simp [hfree]

namespace Draft

variable {d : Draft} {e : Error}

theorem define_eq_error_iff {x : Definition} : d.define x = .error e ↔
    d.registry.contains x.name = true ∧
      e = .definition x.name.text [.alreadyDefined x.name.text] := by
  rw [← Registry.register_eq_error_iff, define]
  cases d.registry.register x with
  | error e => simp [bind, Except.bind]
  | ok r => simp [bind, Except.bind, pure, Except.pure]

theorem addScript_eq_error_iff {x : Script} {stamp : Nat} : d.addScript x stamp = .error e ↔
    (∃ y ∈ d.scripts, y.name = x.name) ∧
      e = .definition x.name.text [.alreadyDefined x.name.text] := by
  have htaken : d.scripts.any (·.name == x.name) = true ↔ ∃ y ∈ d.scripts, y.name = x.name := by
    simp [List.any_eq_true]
  rw [addScript, ← htaken]
  split
  · rename_i h
    simp [h, eq_comm]
  · rename_i h
    simp [h]

/-! ### Building -/

/-- Whether a constructor is asked for that is not found: a type of the draft names it, and neither
the library nor what it depends on has the script. -/
structure Lacks (d : Draft) (name : Name) : Prop where
  asked : ∃ t, .type t ∈ d.registry.definitions ∧ t.ctor = some name
  unknown : d.library.resolveScript? name = none

theorem mem_constructors {name : Name} :
    name ∈ (d.registry.definitions.filterMap fun x => x.type?.bind ObjectType.ctor) ↔
      ∃ t, .type t ∈ d.registry.definitions ∧ t.ctor = some name := by
  simp only [List.mem_filterMap, Option.bind_eq_some_iff, Definition.type?_eq_some_iff]
  constructor
  · rintro ⟨x, hx, t, rfl, ht⟩
    exact ⟨t, hx, ht⟩
  · rintro ⟨t, hx, ht⟩
    exact ⟨_, hx, t, rfl, ht⟩

theorem lacks_of_missingConstructor? {name : Name} (h : d.missingConstructor? = some name) :
    d.Lacks name :=
  ⟨mem_constructors.mp (List.mem_of_find?_eq_some h), Option.isNone_iff_eq_none.mp
    (List.find?_some (p := fun c => (d.library.resolveScript? c).isNone) h)⟩

theorem exists_missingConstructor?_iff :
    (∃ name, d.missingConstructor? = some name) ↔ ∃ name, d.Lacks name := by
  constructor
  · rintro ⟨name, h⟩
    exact ⟨name, lacks_of_missingConstructor? h⟩
  · rintro ⟨name, hasked, hunknown⟩
    rw [← Option.isSome_iff_exists, missingConstructor?, List.find?_isSome]
    exact ⟨name, mem_constructors.mpr hasked, Option.isNone_iff_eq_none.mpr hunknown⟩

theorem build_eq_error_iff : d.build = .error e ↔
    ∃ name, d.missingConstructor? = some name ∧ e = .unknownScript name.text := by
  rw [build]
  cases d.missingConstructor? with
  | none => simp
  | some name => simp [eq_comm]

/-- **Building fails if and only if a constructor is not found.** -/
theorem exists_build_eq_error_iff : (∃ e, d.build = .error e) ↔ ∃ name, d.Lacks name := by
  rw [← exists_missingConstructor?_iff]
  simp only [build_eq_error_iff, exists_comm (α := Error), exists_and_left, exists_eq, and_true]

end Draft

/-- A library is refused for its own name, or for names that clash. -/
theorem Catalog.exists_of_load_eq_error {c : Catalog} {l : Library} {e : Error}
    (h : c.load l = .error e) :
    ∃ names, names ≠ [] ∧ e = .definition l.name (names.map .alreadyDefined) := by
  by_cases htaken : ∃ m ∈ c.libraries, m.name = l.name
  · rw [load_of_taken htaken] at h
    cases h
    exact ⟨[l.name], by simp, rfl⟩
  · rcases load_of_new (l := l) (by simpa using htaken) with ⟨-, hload⟩ | ⟨hnames, hload⟩
    · rw [hload] at h
      cases h
    · rw [hload] at h
      cases h
      exact ⟨_, hnames, rfl⟩

/-- **Refusals are fatal, a missing constructor apart.**  Whatever a draft holds and whatever was
loaded, a definition or a script that is not taken in and a library that is not loaded end with a
fatal error.  The same goes for building the library if and only if no constructor is missing: what
building fails with names a constructor that is not found, and is no matter of one call. -/
theorem refusals_classified (d : Draft) (c : Catalog) :
    (∀ (x : Definition) (e : Error), d.define x = .error e → e.IsFatal) ∧
    (∀ (x : Script) (stamp : Nat) (e : Error), d.addScript x stamp = .error e → e.IsFatal) ∧
    (∀ (l : Library) (e : Error), c.load l = .error e → e.IsFatal) ∧
    ((∀ e, d.build = .error e → e.IsFatal) ↔ ¬ ∃ name, d.Lacks name) ∧
    ∀ e, d.build = .error e → e.isContained = false ∧
      ∃ name, d.Lacks name ∧ e = .unknownScript name.text := by
  refine ⟨?_, ?_, ?_, ?_, ?_⟩
  · intro x e h
    obtain ⟨-, rfl⟩ := Draft.define_eq_error_iff.mp h
    exact Error.isFatal_definition _ _
  · intro x stamp e h
    obtain ⟨-, rfl⟩ := Draft.addScript_eq_error_iff.mp h
    exact Error.isFatal_definition _ _
  · intro l e h
    obtain ⟨names, -, rfl⟩ := Catalog.exists_of_load_eq_error h
    exact Error.isFatal_definition _ _
  · rw [← Draft.exists_build_eq_error_iff]
    constructor
    · rintro hfatal ⟨e, he⟩
      have hstops := (hfatal e he).1
      obtain ⟨name, -, rfl⟩ := Draft.build_eq_error_iff.mp he
      cases hstops
    · exact fun hnone e he => absurd ⟨e, he⟩ hnone
  · intro e h
    obtain ⟨name, hname, rfl⟩ := Draft.build_eq_error_iff.mp h
    exact ⟨rfl, name, Draft.lacks_of_missingConstructor? hname, rfl⟩

namespace Bench

def tool : ObjectType := ⟨0, ⟨"Tool"⟩, none, [], [], [], some ⟨"Ready"⟩, none⟩

def clean : Script := .mk 1 ⟨"Clean"⟩ [] none [] (some 1)

/-- There is a script, but not the constructor of the type. -/
def draft : Draft where
  name := "bench"
  registry := ⟨[.type tool]⟩
  scripts := [clean]
  statics := 1

/-- The library that it would be is loaded. -/
def catalog : Catalog := ⟨[draft.library]⟩

end Bench

open Bench in
/-- A type and a script that are there, a library that is loaded, and a missing constructor. -/
theorem refusals_classified_bench :
    (∃ e, draft.define (.type tool) = .error e ∧ e.IsFatal) ∧
    (∃ e, draft.addScript clean 2 = .error e ∧ e.IsFatal) ∧
    (∃ e, catalog.load draft.library = .error e ∧ e.IsFatal) ∧
    draft.build = .error (.unknownScript "Ready") ∧
    (Error.unknownScript "Ready").isContained = false ∧ ∃ name, draft.Lacks name := by
  obtain ⟨defining, adding, loading, -, building⟩ := refusals_classified draft catalog
  have hdefine : draft.define (.type tool) = .error (.definition "Tool" [.alreadyDefined "Tool"]) :=
    rfl
  have hadd : draft.addScript clean 2 = .error (.definition "Clean" [.alreadyDefined "Clean"]) :=
    rfl
  have hload : catalog.load draft.library =
      .error (.definition "bench" [.alreadyDefined "bench"]) := rfl
  have hbuild : draft.build = .error (.unknownScript "Ready") := rfl
  obtain ⟨hcontained, name, hlacks, -⟩ := building _ hbuild
  exact ⟨⟨_, hdefine, defining _ _ hdefine⟩, ⟨_, hadd, adding _ _ _ hadd⟩,
    ⟨_, hload, loading _ _ hload⟩, hbuild, hcontained, name, hlacks⟩

open Bench in
/-- That a library cannot be built for want of a constructor does not count as fatal. -/
theorem missing_constructor_not_fatal :
    ¬ ∀ (d : Draft) (e : Error), d.build = .error e → e.IsFatal := by
  intro h
  have hbuild : draft.build = .error (.unknownScript "Ready") := rfl
  obtain ⟨hstops, -⟩ := h draft _ hbuild
  cases hstops

end Steward
