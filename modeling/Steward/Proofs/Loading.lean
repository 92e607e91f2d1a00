/-
Loading: what a library brings can be found afterwards.

A library is loaded with everything it uses.  Each definition and each script that a walk from
it meets was compared with what stands under its name, in the catalog and in the library
itself, so whichever of the two a later search comes upon is the same one
(`sameAnswer_of_found`).  A walk meets every library that is used if these have different
names (`Library.mem_closure_iff`), and then

* **`loading_loses_nothing`** — every definition and every script of every library that is
  used resolves to itself;
* **`loading_loses_shared_name`** — of two libraries of one name the second is never met.  It
  is neither compared with anything nor found, and loading works.
-/
import Steward.Proofs.Identity

namespace Steward

namespace Catalog

variable {c c' : Catalog} {l : Library}

/-- Something that comes is found under its name if the first of that name is it, both in what
was there and in what comes. -/
theorem sameAnswer_of_found {α ι : Type} {name : α → Name} {identity : α → ι}
    {same : α → α → Bool} (hsame : ∀ x y, same x y = true ↔ identity x = identity y)
    {xs ys : List α} {y : α} (hy : y ∈ ys)
    (hold : ∀ x, xs.find? (name · == name y) = some x → identity x = identity y)
    (hnew : ∀ x, ys.find? (name · == name y) = some x → identity x = identity y) (e : Error) :
    SameAnswer same (((xs ++ ys).find? (name · == name y)).elim (.error e) .ok) (.ok y) := by
  obtain ⟨y₀, hy₀, -, -⟩ := find?_name_isSome hy (rfl : name y = name y)
  rw [List.find?_append, hy₀]
  cases hx : xs.find? (name · == name y) with
  | none => exact (hsame y₀ y).mpr (hnew y₀ hy₀)
  | some x => exact (hsame x y).mpr (hold x hx)

/-- A definition that a walk from a library meets resolves to itself once the library is
loaded. -/
theorem resolve_load (h : c.load l = .ok c') {d : Definition} (hd : d ∈ l.reachableDefinitions) :
    SameAnswer Definition.same (c'.resolve d.name) (.ok d) := by
  obtain ⟨rfl, hclashes⟩ := load_eq_ok h
  obtain ⟨hold, hnew⟩ :=
    definitionClashes_eq_false_iff.mp ((clashes_eq_nil_iff.mp hclashes).1 d hd)
  have hall : definitions ⟨c.libraries ++ [l]⟩ = c.definitions ++ l.reachableDefinitions := by
    simp [definitions]
  rw [resolve_eq, resolve?_eq, hall]
  exact sameAnswer_of_found Definition.same_iff hd hold hnew _

theorem resolveScript_load (h : c.load l = .ok c') {x : Script} (hx : x ∈ l.reachableScripts) :
    SameAnswer Script.same (c'.resolveScript x.name) (.ok x) := by
  obtain ⟨rfl, hclashes⟩ := load_eq_ok h
  obtain ⟨hold, hnew⟩ := scriptClashes_eq_false_iff.mp ((clashes_eq_nil_iff.mp hclashes).2 x hx)
  have hall : scripts ⟨c.libraries ++ [l]⟩ = c.scripts ++ l.reachableScripts := by
    simp [scripts]
  rw [resolveScript_eq, resolveScript?_eq, hall]
  exact sameAnswer_of_found Script.same_iff hx hold hnew _

end Catalog

/-- Where numbers tell things apart, the same answer is the thing itself. -/
theorem Session.Recorded.resolve_load {s : Session} {made : Definition → Prop}
    {written : Script → Prop} (h : s.Recorded made written) {l : Library}
    (known : l ∈ s.libraries.values) {c : Catalog} (hload : s.catalog.load l = .ok c) :
    (∀ d ∈ l.reachableDefinitions, c.resolve d.name = .ok d) ∧
      ∀ x ∈ l.reachableScripts, c.resolveScript x.name = .ok x := by
  have hc := h.loaded known hload
  constructor
  · intro d hd
    refine (Catalog.resolve_load hload hd).eq ?_
    intro e d' he hd' hsame
    cases hd'
    exact h.numbered.inj e d (Catalog.made_of_mem hc.catalog (Catalog.mem_of_resolve he))
      ((h.libraries l known).definitions d hd) (Definition.stamp_eq_of_same hsame)
  · intro x hx
    refine (Catalog.resolveScript_load hload hx).eq ?_
    intro y x' hy hx' hsame
    cases hx'
    exact h.scriptsNumbered.inj y x
      (Catalog.written_of_mem hc.catalog (Catalog.mem_of_resolveScript hy))
      ((h.libraries l known).scripts x hx) ((Script.same_iff y x).mp hsame)

/-- **Loading loses nothing.**  Once a library is loaded, into whatever catalog, every definition
and every script of every library it uses resolves to itself, if the libraries it uses have
different names.  In a session there is no difference between the same and equal. -/
theorem loading_loses_nothing {c c' : Catalog} {l : Library} (hload : c.load l = .ok c')
    (names : l.NamesApart) {m : Library} (hm : l.Uses m) :
    (∀ d ∈ m.registry.definitions, Catalog.SameAnswer Definition.same (c'.resolve d.name) (.ok d)) ∧
    (∀ x ∈ m.scripts, Catalog.SameAnswer Script.same (c'.resolveScript x.name) (.ok x)) ∧
    ∀ s : Session, s.Reachable → l ∈ s.libraries.values → c = s.catalog →
      (∀ d ∈ m.registry.definitions, c'.resolve d.name = .ok d) ∧
      ∀ x ∈ m.scripts, c'.resolveScript x.name = .ok x := by
  have hclosure : m ∈ l.closure := (Library.mem_closure_iff names).mpr hm
  have hdefinitions : ∀ d ∈ m.registry.definitions, d ∈ l.reachableDefinitions :=
    fun d hd => List.mem_flatMap.mpr ⟨m, hclosure, hd⟩
  have hscripts : ∀ x ∈ m.scripts, x ∈ l.reachableScripts :=
    fun x hx => List.mem_flatMap.mpr ⟨m, hclosure, hx⟩
  refine ⟨fun d hd => Catalog.resolve_load hload (hdefinitions d hd),
    fun x hx => Catalog.resolveScript_load hload (hscripts x hx), ?_⟩
  rintro s hs known rfl
  obtain ⟨made, written, hrecorded⟩ := hs.recorded
  obtain ⟨hresolve, hresolveScript⟩ := hrecorded.resolve_load known hload
  exact ⟨fun d hd => hresolve d (hdefinitions d hd), fun x hx => hresolveScript x (hscripts x hx)⟩

namespace Shared

/-- A library that uses the third one twice. -/
def both : Library := ⟨"both", [left, right], {}, [], 3⟩

theorem uses_both {m : Library} (h : both.Uses m) : m ∈ [both, left, right, base] := by
  induction h with
  | refl => exact List.mem_cons_self
  | tail _ hd ih =>
    simp only [List.mem_cons, List.not_mem_nil, or_false] at ih
    rcases ih with rfl | rfl | rfl | rfl
    · exact List.mem_cons_of_mem _ (List.mem_of_mem_take (i := 2) hd)
    · obtain rfl := List.mem_singleton.mp hd
      simp
    · obtain rfl := List.mem_singleton.mp hd
      simp
    · exact absurd hd List.not_mem_nil

theorem namesApart_both : both.NamesApart := by
  intro m n hm hn hname
  exact List.inj_on_of_nodup_map (f := Library.name) (by decide) (uses_both hm) (uses_both hn) hname

def circle : ObjectType := ⟨1, ⟨"Circle"⟩, none, [], [], [], none, none⟩

/-- Another library of the name of the third one. -/
def otherBase : Library := ⟨"base", [], ⟨[.type circle]⟩, [], 4⟩

def ambiguous : Library := ⟨"ambiguous", [base, otherBase], {}, [], 5⟩

end Shared

/-- What is used by way of two libraries is found. -/
theorem loading_loses_nothing_both :
    Catalog.load {} Shared.both = .ok ⟨[Shared.both]⟩ ∧ Shared.both.Uses Shared.base ∧
      ∀ d ∈ Shared.base.registry.definitions,
        Catalog.SameAnswer Definition.same (Catalog.resolve ⟨[Shared.both]⟩ d.name) (.ok d) := by
  have hload : Catalog.load {} Shared.both = .ok ⟨[Shared.both]⟩ := rfl
  have huses : Shared.both.Uses Shared.base :=
    .tail (.tail .refl (List.mem_cons_self (a := Shared.left))) (List.mem_singleton_self _)
  exact ⟨hload, huses, (loading_loses_nothing hload Shared.namesApart_both huses).1⟩

/-- **A definition that is lost.**  A library depends on two others of one name.  Loading it
works, and what the second one defines cannot be found. -/
theorem loading_loses_shared_name :
    Catalog.load {} Shared.ambiguous = .ok ⟨[Shared.ambiguous]⟩ ∧
      Shared.ambiguous.Uses Shared.otherBase ∧
      Definition.type Shared.circle ∈ Shared.otherBase.registry.definitions ∧
      Catalog.resolve ⟨[Shared.ambiguous]⟩ Shared.circle.name =
        .error (.unknownType Shared.circle.name.text) := by
  refine ⟨rfl, .tail .refl ?_, List.mem_singleton_self _, rfl⟩
  exact List.mem_cons_of_mem _ (List.mem_singleton_self _)

end Steward
