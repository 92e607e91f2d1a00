/-
Look-ups: the ways to look a name up agree.

A name can be looked up in a catalog as a definition or as a type, and in each of its libraries
as a definition, as a type or as a contract.  The search for a definition stops at the first of
that name, whatever it is; the search for a type skips contracts and goes on, in the library, in
its dependencies and in the libraries loaded after it.  In a single library the two can part
(`Shared.mixed`).  Where names are unique they cannot:

* **`lookupsAgree_of_unique`** — all that any search can find under a name is one definition, so
  every search is a look at that definition;
* **`lookups_agree`** — hence the look-ups agree after any libraries were loaded, and in every
  session there can be.
-/
import Steward.Proofs.Identity

namespace Steward

theorem Definition.type?_eq_some_iff {d : Definition} {t : ObjectType} :
    d.type? = some t ↔ d = .type t := by
  cases d with
  | type t' => simp [type?]
  | contract k => simp [type?]

theorem Definition.contract?_eq_some_iff {d : Definition} {k : Contract} :
    d.contract? = some k ↔ d = .contract k := by
  cases d with
  | type t => simp [contract?]
  | contract k' => simp [contract?]

namespace Catalog

/-- Whether the ways to look up `name` in a catalog agree, where `same` says when two definitions
count as one. -/
structure LookupsAgree (c : Catalog) (same : Definition → Definition → Prop) (name : Name) :
    Prop where
  /-- A type is found just where the definition that is found is that type. -/
  type : ∀ t, c.resolveType name = .ok t ↔ c.resolve name = .ok (.type t)
  /-- Where it is a contract, no library has a type to offer. -/
  contract : ∀ k, c.resolve name = .ok (.contract k) →
    c.resolveType name = .error (.unknownType name.text)
  unknown : ∀ e, c.resolve name = .error e → c.resolveType name = .error e
  /-- What any of the libraries finds is what the catalog finds. -/
  inside : ∀ l ∈ c.libraries, ∀ d, l.resolve? name = some d →
    ∃ e, c.resolve name = .ok e ∧ same d e
  typeInside : ∀ l ∈ c.libraries, ∀ t,
    l.resolveType? name = some t ↔ l.resolve? name = some (.type t)
  contractInside : ∀ l ∈ c.libraries, ∀ k,
    l.resolveContract? name = some k ↔ l.resolve? name = some (.contract k)

variable {c : Catalog} {name : Name}

/-- A type is resolved by resolving the name and looking at what it stands for. -/
theorem resolveType_eq_bind (hc : c.Unique) (name : Name) :
    c.resolveType name =
      ((c.resolve? name).bind Definition.type?).elim (.error (.unknownType name.text)) .ok := by
  rw [resolveType_eq, resolveType?_eq hc]

/-- What a loaded library finds, the catalog finds, if only under the name. -/
theorem exists_resolve_of_library {l : Library} (hl : l ∈ c.libraries) {d : Definition}
    (hd : l.resolve? name = some d) :
    d ∈ c.definitions ∧ ∃ e ∈ c.definitions, c.resolve name = .ok e ∧ d.name = e.name := by
  obtain ⟨hmem, hname⟩ := mem_of_library hl hd
  obtain ⟨e, he, hemem, hename⟩ := find?_name_isSome hmem hname
  refine ⟨hmem, e, hemem, ?_, hname.trans hename.symm⟩
  rw [resolve_eq, resolve?_eq, elim_eq_ok_iff]
  exact he

/-- **Where names are unique, the look-ups agree.** -/
theorem lookupsAgree_of_unique (hc : c.Unique) {same : Definition → Definition → Prop}
    (hsame : ∀ d ∈ c.definitions, ∀ e ∈ c.definitions, d.name = e.name → same d e) (name : Name) :
    c.LookupsAgree same name where
  type t := by
    rw [resolveType_eq_bind hc, resolve_eq, elim_eq_ok_iff, elim_eq_ok_iff,
      Option.bind_eq_some_iff]
    simp only [Definition.type?_eq_some_iff, exists_eq_right]
  contract k hk := by
    rw [resolve_eq, elim_eq_ok_iff] at hk
    rw [resolveType_eq_bind hc, hk]
    rfl
  unknown e he := by
    rw [resolve_eq] at he
    rw [resolveType_eq_bind hc]
    cases hfound : c.resolve? name with
    | none =>
      rw [hfound] at he
      cases he
      rfl
    | some d =>
      rw [hfound] at he
      cases he
  inside l hl d hd := by
    obtain ⟨hmem, e, hemem, he, hname⟩ := exists_resolve_of_library hl hd
    exact ⟨e, he, hsame d hmem e hemem hname⟩
  typeInside l hl t := by
    rw [show l.resolveType? name = _ from search_eq_bind byKind_type? hc hl name,
      Option.bind_eq_some_iff]
    simp only [Definition.type?_eq_some_iff, exists_eq_right]
  contractInside l hl k := by
    rw [show l.resolveContract? name = _ from search_eq_bind byKind_contract? hc hl name,
      Option.bind_eq_some_iff]
    simp only [Definition.contract?_eq_some_iff, exists_eq_right]

end Catalog

/-- **The look-ups agree.**  Whatever libraries are loaded one after the other, and whether it
works or not: a name resolves to a type if and only if the definition it resolves to is that type,
it is unknown as a type if that definition is a contract, and every loaded library that has an
answer has the same one.  In a session the same answer is an equal one. -/
theorem lookups_agree :
    (∀ (ls : List Library) (name : Name),
      (Catalog.loadEach {} ls).LookupsAgree (fun d e => d.same e = true) name) ∧
    ∀ s : Session, s.Reachable → ∀ name, s.catalog.LookupsAgree (fun d e => d = e) name := by
  constructor
  · intro ls name
    have hc := Catalog.unique_loadEach Catalog.unique_empty ls
    refine Catalog.lookupsAgree_of_unique hc ?_ name
    exact fun d hd e he hn => (Definition.same_iff d e).mpr (hc.definitions d hd e he hn)
  · intro s hs name
    obtain ⟨made, written, hrecorded⟩ := hs.recorded
    refine Catalog.lookupsAgree_of_unique hrecorded.unique ?_ name
    intro d hd e he hn
    obtain ⟨M, hM, hd⟩ := List.mem_flatMap.mp hd
    obtain ⟨N, hN, he⟩ := List.mem_flatMap.mp he
    exact (hrecorded.eq_of_name hM hN).1 d hd e he hn

namespace Shared

def shape : Contract := ⟨2, ⟨"Shape"⟩, [], []⟩

/-- A library with a contract, which uses one with a type. -/
def shapes : Library := ⟨"shapes", [base], ⟨[.contract shape]⟩, [], 5⟩

/-- A contract in front of a type of the same name. -/
def mixed : Library := ⟨"mixed", [base], ⟨[.contract ⟨3, ⟨"Point"⟩, [], []⟩]⟩, [], 6⟩

/-- In a library of its own the look-ups part; such a library cannot be loaded. -/
example : mixed.resolve? ⟨"Point"⟩ = some (.contract ⟨3, ⟨"Point"⟩, [], []⟩) ∧
    mixed.resolveType? ⟨"Point"⟩ = some point ∧
    Catalog.load {} mixed = .error (.definition "mixed" [.alreadyDefined "Point"]) :=
  ⟨rfl, rfl, rfl⟩

/-- A session in which a library with a contract is loaded after one with a type. -/
def shapeSteps : List Step := [
  .definition (.type "Point" [] [] [] none none none "point"),
  .library (.start "base" "b"),
  .library (.define (.type "point") "b"),
  .library (.build "b" "base"),
  .library (.load "base"),
  .definition (.contract "Shape" [] [] "shape"),
  .library (.start "shapes" "c"),
  .library (.depend "base" "c"),
  .library (.define (.contract "shape") "c"),
  .library (.build "c" "shapes"),
  .library (.load "shapes")]

def shaped : Session :=
  ((Session.start {}).steps shapeSteps).2

end Shared

open Shared in
/-- After `base` and `shapes`, with a library between that is refused: the contract is no type,
and `shapes` finds the type that the catalog finds, by way of its dependency. -/
theorem lookups_agree_shapes :
    (Catalog.loadEach {} [base, mixed, shapes]).libraries = [base, shapes] ∧
    (Catalog.loadEach {} [base, mixed, shapes]).resolveType ⟨"Shape"⟩ =
      .error (.unknownType "Shape") ∧
    (Catalog.loadEach {} [base, mixed, shapes]).resolve ⟨"Point"⟩ = .ok (.type point) ∧
    (∃ e, (Catalog.loadEach {} [base, mixed, shapes]).resolve ⟨"Point"⟩ = .ok e ∧
      (Definition.type point).same e = true) ∧
    shaped.catalog.libraries.map Library.name = ["base", "shapes"] ∧
    ∃ k, shaped.catalog.resolve ⟨"Shape"⟩ = .ok (.contract k) ∧
      shaped.catalog.resolveType ⟨"Shape"⟩ = .error (.unknownType "Shape") := by
  have loaded : (Catalog.loadEach {} [base, mixed, shapes]).libraries = [base, shapes] := rfl
  have agree := lookups_agree.2 shaped (Session.reachable_steps {} shapeSteps) ⟨"Shape"⟩
  refine ⟨loaded, ?_, ?_, ?_, rfl, ?_⟩
  · exact (lookups_agree.1 [base, mixed, shapes] ⟨"Shape"⟩).contract shape rfl
  · exact ((lookups_agree.1 [base, mixed, shapes] ⟨"Point"⟩).type point).mp rfl
  · refine (lookups_agree.1 [base, mixed, shapes] ⟨"Point"⟩).inside shapes ?_ (.type point) rfl
    rw [loaded]
    exact List.mem_cons_of_mem base List.mem_cons_self
  · exact ⟨_, rfl, agree.contract _ rfl⟩

end Steward
