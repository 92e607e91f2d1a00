/-
Unique names: within a catalog a name stands for one definition and for one script.

`Catalog.load` compares what is reachable from a new library with the *first* thing the
catalog has under its name, and with the first thing the library itself has.  That is enough:
if a name stood for one thing before, the first stands for all (`oneEach_append_iff`).  Hence

* **`load_eq_ok_iff`** — a library can be loaded if and only if its own name is new and
  names stay unique;
* **`foldlM_load_eq_ok_iff`** — libraries can be loaded one after the other if and only if
  all of them together have different names and unique names, which says nothing about their
  order;
* **`resolveType?_eq`** — looking for a type is looking for a definition that is one.

Two definitions may look alike and yet be two; what tells them apart is how they came about,
which is `identity` here.
-/
import Steward.Catalog
import Steward.Proofs.Slots
import Steward.Proofs.Traversal

namespace Steward

/-! ### Identity -/

/-- What makes a definition the one it is: a type or a contract, of its number. -/
def Definition.identity : Definition → Nat ⊕ Nat
  | type t => .inl t.stamp
  | contract c => .inr c.stamp

theorem Definition.same_iff (d e : Definition) : d.same e = true ↔ d.identity = e.identity := by
  cases d with
  | type t => cases e with
    | type t' => simp [same, identity]
    | contract c => simp [same, identity]
  | contract c => cases e with
    | type t => simp [same, identity]
    | contract c' => simp [same, identity]

theorem Script.same_iff (x y : Script) : x.same y = true ↔ x.stamp = y.stamp := by
  simp [same]

/-! ### One thing under each name -/

section OneEach

variable {α ι : Type} {name : α → Name} {identity : α → ι} {xs ys : List α}

/-- Whether things of one name are one thing. -/
def OneEach (name : α → Name) (identity : α → ι) (xs : List α) : Prop :=
  ∀ x ∈ xs, ∀ y ∈ xs, name x = name y → identity x = identity y

theorem OneEach.mono (h : OneEach name identity xs) (hsub : ∀ y ∈ ys, y ∈ xs) :
    OneEach name identity ys :=
  fun x hx y hy hn => h x (hsub x hx) y (hsub y hy) hn

theorem oneEach_nil : OneEach name identity [] :=
  fun _ hx => absurd hx List.not_mem_nil

/-- Whatever has a name, something is found under it. -/
theorem find?_name_isSome {x : α} (hx : x ∈ xs) {n : Name} (hn : name x = n) :
    ∃ y, xs.find? (name · == n) = some y ∧ y ∈ xs ∧ name y = n := by
  have hsome : (xs.find? (name · == n)).isSome := by
    rw [List.find?_isSome]
    exact ⟨x, hx, by simp [hn]⟩
  obtain ⟨y, hy⟩ := Option.isSome_iff_exists.mp hsome
  exact ⟨y, hy, List.mem_of_find?_eq_some hy, by simpa using List.find?_some hy⟩

/-- It is enough to compare what comes with the first of what was there, and with the first
of what comes itself. -/
theorem oneEach_append_iff (h : OneEach name identity xs) :
    OneEach name identity (xs ++ ys) ↔
      ∀ y ∈ ys, (∀ x, xs.find? (name · == name y) = some x → identity x = identity y) ∧
        ∀ x, ys.find? (name · == name y) = some x → identity x = identity y := by
  constructor
  · intro hall y hy
    have found : ∀ {zs : List α} {x}, (∀ z ∈ zs, z ∈ xs ++ ys) →
        zs.find? (name · == name y) = some x → identity x = identity y := by
      intro zs x hsub hx
      have hn : name x = name y := by simpa using List.find?_some hx
      exact hall x (hsub x (List.mem_of_find?_eq_some hx)) y (List.mem_append_right xs hy) hn
    exact ⟨fun x hx => found (fun z hz => List.mem_append_left ys hz) hx,
      fun x hx => found (fun z hz => List.mem_append_right xs hz) hx⟩
  · intro hfirst
    -- the two mixed cases are the same one
    have across : ∀ x ∈ xs, ∀ y ∈ ys, name x = name y → identity x = identity y := by
      intro x hx y hy hn
      obtain ⟨x₀, hx₀, hmem, hn₀⟩ := find?_name_isSome hx hn
      exact (h x hx x₀ hmem (hn.trans hn₀.symm)).trans ((hfirst y hy).1 x₀ hx₀)
    have within : ∀ x ∈ ys, ∀ y ∈ ys, name x = name y → identity x = identity y := by
      intro x hx y hy hn
      obtain ⟨x₀, hx₀, -, -⟩ := find?_name_isSome hy rfl
      have hxx := (hfirst x hx).2 x₀ (by rw [hn]; exact hx₀)
      exact hxx.symm.trans ((hfirst y hy).2 x₀ hx₀)
    intro x hx y hy hn
    rcases List.mem_append.mp hx with hx | hx
    · rcases List.mem_append.mp hy with hy | hy
      · exact h x hx y hy hn
      · exact across x hx y hy hn
    · rcases List.mem_append.mp hy with hy | hy
      · exact (across y hy x hx hn.symm).symm
      · exact within x hx y hy hn

/-- Where names are unique, what is found under a name does not depend on the order. -/
theorem OneEach.find?_agree (h : OneEach name identity xs) (hmem : ∀ x, x ∈ xs ↔ x ∈ ys)
    (n : Name) : (xs.find? (name · == n)).map identity = (ys.find? (name · == n)).map identity := by
  cases hx : xs.find? (name · == n) with
  | none =>
    cases hy : ys.find? (name · == n) with
    | none => rfl
    | some y =>
      -- what is found in one order is there in the other
      have hyn : name y = n := by simpa using List.find?_some hy
      obtain ⟨x, hx', -⟩ := find?_name_isSome ((hmem y).mpr (List.mem_of_find?_eq_some hy)) hyn
      rw [hx] at hx'
      cases hx'
  | some x =>
    have hxn : name x = n := by simpa using List.find?_some hx
    have hxmem := List.mem_of_find?_eq_some hx
    obtain ⟨y, hy, hymem, hyn⟩ := find?_name_isSome ((hmem x).mp hxmem) hxn
    rw [hy, Option.map_some, Option.map_some]
    exact congrArg some (h x hxmem y ((hmem y).mpr hymem) (hxn.trans hyn.symm))

end OneEach

/-! ### Catalogs -/

namespace Catalog

/-- Every definition that is reachable from a loaded library, in the order of looking. -/
def definitions (c : Catalog) : List Definition :=
  c.libraries.flatMap Library.reachableDefinitions

/-- Every script that is reachable from a loaded library, in the order of looking. -/
def scripts (c : Catalog) : List Script :=
  c.libraries.flatMap Library.reachableScripts

/-- Whether a name stands for one definition and for one script. -/
structure Unique (c : Catalog) : Prop where
  definitions : OneEach Definition.name Definition.identity c.definitions
  scripts : OneEach Script.name Script.stamp c.scripts

theorem unique_empty : Unique {} :=
  ⟨oneEach_nil, oneEach_nil⟩

theorem resolve?_eq (c : Catalog) (name : Name) :
    c.resolve? name = c.definitions.find? (·.name == name) := by
  rw [resolve?, definitions, List.find?_flatMap]
  exact congrArg (c.libraries.findSome? ·) (funext fun l => l.resolve?_eq name)

theorem resolveScript?_eq (c : Catalog) (name : Name) :
    c.resolveScript? name = c.scripts.find? (·.name == name) := by
  rw [resolveScript?, scripts, List.find?_flatMap]
  exact congrArg (c.libraries.findSome? ·) (funext fun l => l.resolveScript?_eq name)

/-- What is unique in a catalog is so in every part of it. -/
theorem Unique.mono {c c' : Catalog} (h : c.Unique) (hsub : ∀ l ∈ c'.libraries, l ∈ c.libraries) :
    c'.Unique := by
  refine ⟨h.definitions.mono ?_, h.scripts.mono ?_⟩
  · intro d hd
    obtain ⟨l, hl, hd⟩ := List.mem_flatMap.mp hd
    exact List.mem_flatMap.mpr ⟨l, hsub l hl, hd⟩
  · intro x hx
    obtain ⟨l, hl, hx⟩ := List.mem_flatMap.mp hx
    exact List.mem_flatMap.mpr ⟨l, hsub l hl, hx⟩

/-! ### Loading -/

/-- A comparison with what was found, if anything was. -/
theorem any_not_same_eq_false {α ι : Type} {same : α → α → Bool} {identity : α → ι}
    (hsame : ∀ x y, same x y = true ↔ identity x = identity y) {found : Option α} {y : α} :
    found.any (!same · y) = false ↔ ∀ x, found = some x → identity x = identity y := by
  cases found with
  | none => simp
  | some x => simp [← hsame]

theorem definitionClashes_eq_false_iff {c : Catalog} {l : Library} {d : Definition} :
    c.definitionClashes l d = false ↔
      (∀ e, c.definitions.find? (·.name == d.name) = some e → e.identity = d.identity) ∧
        ∀ e, l.reachableDefinitions.find? (·.name == d.name) = some e →
          e.identity = d.identity := by
  rw [definitionClashes, Bool.or_eq_false_iff, resolve?_eq, Library.resolve?_eq]
  exact and_congr (any_not_same_eq_false Definition.same_iff)
    (any_not_same_eq_false Definition.same_iff)

theorem scriptClashes_eq_false_iff {c : Catalog} {l : Library} {x : Script} :
    c.scriptClashes l x = false ↔
      (∀ y, c.scripts.find? (·.name == x.name) = some y → y.stamp = x.stamp) ∧
        ∀ y, l.reachableScripts.find? (·.name == x.name) = some y → y.stamp = x.stamp := by
  rw [scriptClashes, Bool.or_eq_false_iff, resolveScript?_eq, Library.resolveScript?_eq]
  exact and_congr (any_not_same_eq_false Script.same_iff) (any_not_same_eq_false Script.same_iff)

theorem addNew_eq_nil_iff {xs : List String} : addNew [] xs = [] ↔ xs = [] := by
  constructor
  · intro h
    rw [List.eq_nil_iff_forall_not_mem] at h ⊢
    exact fun x hx => h x (mem_addNew.mpr (.inr hx))
  · rintro rfl
    rfl

theorem clashes_eq_nil_iff {c : Catalog} {l : Library} :
    c.clashes l = [] ↔ (∀ d ∈ l.reachableDefinitions, c.definitionClashes l d = false) ∧
      ∀ x ∈ l.reachableScripts, c.scriptClashes l x = false := by
  rw [clashes, addNew_eq_nil_iff, List.append_eq_nil_iff, List.map_eq_nil_iff,
    List.map_eq_nil_iff, List.filter_eq_nil_iff, List.filter_eq_nil_iff]
  simp only [Bool.not_eq_true]

/-- What it takes to load a library, whatever is in the catalog. -/
theorem load_eq_ok {c c' : Catalog} {l : Library} (h : c.load l = .ok c') :
    c' = ⟨c.libraries ++ [l]⟩ ∧ c.clashes l = [] := by
  rw [load] at h
  split at h
  · cases h
  · split at h
    · rename_i hnone
      cases h
      exact ⟨rfl, hnone⟩
    · cases h

/-- **When a library can be loaded**: its own name is new, and names stay unique. -/
theorem load_eq_ok_iff {c c' : Catalog} (hc : c.Unique) {l : Library} :
    c.load l = .ok c' ↔
      c' = ⟨c.libraries ++ [l]⟩ ∧ l.name ∉ c.libraries.map Library.name ∧ c'.Unique := by
  have hdefinitions : definitions ⟨c.libraries ++ [l]⟩ = c.definitions ++ l.reachableDefinitions := by
    simp [definitions]
  have hscripts : scripts ⟨c.libraries ++ [l]⟩ = c.scripts ++ l.reachableScripts := by
    simp [scripts]
  have hunique : c.clashes l = [] ↔ Unique ⟨c.libraries ++ [l]⟩ := by
    rw [clashes_eq_nil_iff]
    simp only [definitionClashes_eq_false_iff, scriptClashes_eq_false_iff]
    rw [← oneEach_append_iff hc.definitions, ← oneEach_append_iff hc.scripts,
      ← hdefinitions, ← hscripts]
    exact ⟨fun h => ⟨h.1, h.2⟩, fun h => ⟨h.definitions, h.scripts⟩⟩
  have hname : c.libraries.any (·.name == l.name) = true ↔ l.name ∈ c.libraries.map Library.name := by
    simp
  -- loading fails for a name that is taken or for clashes, and only then
  rw [load]
  split
  · rename_i htaken
    refine iff_of_false (fun h => by cases h) ?_
    rintro ⟨-, hnew, -⟩
    exact hnew (hname.mp htaken)
  · rename_i hnew
    rw [hname] at hnew
    split
    · rename_i hnone
      constructor
      · intro h
        cases h
        exact ⟨rfl, hnew, hunique.mp hnone⟩
      · rintro ⟨rfl, -, -⟩
        rfl
    · rename_i names hsome
      refine iff_of_false (fun h => by cases h) ?_
      rintro ⟨rfl, -, hu⟩
      exact hsome (hunique.mpr hu)

/-- **When libraries can be loaded one after the other**: all together they have different
names, and names are unique.  Nothing here depends on their order. -/
theorem foldlM_load_eq_ok_iff {c c' : Catalog} (hc : c.Unique)
    (hnames : (c.libraries.map Library.name).Nodup) {ls : List Library} :
    ls.foldlM load c = .ok c' ↔
      c' = ⟨c.libraries ++ ls⟩ ∧ (c'.libraries.map Library.name).Nodup ∧ c'.Unique := by
  induction ls generalizing c with
  | nil =>
    constructor
    · intro h
      cases h
      exact ⟨by simp, hnames, hc⟩
    · rintro ⟨rfl, -, -⟩
      simp [pure, Except.pure]
  | cons l ls ih =>
    have hassoc : c.libraries ++ l :: ls = (c.libraries ++ [l]) ++ ls := by simp
    have hnodup : ((c.libraries ++ [l]).map Library.name).Nodup ↔
        l.name ∉ c.libraries.map Library.name := by
      rw [List.map_append, List.map_singleton, List.nodup_append]
      simp [hnames]
    rw [List.foldlM_cons, bind_eq_ok_iff, hassoc]
    constructor
    · rintro ⟨c₁, hload, hrest⟩
      obtain ⟨rfl, hnew, hc₁⟩ := (load_eq_ok_iff hc).mp hload
      exact (ih hc₁ (hnodup.mpr hnew)).mp hrest
    · rintro ⟨rfl, hall, hu⟩
      -- the first of the libraries can be loaded because a part of a good catalog is good
      have hfirst : ((c.libraries ++ [l]).map Library.name).Nodup := by
        rw [List.map_append] at hall
        exact (List.nodup_append.mp hall).1
      have hc₁ : Unique ⟨c.libraries ++ [l]⟩ := hu.mono fun m hm => List.mem_append_left ls hm
      refine ⟨⟨c.libraries ++ [l]⟩, ?_, ?_⟩
      · exact (load_eq_ok_iff hc).mpr ⟨rfl, hnodup.mp hfirst, hc₁⟩
      · exact (ih hc₁ hfirst).mpr ⟨rfl, hall, hu⟩

/-- Loads libraries one after the other; one that cannot be loaded changes nothing. -/
def loadEach (c : Catalog) : List Library → Catalog
  | [] => c
  | l :: ls =>
    match c.load l with
    | .ok c' => c'.loadEach ls
    | .error _ => c.loadEach ls

/-- Whatever is loaded, and whether it works or not, names stay unique. -/
theorem unique_loadEach {c : Catalog} (hc : c.Unique) (ls : List Library) :
    (c.loadEach ls).Unique := by
  induction ls generalizing c with
  | nil => exact hc
  | cons l ls ih =>
    rw [loadEach]
    split
    · rename_i c' hload
      exact ih ((load_eq_ok_iff hc).mp hload).2.2
    · exact ih hc

/-! ### Answers -/

/-- Whether what is read off a definition goes by its kind: if one definition does not have it,
nothing that is the same definition has it. -/
def ByKind {γ : Type} (pick : Definition → Option γ) : Prop :=
  ∀ d e : Definition, d.identity = e.identity → pick d = none → pick e = none

theorem byKind_type? : ByKind Definition.type? := by
  intro d e hde hd
  cases d with
  | type t => cases hd
  | contract c => cases e with
    | type t => cases hde
    | contract c' => rfl

theorem byKind_contract? : ByKind Definition.contract? := by
  intro d e hde hd
  cases d with
  | type t => cases e with
    | type t' => rfl
    | contract c => cases hde
  | contract c => cases hd

section Kinds

variable {γ : Type} {pick : Definition → Option γ} (hpick : ByKind pick)
include hpick

/-- If all that can be found is one thing, looking for a definition of some kind is looking for
that thing and asking whether it is of that kind. -/
theorem findSome?_bind {β : Type} {xs : List β} {find : β → Option Definition}
    {findKind : β → Option γ} (hkind : ∀ x ∈ xs, findKind x = (find x).bind pick)
    (hone : ∀ x ∈ xs, ∀ y ∈ xs, ∀ d e, find x = some d → find y = some e →
      d.identity = e.identity) :
    xs.findSome? findKind = (xs.findSome? find).bind pick := by
  induction xs with
  | nil => rfl
  | cons x xs ih =>
    have hrest := ih (fun y hy => hkind y (List.mem_cons_of_mem x hy)) fun y hy z hz =>
      hone y (List.mem_cons_of_mem x hy) z (List.mem_cons_of_mem x hz)
    rw [List.findSome?_cons, List.findSome?_cons, hkind x List.mem_cons_self]
    cases hx : find x with
    | none => exact hrest
    | some d =>
      rw [Option.bind_some]
      cases hd : pick d with
      | some a => rfl
      | none =>
        -- the search goes on, but all it could still find is this definition
        change xs.findSome? findKind = none
        rw [List.findSome?_eq_none_iff]
        intro y hy
        rw [hkind y (List.mem_cons_of_mem x hy)]
        cases hfind : find y with
        | none => rfl
        | some e =>
          have hsame := hone x List.mem_cons_self y (List.mem_cons_of_mem x hy) d e hx hfind
          exact hpick d e hsame hd

/-- **Within a loaded library**, too, the search for a definition of some kind does not stop at
one of another kind, and yet finds no other. -/
theorem search_eq_bind {c : Catalog} (hc : c.Unique) {l : Library} (hl : l ∈ c.libraries)
    (name : Name) :
    (l.search (fun m => (m.registry.find? name).bind pick) []).1 = (l.resolve? name).bind pick := by
  rw [Library.resolve?, Library.search_eq, Library.search_eq]
  refine findSome?_bind hpick (fun _ _ => rfl) ?_
  have found : ∀ m ∈ l.closure, ∀ d, m.registry.find? name = some d →
      d ∈ c.definitions ∧ d.name = name := by
    intro m hm d hd
    refine ⟨?_, by simpa using List.find?_some hd⟩
    refine List.mem_flatMap.mpr ⟨l, hl, List.mem_flatMap.mpr ⟨m, hm, ?_⟩⟩
    exact List.mem_of_find?_eq_some hd
  intro x hx y hy d e hd he
  obtain ⟨hd, hdn⟩ := found x hx d hd
  obtain ⟨he, hen⟩ := found y hy e he
  exact hc.definitions d hd e he (hdn.trans hen.symm)

end Kinds

/-- What a loaded library resolves is in the catalog, under the name it was looked up by. -/
theorem mem_of_library {c : Catalog} {l : Library} (hl : l ∈ c.libraries) {name : Name}
    {d : Definition} (hd : l.resolve? name = some d) : d ∈ c.definitions ∧ d.name = name := by
  rw [Library.resolve?_eq] at hd
  refine ⟨?_, by simpa using List.find?_some hd⟩
  exact List.mem_flatMap.mpr ⟨l, hl, List.mem_of_find?_eq_some hd⟩

/-- **Looking for a type** finds the definition of that name, if it is a type, although the
search does not stop at a contract. -/
theorem resolveType?_eq {c : Catalog} (hc : c.Unique) (name : Name) :
    c.resolveType? name = (c.resolve? name).bind Definition.type? := by
  refine findSome?_bind byKind_type? (fun l hl => search_eq_bind byKind_type? hc hl name) ?_
  intro x hx y hy d e hd he
  obtain ⟨hd, hdn⟩ := mem_of_library hx hd
  obtain ⟨he, hen⟩ := mem_of_library hy he
  exact hc.definitions d hd e he (hdn.trans hen.symm)

/-- Whether two look-ups come to the same: to one and the same thing, or to one error. -/
def SameAnswer {α : Type} (same : α → α → Bool) : Except Error α → Except Error α → Prop
  | .ok a, .ok b => same a b = true
  | .error e, .error e' => e = e'
  | _, _ => False

/-- What is found or not comes to the same if what is found is one thing. -/
theorem sameAnswer_of_map {α ι : Type} {same : α → α → Bool} {identity : α → ι}
    (hsame : ∀ x y, same x y = true ↔ identity x = identity y) {found found' : Option α}
    (h : found.map identity = found'.map identity) (e : Error) :
    SameAnswer same (found.elim (.error e) .ok) (found'.elim (.error e) .ok) := by
  cases found with
  | none =>
    cases found' with
    | none => rfl
    | some b => cases h
  | some a =>
    cases found' with
    | none => cases h
    | some b => exact (hsame a b).mpr (Option.some.inj h)

theorem resolve_eq (c : Catalog) (name : Name) :
    c.resolve name = (c.resolve? name).elim (.error (.unknownType name.text)) .ok := by
  rw [resolve]
  cases c.resolve? name <;> rfl

theorem resolveType_eq (c : Catalog) (name : Name) :
    c.resolveType name = (c.resolveType? name).elim (.error (.unknownType name.text)) .ok := by
  rw [resolveType]
  cases c.resolveType? name <;> rfl

theorem resolveScript_eq (c : Catalog) (name : Name) :
    c.resolveScript name =
      (c.resolveScript? name).elim (.error (.unknownScript name.text)) .ok := by
  rw [resolveScript]
  cases c.resolveScript? name <;> rfl

/-- Whether two catalogs give the same answers, whatever name is looked up. -/
structure Agrees (c c' : Catalog) : Prop where
  resolve : ∀ name, SameAnswer Definition.same (c.resolve name) (c'.resolve name)
  resolveType : ∀ name, SameAnswer (fun t t' => t.stamp == t'.stamp) (c.resolveType name)
    (c'.resolveType name)
  resolveScript : ∀ name, SameAnswer Script.same (c.resolveScript name) (c'.resolveScript name)

/-- Catalogs with the same libraries give the same answers. -/
theorem agrees_of_perm {c c' : Catalog} (hc : c.Unique) (hperm : c.libraries.Perm c'.libraries) :
    c.Agrees c' := by
  have hc' : c'.Unique := hc.mono fun l hl => hperm.mem_iff.mpr hl
  have hdefinitions : ∀ name, (c.resolve? name).map Definition.identity =
      (c'.resolve? name).map Definition.identity := by
    intro name
    rw [resolve?_eq, resolve?_eq]
    exact hc.definitions.find?_agree (fun d => (hperm.flatMap_right _).mem_iff) name
  have hscripts : ∀ name, (c.resolveScript? name).map Script.stamp =
      (c'.resolveScript? name).map Script.stamp := by
    intro name
    rw [resolveScript?_eq, resolveScript?_eq]
    exact hc.scripts.find?_agree (fun x => (hperm.flatMap_right _).mem_iff) name
  have htypes : ∀ name, (c.resolveType? name).map ObjectType.stamp =
      (c'.resolveType? name).map ObjectType.stamp := by
    intro name
    have hstamp : ∀ d e : Definition, d.identity = e.identity →
        d.type?.map ObjectType.stamp = e.type?.map ObjectType.stamp := by
      intro d e hde
      cases d with
      | type t => cases e with
        | type t' => exact congrArg some (Sum.inl.inj hde)
        | contract c => cases hde
      | contract c => cases e with
        | type t => cases hde
        | contract c' => rfl
    have h := hdefinitions name
    -- both look for a definition first, which is of one kind in both
    rw [resolveType?_eq hc, resolveType?_eq hc']
    cases hx : c.resolve? name with
    | none =>
      cases hy : c'.resolve? name with
      | none => rfl
      | some e => simp [hx, hy] at h
    | some d =>
      cases hy : c'.resolve? name with
      | none => simp [hx, hy] at h
      | some e => exact hstamp d e (by simpa [hx, hy] using h)
  refine ⟨?_, ?_, ?_⟩
  · intro name
    rw [resolve_eq, resolve_eq]
    exact sameAnswer_of_map Definition.same_iff (hdefinitions name) _
  · intro name
    rw [resolveType_eq, resolveType_eq]
    exact sameAnswer_of_map (fun t t' => beq_iff_eq) (htypes name) _
  · intro name
    rw [resolveScript_eq, resolveScript_eq]
    exact sameAnswer_of_map Script.same_iff (hscripts name) _

/-- **Loading does not depend on the order**: if libraries can be loaded one after the other
into an empty catalog, they can in every order, and every name is answered the same. -/
theorem foldlM_load_perm {ls ls' : List Library} (hperm : ls.Perm ls') {c : Catalog}
    (hload : ls.foldlM load {} = .ok c) : ∃ c', ls'.foldlM load {} = .ok c' ∧ c.Agrees c' := by
  obtain ⟨rfl, hnames, hc⟩ := (foldlM_load_eq_ok_iff unique_empty List.nodup_nil).mp hload
  refine ⟨⟨ls'⟩, ?_, agrees_of_perm hc hperm⟩
  refine (foldlM_load_eq_ok_iff unique_empty List.nodup_nil).mpr ⟨rfl, ?_, ?_⟩
  · exact (hperm.map Library.name).nodup_iff.mp hnames
  · exact hc.mono fun l hl => hperm.mem_iff.mpr hl

end Catalog

end Steward
