/-
Clashes: when loading a library fails, what is reported, and that nothing changes.

A library is refused if its own name is taken, or if something that is reachable from it differs
from what is known under its name: by one of the loaded libraries, or by the library itself.
`Catalog.load` compares with the first answer of the loaded libraries only.

* **`any_findSome?_iff`** — where names are unique that is as good as asking all of them;
* **`reports_clashes`** — the names in the report are those of the definitions that differ, in the
  order in which they are met, then those of scripts that are not there yet, and no name is there
  twice;
* **`failsOnClash_of_unique`** — so loading fails exactly on a clash;
* **`Session.step_load`** — and a step that does not load leaves the session as it was.

Design notes: the scripts of one library have no order of their own, so the report promises
which names of scripts there are, and an order only for those of definitions.
-/
import Steward.Proofs.Identity

namespace Steward

namespace Catalog

variable {c : Catalog} {l : Library}

/-! ### What differs -/

/-- Whether one of the loaded libraries, or the library to be loaded, finds something else than
`x`. -/
def Differs {α : Type} (c : Catalog) (l : Library) (find : Library → Option α)
    (same : α → α → Bool) (x : α) : Prop :=
  ∃ m ∈ l :: c.libraries, ∃ y ∈ find m, same y x = false

/-- Whether a definition differs from what is found under its name. -/
def DefinitionDiffers (c : Catalog) (l : Library) (d : Definition) : Prop :=
  c.Differs l (·.resolve? d.name) Definition.same d

/-- Whether a script differs from what is found under its name. -/
def ScriptDiffers (c : Catalog) (l : Library) (x : Script) : Prop :=
  c.Differs l (·.resolveScript? x.name) Script.same x

instance (c : Catalog) (l : Library) : DecidablePred (c.DefinitionDiffers l) := fun d =>
  inferInstanceAs (Decidable (∃ m ∈ l :: c.libraries, ∃ e ∈ m.resolve? d.name, e.same d = false))

section First

variable {α ι : Type} {same : α → α → Bool} {identity : α → ι}

/-- If all that can be found is one thing, the first thing that is found stands for all. -/
theorem any_findSome?_iff (hsame : ∀ x y, same x y = true ↔ identity x = identity y)
    {find : Library → Option α} {ls : List Library}
    (hone : ∀ m ∈ ls, ∀ m' ∈ ls, ∀ x y, find m = some x → find m' = some y →
      identity x = identity y) {z : α} :
    (ls.findSome? find).any (!same · z) = true ↔ ∃ m ∈ ls, ∃ y ∈ find m, same y z = false := by
  rw [← Bool.not_eq_false, any_not_same_eq_false hsame]
  constructor
  · intro h
    push Not at h
    obtain ⟨y, hfind, hne⟩ := h
    obtain ⟨m, hm, hy⟩ := List.exists_of_findSome?_eq_some hfind
    exact ⟨m, hm, y, hy, by rw [← Bool.not_eq_true, hsame]; exact hne⟩
  · rintro ⟨m, hm, y, hy, hne⟩ hfirst
    rw [← Bool.not_eq_true, hsame] at hne
    -- the library that differs need not be the first to answer, but that one answers the same
    have hsome : (ls.findSome? find).isSome := by
      rw [List.findSome?_isSome_iff]
      exact ⟨m, hm, by rw [Option.mem_def.mp hy]; rfl⟩
    obtain ⟨x, hx⟩ := Option.isSome_iff_exists.mp hsome
    obtain ⟨m', hm', hx'⟩ := List.exists_of_findSome?_eq_some hx
    exact hne ((hone m hm m' hm' y x hy hx').trans (hfirst x hx))

/-- The comparisons that are made, with the first answer of the loaded libraries and with that of
the library itself, are as good as a comparison with all answers. -/
theorem differs_iff (hsame : ∀ x y, same x y = true ↔ identity x = identity y)
    {find : Library → Option α}
    (hone : ∀ m ∈ c.libraries, ∀ m' ∈ c.libraries, ∀ x y, find m = some x → find m' = some y →
      identity x = identity y) {z : α} :
    ((c.libraries.findSome? find).any (!same · z) || (find l).any (!same · z)) = true ↔
      c.Differs l find same z := by
  have own : (find l).any (!same · z) = true ↔ ∃ y ∈ find l, same y z = false := by
    cases find l with
    | none => simp
    | some y => simp
  rw [Bool.or_eq_true, any_findSome?_iff hsame hone, own, or_comm, Differs]
  simp only [List.mem_cons, or_and_right, exists_or, exists_eq_left]

end First

theorem definitionClashes_iff (hc : c.Unique) {d : Definition} :
    c.definitionClashes l d = true ↔ c.DefinitionDiffers l d := by
  refine differs_iff Definition.same_iff ?_
  intro m hm m' hm' x y hx hy
  obtain ⟨hx, hxn⟩ := mem_of_library hm hx
  obtain ⟨hy, hyn⟩ := mem_of_library hm' hy
  exact hc.definitions x hx y hy (hxn.trans hyn.symm)

theorem scriptClashes_iff (hc : c.Unique) {x : Script} :
    c.scriptClashes l x = true ↔ c.ScriptDiffers l x := by
  have found : ∀ m ∈ c.libraries, ∀ y, m.resolveScript? x.name = some y →
      y ∈ c.scripts ∧ y.name = x.name := by
    intro m hm y hy
    rw [Library.resolveScript?_eq] at hy
    refine ⟨?_, by simpa using List.find?_some hy⟩
    exact List.mem_flatMap.mpr ⟨m, hm, List.mem_of_find?_eq_some hy⟩
  refine differs_iff Script.same_iff ?_
  intro m hm m' hm' y z hy hz
  obtain ⟨hy, hyn⟩ := found m hm y hy
  obtain ⟨hz, hzn⟩ := found m' hm' z hz
  exact hc.scripts y hy z hz (hyn.trans hzn.symm)

/-! ### The report -/

/-- Whether `definitions ++ scripts` are the names to be reported of a library: the definitions
that differ, each name where it is first met, and the scripts that differ under other names. -/
structure Reports (c : Catalog) (l : Library) (definitions scripts : List String) : Prop where
  definitions_eq : definitions =
    ((l.reachableDefinitions.filter (c.DefinitionDiffers l)).map (·.name.text)).eraseDups
  mem_scripts : ∀ n, n ∈ scripts ↔
    n ∉ definitions ∧ ∃ x ∈ l.reachableScripts, c.ScriptDiffers l x ∧ x.name.text = n
  nodup : (definitions ++ scripts).Nodup

/-- **The report**: every name that clashes once, those of definitions first. -/
theorem reports_clashes (hc : c.Unique) (l : Library) :
    ∃ definitions scripts, c.clashes l = definitions ++ scripts ∧
      c.Reports l definitions scripts := by
  have hfilter : l.reachableDefinitions.filter (c.definitionClashes l) =
      l.reachableDefinitions.filter (c.DefinitionDiffers l) := by
    refine List.filter_congr fun d _ => ?_
    rw [Bool.eq_iff_iff, definitionClashes_iff hc, decide_eq_true_iff]
  let definitions :=
    ((l.reachableDefinitions.filter (c.DefinitionDiffers l)).map (·.name.text)).eraseDups
  let scripts := (l.reachableScripts.filter (c.scriptClashes l)).map (·.name.text)
  have hclashes : c.clashes l =
      definitions ++ (scripts.filter fun n => !definitions.contains n).eraseDups := by
    rw [clashes, addNew_append, addNew_nil, addNew_eq, hfilter]
  refine ⟨_, _, hclashes, rfl, ?_, ?_⟩
  · intro n
    simp only [List.mem_eraseDups, List.mem_filter, scripts, List.mem_map, scriptClashes_iff hc,
      Bool.not_eq_true', List.contains_eq_mem, decide_eq_false_iff_not]
    constructor
    · rintro ⟨⟨x, ⟨hx, hdiffers⟩, rfl⟩, hnew⟩
      exact ⟨hnew, x, hx, hdiffers, rfl⟩
    · rintro ⟨hnew, x, hx, hdiffers, rfl⟩
      exact ⟨⟨x, ⟨hx, hdiffers⟩, rfl⟩, hnew⟩
  · rw [← hclashes]
    exact nodup_addNew List.nodup_nil

/-! ### Loading -/

/-- Whether loading a library fails exactly on a clash, with the right report. -/
structure FailsOnClash (c : Catalog) (l : Library) : Prop where
  fails : (∃ e, c.load l = .error e) ↔ (∃ m ∈ c.libraries, m.name = l.name) ∨
    (∃ d ∈ l.reachableDefinitions, c.DefinitionDiffers l d) ∨
    ∃ x ∈ l.reachableScripts, c.ScriptDiffers l x
  taken : (∃ m ∈ c.libraries, m.name = l.name) →
    c.load l = .error (.definition l.name [.alreadyDefined l.name])
  clash : (∀ m ∈ c.libraries, m.name ≠ l.name) → ∀ e, c.load l = .error e →
    ∃ definitions scripts, c.Reports l definitions scripts ∧ definitions ++ scripts ≠ [] ∧
      e = .definition l.name ((definitions ++ scripts).map .alreadyDefined)
  works : ∀ c', c.load l = .ok c' → c'.libraries = c.libraries ++ [l]

theorem load_of_taken (h : ∃ m ∈ c.libraries, m.name = l.name) :
    c.load l = .error (.definition l.name [.alreadyDefined l.name]) := by
  have htaken : c.libraries.any (·.name == l.name) = true := by
    simpa [List.any_eq_true] using h
  rw [load, if_pos htaken]

/-- With a name of its own, a library is loaded unless something clashes. -/
theorem load_of_new (h : ∀ m ∈ c.libraries, m.name ≠ l.name) :
    (c.clashes l = [] ∧ c.load l = .ok ⟨c.libraries ++ [l]⟩) ∨
      (c.clashes l ≠ [] ∧
        c.load l = .error (.definition l.name ((c.clashes l).map .alreadyDefined))) := by
  have hnew : ¬c.libraries.any (·.name == l.name) = true := by
    simpa [List.any_eq_true] using h
  rw [load, if_neg hnew]
  cases hnames : c.clashes l with
  | nil => exact .inl ⟨rfl, rfl⟩
  | cons n ns => exact .inr ⟨List.cons_ne_nil n ns, rfl⟩

theorem clashes_ne_nil_iff (hc : c.Unique) :
    c.clashes l ≠ [] ↔ (∃ d ∈ l.reachableDefinitions, c.DefinitionDiffers l d) ∨
      ∃ x ∈ l.reachableScripts, c.ScriptDiffers l x := by
  simp only [ne_eq, clashes_eq_nil_iff, ← definitionClashes_iff hc, ← scriptClashes_iff hc]
  simp only [← Bool.not_eq_true, not_and_or, not_forall, not_not, exists_prop]

/-- **Loading fails exactly on a clash**, where names are unique. -/
theorem failsOnClash_of_unique (hc : c.Unique) (l : Library) : c.FailsOnClash l := by
  refine ⟨?_, load_of_taken, ?_, ?_⟩
  · by_cases htaken : ∃ m ∈ c.libraries, m.name = l.name
    · exact iff_of_true ⟨_, load_of_taken htaken⟩ (.inl htaken)
    · rw [← clashes_ne_nil_iff hc, or_iff_right htaken]
      rcases load_of_new (l := l) (by simpa using htaken) with ⟨hnone, hload⟩ | ⟨hsome, hload⟩
      · refine iff_of_false ?_ (not_not.mpr hnone)
        rintro ⟨e, he⟩
        rw [hload] at he
        cases he
      · exact iff_of_true ⟨_, hload⟩ hsome
  · intro hnew e he
    rcases load_of_new hnew with ⟨-, hload⟩ | ⟨hsome, hload⟩
    · rw [hload] at he
      cases he
    · obtain ⟨definitions, scripts, hnames, hreports⟩ := reports_clashes hc l
      rw [hload] at he
      cases he
      exact ⟨definitions, scripts, hreports, hnames ▸ hsome, by rw [hnames]⟩
  · intro c' hload
    rw [(load_eq_ok hload).1]

end Catalog

/-! ### Steps that load -/

namespace Session

open LibraryStep in
/-- What a step that loads a library does. -/
theorem step_load (s : Session) (handle : String) :
    s.step (.library (.load handle)) =
      match s.libraries.find? handle with
      | none => (.error (.noHandle .library handle), s.tidy)
      | some l =>
        if s.isOpen then
          match s.catalog.load l with
          | .ok c => (.ok (.ok true), { s with catalog := c }.tidy)
          | .error e => (.error (loadFault l e), s.tidy)
        else (.error .closed, s.tidy) := by
  rw [step, Step.take, take, Host.run_bind, Host.findLibrary, Host.run_find]
  cases s.libraries.find? handle with
  | none => rfl
  | some l =>
    dsimp only
    rw [Host.run_bind, Host.run_needOpen]
    by_cases isOpen : s.isOpen = true
    · have hget : (getThe Session : Host Session).run.run s = (.ok s, s) := rfl
      rw [if_pos isOpen, if_pos isOpen]
      dsimp only
      rw [Host.run_bind, hget]
      dsimp only
      cases s.catalog.load l with
      | error e => rfl
      | ok c => rfl
    · rw [if_neg isOpen, if_neg isOpen]

/-- Whether a step that loads the library called `handle` changes nothing when it fails, and does
what the catalog says otherwise. -/
structure LoadsOrKeeps (s : Session) (handle : String) : Prop where
  keeps : ∀ f, (s.step (.library (.load handle))).1 = .error f →
    (s.step (.library (.load handle))).2 = s.tidy ∧
      (s.step (.library (.load handle))).2.catalog = s.catalog
  refuses : s.isOpen = true → ∀ l, s.libraries.find? handle = some l → ∀ e,
    s.catalog.load l = .error e →
      (s.step (.library (.load handle))).1 = .error (LibraryStep.loadFault l e)
  loads : s.isOpen = true → ∀ l, s.libraries.find? handle = some l → ∀ c,
    s.catalog.load l = .ok c → (s.step (.library (.load handle))).1 = .ok (.ok true) ∧
      (s.step (.library (.load handle))).2.catalog = c

theorem loadsOrKeeps (s : Session) (handle : String) : s.LoadsOrKeeps handle := by
  refine ⟨?_, ?_, ?_⟩
  · intro f hf
    rw [step_load] at hf ⊢
    cases hl : s.libraries.find? handle with
    | none => exact ⟨rfl, rfl⟩
    | some l =>
      rw [hl] at hf
      dsimp only at hf ⊢
      by_cases isOpen : s.isOpen = true
      · rw [if_pos isOpen] at hf ⊢
        cases hload : s.catalog.load l with
        | error e => exact ⟨rfl, rfl⟩
        | ok c =>
          -- the one case in which something changes, and there is no fault in it
          rw [hload] at hf
          cases hf
      · rw [if_neg isOpen]
        exact ⟨rfl, rfl⟩
  · intro isOpen l hl e he
    rw [step_load, hl]
    dsimp only
    rw [if_pos isOpen, he]
  · intro isOpen l hl c hload
    rw [step_load, hl]
    dsimp only
    rw [if_pos isOpen, hload]
    exact ⟨rfl, rfl⟩

end Session

/-- **Loading fails exactly on a clash, and then changes nothing.**  Into whatever libraries were
loaded before, a library fails to load if and only if its name is taken or something reachable
from it differs from what a loaded library, or the library itself, has under its name.  What is
reported of a clash is each name once, those of definitions first and in the order in which they
are met.  A step of a session that fails to load leaves what was loaded as it was. -/
theorem loading_fails_on_clash_only :
    (∀ (ls : List Library) (l : Library), (Catalog.loadEach {} ls).FailsOnClash l) ∧
    ∀ s : Session, s.Reachable → (∀ l, s.catalog.FailsOnClash l) ∧
      ∀ handle, s.LoadsOrKeeps handle := by
  constructor
  · intro ls l
    exact Catalog.failsOnClash_of_unique (Catalog.unique_loadEach Catalog.unique_empty ls) l
  · intro s hs
    obtain ⟨made, written, hrecorded⟩ := hs.recorded
    exact ⟨Catalog.failsOnClash_of_unique hrecorded.unique, s.loadsOrKeeps⟩

namespace Rivals

/-- Something of either kind, under one name. -/
def tools : Library :=
  ⟨"tools", [], ⟨[.type ⟨0, ⟨"Point"⟩, none, [], [], [], none, none⟩]⟩,
    [.mk 1 ⟨"Point"⟩ [] none [] none], 0⟩

/-- Other things of that name, and one that is new. -/
def rival : Library :=
  ⟨"rival", [], ⟨[.type ⟨2, ⟨"Point"⟩, none, [], [], [], none, none⟩]⟩,
    [.mk 3 ⟨"Point"⟩ [] none [] none, .mk 4 ⟨"Line"⟩ [] none [] none], 1⟩

/-- Two libraries with types of one name, of which one is loaded. -/
def steps : List Step := [
  .definition (.type "Point" [] [] [] none none none "p"),
  .definition (.type "Point" [] [] [] none none none "q"),
  .library (.start "one" "b"),
  .library (.define (.type "p") "b"),
  .library (.build "b" "one"),
  .library (.start "two" "c"),
  .library (.define (.type "q") "c"),
  .library (.build "c" "two"),
  .library (.load "one")]

def session : Session :=
  ((Session.start {}).steps steps).2

end Rivals

open Rivals in
/-- The name that clashes twice is reported once; the other library is not loaded. -/
theorem loading_fails_on_clash_only_rival :
    (Catalog.loadEach {} [tools]).load rival =
      .error (.definition "rival" [.alreadyDefined "Point"]) ∧
    (∃ definitions scripts, (Catalog.loadEach {} [tools]).Reports rival definitions scripts ∧
      definitions ++ scripts ≠ [] ∧ Error.definition "rival" [.alreadyDefined "Point"] =
        .definition "rival" ((definitions ++ scripts).map .alreadyDefined)) ∧
    (session.step (.library (.load "two"))).1 =
      .error (.failed (.definition "two" [.alreadyDefined "Point"])) ∧
    (session.step (.library (.load "two"))).2.catalog = session.catalog := by
  have fault : (session.step (.library (.load "two"))).1 =
      .error (.failed (.definition "two" [.alreadyDefined "Point"])) := rfl
  have hs : session.Reachable := Session.reachable_steps {} steps
  have keeps := ((loading_fails_on_clash_only.2 session hs).2 "two").keeps
  refine ⟨rfl, ?_, fault, (keeps _ fault).2⟩
  refine (loading_fails_on_clash_only.1 [tools] rival).clash ?_ _ rfl
  intro m hm
  obtain rfl := List.mem_singleton.mp (show m ∈ [tools] from hm)
  decide

end Steward
