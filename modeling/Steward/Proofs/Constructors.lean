/-
Constructors: what a library promises of its types when it is built is kept when they are made.

The name of a constructor is looked up twice.  When a library is built it is looked up in that
library; when an object is made it is looked up in the catalog, where other libraries come first
or came later.

* **`resolveScript_of_library`** — where names are unique, what a loaded library finds under a name
  is what the catalog finds;
* **`ComesTo.ne_unknownScript`** — a run does not fail for want of a script that the catalog
  has, not even in a call of a call;
* **`constructors_stay_resolvable`** — so the constructor of a type of a loaded library is found,
  and making an object never fails for want of it.
-/
import Steward.Proofs.Assembly
import Steward.Proofs.Failures

namespace Steward

/-- **Only a name that the catalog does not have is unknown**, at whatever depth of a run. -/
theorem Moment.ComesTo.ne_unknownScript {env : Env} {task : Task} {s : Store}
    {out : Outcome Context} (hrun : ComesTo env ⟨task, [], s⟩ out) (hstart : ∀ r, task ≠ .done r)
    {name : Name} {x : Script} (h : env.catalog.resolveScript name = .ok x) :
    out.1 ≠ .error (.unknownScript name.text) := by
  intro he
  obtain ⟨m, -, hraised⟩ := Passes.raises hrun hstart (congrArg Task.done he)
  generalize htext : name.text = text at hraised
  cases hraised with
  | ordinary h => cases h
  | @unknown other hnone =>
    obtain rfl : name = other := by
      cases name
      cases other
      exact congrArg Name.mk htext
    rw [Catalog.resolveScript, hnone] at h
    cases h

/-- Making an object is such a run. -/
theorem Env.construct_ne_unknownScript {env : Env} {name : Name} {x : Script}
    (h : env.catalog.resolveScript name = .ok x) (held : Held) (type : ObjectType) (scope : Scope)
    (s : Store) : (env.construct held type scope s).1 ≠ .error (.unknownScript name.text) := by
  intro he
  have hrun := Moment.comesTo_outcome env ⟨.construct held none type scope, [], s⟩
  refine hrun.ne_unknownScript (fun r hr => by cases hr) h ?_
  change ((Task.construct held none type scope).outcome env s).1 = _
  rw [Task.outcome_construct, he]
  rfl

namespace Catalog

variable {c : Catalog} {l : Library}

/-- What a loaded library finds under a name, the catalog finds. -/
theorem resolveScript_of_library (hc : c.Unique) (hl : l ∈ c.libraries) {name : Name} {x : Script}
    (hx : l.resolveScript? name = some x) : ∃ y, c.resolveScript name = .ok y ∧
      x ∈ l.reachableScripts ∧ y ∈ c.scripts ∧ x.name = y.name ∧ x.same y = true := by
  rw [Library.resolveScript?_eq] at hx
  have hmem := List.mem_of_find?_eq_some hx
  have hname : x.name = name := by simpa using List.find?_some hx
  have hx' : x ∈ c.scripts := List.mem_flatMap.mpr ⟨l, hl, hmem⟩
  obtain ⟨y, hy, hymem, hyname⟩ := find?_name_isSome hx' hname
  have hsame : x.name = y.name := hname.trans hyname.symm
  refine ⟨y, ?_, hmem, hymem, hsame, ?_⟩
  · rw [resolveScript_eq, resolveScript?_eq, elim_eq_ok_iff]
    exact hy
  · exact (Script.same_iff x y).mpr (hc.scripts x hx' y hymem hsame)

/-- What becomes of a constructor that was looked up in a library when this was built, where
`same` says when two scripts count as one. -/
structure FindsConstructor (c : Catalog) (same : Script → Script → Prop) (l : Library)
    (t : ObjectType) (name : Name) : Prop where
  /-- What was found when the library was built is what is found now. -/
  finds : ∃ x y, l.resolveScript? name = some x ∧ c.resolveScript name = .ok y ∧ same x y
  /-- Neither making an object of the type nor running a script fails for want of it, nor does
  anything else that is run, whoever is cancelled in the course of it. -/
  makes : ∀ env : Env, env.catalog = c → ∀ held s,
    (∀ scope, (env.construct held t scope s).1 ≠ .error (.unknownScript name.text)) ∧
    (∀ call, (env.run held call s).1 ≠ .error (.unknownScript name.text)) ∧
    ∀ task out, (∀ r, task ≠ .done r) → Moment.ComesTo env ⟨task, [], s⟩ out →
      out.1 ≠ .error (.unknownScript name.text)

/-- Whether the constructors of all types of the loaded libraries are found. -/
def FindsConstructors (c : Catalog) (same : Script → Script → Prop) : Prop :=
  ∀ l ∈ c.libraries, ∀ t, .type t ∈ l.registry.definitions → ∀ name, t.ctor = some name →
    c.FindsConstructor same l t name

/-- **Constructors are found**, where names are unique and libraries were put together as they
should. -/
theorem findsConstructors_of_unique (hc : c.Unique) (assembled : ∀ l ∈ c.libraries, l.Assembled)
    {same : Script → Script → Prop}
    (hsame : ∀ l ∈ c.libraries, ∀ x ∈ l.reachableScripts, ∀ y ∈ c.scripts, x.name = y.name →
      x.same y = true → same x y) : c.FindsConstructors same := by
  intro l hl t ht name hname
  obtain ⟨x, hx⟩ := (assembled l hl).resolves_constructor ht hname
  obtain ⟨y, hy, hxmem, hymem, hnames, hxy⟩ := resolveScript_of_library hc hl hx
  refine ⟨⟨x, y, hx, hy, hsame l hl x hxmem y hymem hnames hxy⟩, ?_⟩
  rintro env rfl held s
  refine ⟨fun scope => Env.construct_ne_unknownScript hy held t scope s, fun call => ?_,
    fun task out hstart hrun => hrun.ne_unknownScript hstart hy⟩
  have hrun := Moment.comesTo_outcome env ⟨.call held call, [], s⟩
  exact hrun.ne_unknownScript (fun r hr => by cases hr) hy

/-- Only libraries that were to be loaded are loaded. -/
theorem mem_of_loadEach {c : Catalog} {ls : List Library} :
    ∀ l ∈ (c.loadEach ls).libraries, l ∈ c.libraries ∨ l ∈ ls := by
  induction ls generalizing c with
  | nil => exact fun l hl => .inl hl
  | cons m ls ih =>
    intro l hl
    rw [loadEach] at hl
    split at hl
    · rename_i c' hload
      obtain ⟨rfl, -⟩ := load_eq_ok hload
      rcases ih l hl with hl | hl
      · rcases List.mem_append.mp hl with hl | hl
        · exact .inl hl
        · exact .inr (List.mem_cons.mpr (.inl (List.mem_singleton.mp hl)))
      · exact .inr (List.mem_cons_of_mem m hl)
    · exact (ih l hl).imp_right (List.mem_cons_of_mem m)

end Catalog

/-- **Validated constructors stay resolvable.**  Whatever libraries are put together and loaded
one after the other, and whether it works or not: the constructor of a type of a loaded library is
found in the catalog, as the very script that was found when the library was built, and neither
making such an object nor running anything else fails for want of it.  In a session the very script
is an equal one. -/
theorem constructors_stay_resolvable :
    (∀ ls : List Library, (∀ l ∈ ls, l.Assembled) →
      (Catalog.loadEach {} ls).FindsConstructors fun x y => x.same y = true) ∧
    ∀ s : Session, s.Reachable → s.catalog.FindsConstructors fun x y => x = y := by
  constructor
  · intro ls hls
    refine Catalog.findsConstructors_of_unique
      (Catalog.unique_loadEach Catalog.unique_empty ls) ?_ fun _ _ _ _ _ _ _ hsame => hsame
    intro l hl
    rcases Catalog.mem_of_loadEach l hl with hl | hl
    · exact absurd hl List.not_mem_nil
    · exact hls l hl
  · intro s hs
    obtain ⟨made, written, hrecorded⟩ := hs.recorded
    refine Catalog.findsConstructors_of_unique hrecorded.unique hs.assembled.catalog ?_
    intro l hl x hx y hy hname _
    obtain ⟨m, hm, hy⟩ := List.mem_flatMap.mp hy
    exact (hrecorded.eq_of_name hl hm).2 x hx y hy hname

namespace Kit

/-- A script that makes tools ready. -/
def ready : Script := .mk 0 ⟨"Ready"⟩ [] none [] (some 1)

def tool : ObjectType := ⟨1, ⟨"Tool"⟩, none, [], [], [], some ⟨"Ready"⟩, none⟩

def scripts : Library := ⟨"scripts", [], {}, [ready], 1⟩

/-- The type is in one library and its constructor in another, which it depends on. -/
def tools : Library := ⟨"tools", [scripts], ⟨[.type tool]⟩, [], 2⟩

/-- A library with another script of the name. -/
def rival : Library := ⟨"rival", [], {}, [.mk 2 ⟨"Ready"⟩ [] none [] (some 3)], 3⟩

theorem assembled : ∀ l ∈ [tools, rival], l.Assembled := by
  have hready : Draft.addScript ⟨"scripts", [], {}, [], 1⟩ ready 0 = .ok _ := rfl
  have hother : Draft.addScript ⟨"rival", [], {}, [], 3⟩ ready 2 = .ok _ := rfl
  have hscripts := Draft.Assembled.addScript (.start "scripts" 1) hready
  have htools := Draft.Assembled.define (.depend (.start "tools" 2) hscripts (l := scripts) rfl)
    (x := .type tool) rfl
  have hrival := Draft.Assembled.addScript (.start "rival" 3) hother
  intro l hl
  simp only [List.mem_cons, List.not_mem_nil, or_false] at hl
  rcases hl with rfl | rfl
  · exact ⟨_, htools, rfl⟩
  · exact ⟨_, hrival, rfl⟩

/-- The same in a session: the library with the type is loaded, the other one refused. -/
def steps : List Step := [
  .definition (.type "Tool" [] [] [] none (some "Ready") none "tool"),
  .library (.start "scripts" "b"),
  .call (.script "Ready" [] none [] none (some "b") "ready"),
  .library (.build "b" "scripts"),
  .library (.start "tools" "c"),
  .library (.depend "scripts" "c"),
  .library (.define (.type "tool") "c"),
  .library (.build "c" "tools"),
  .library (.load "tools"),
  .library (.start "rival" "d"),
  .call (.script "Ready" [] none [] none (some "d") "other"),
  .library (.build "d" "rival"),
  .library (.load "rival")]

def session : Session :=
  ((Session.start {}).steps steps).2

end Kit

open Kit in
/-- The constructor is found by way of a dependency, and a rival of its name is not loaded. -/
theorem constructors_stay_resolvable_tools :
    (Catalog.loadEach {} [tools, rival]).libraries = [tools] ∧
    (∃ x y, tools.resolveScript? ⟨"Ready"⟩ = some x ∧
      (Catalog.loadEach {} [tools, rival]).resolveScript ⟨"Ready"⟩ = .ok y ∧ x.same y = true) ∧
    session.catalog.libraries.map Library.name = ["tools"] ∧
    ∃ l ∈ session.catalog.libraries, ∃ t, .type t ∈ l.registry.definitions ∧
      t.ctor = some ⟨"Ready"⟩ ∧ ∀ scope,
        (session.env.construct session.held t scope session.store).1 ≠
          .error (.unknownScript "Ready") := by
  have loaded : (Catalog.loadEach {} [tools, rival]).libraries = [tools] := rfl
  have found := constructors_stay_resolvable.1 [tools, rival] assembled tools
    (by rw [loaded]; exact List.mem_singleton_self _) tool (List.mem_singleton_self _) _ rfl
  have kept := constructors_stay_resolvable.2 session (Session.reachable_steps {} steps)
  have hcatalog : ∀ s : Session, s.env.catalog = s.catalog := fun _ => rfl
  have names : (session.catalog.libraries.flatMap (·.registry.definitions)).filterMap
      (fun d => d.type?.bind ObjectType.ctor) = [⟨"Ready"⟩] := by decide +kernel
  obtain ⟨d, hd, hctor⟩ := List.mem_filterMap.mp (names ▸ List.mem_singleton_self _)
  obtain ⟨l, hl, hd⟩ := List.mem_flatMap.mp hd
  cases d with
  | contract k => cases hctor
  | type t =>
    refine ⟨loaded, found.finds, by decide +kernel, l, hl, t, hd, hctor, fun scope => ?_⟩
    exact ((kept l hl t hd _ hctor).makes _ (hcatalog session) _ _).1 scope

end Steward
