/-
Faults of definitions: a definition is refused for good reasons only, and all of them are told.

Three things are checked when a type is built: that no property name is declared twice, that the
declared contracts are met, and that the type does not descend from itself.  A contract is checked
for the first and the last.  Each check is a traversal with a memory of its own, and each is
compared here with what it is about:

* the names told to be repeated are those that occur twice, ordered by where they do so first
  (`firstRepeats_duplicateNames`);
* **`required_eq`** — the keys a contract asks for are those of its whole family tree, depth
  first, each where it is first met, although the traversal does not enter a name twice;
* **`isCyclic_iff`** — a type is told to descend from itself just when something it stands on has
  its name;
* **`definition_faults_exact`** — so a definition is refused exactly if something is wrong, and the
  error lists exactly what is wrong, in that order.

All but the first need `Coherent`.

Design notes: types and contracts differ only in what is to be checked, which is an `Outline`; the
rest is said of outlines.
-/
import Steward.Proofs.Promises

namespace Steward

/-! ### What a contract asks for -/

open Definition

namespace Contract

mutual

/-- The keys of the family tree of a contract, its own first, then those of its parents one after
the other: every key as often as it is met. -/
def unfolded : Contract → List Key
  | ⟨_, _, properties, parents⟩ => properties ++ unfoldedAll parents

def unfoldedAll : List Contract → List Key
  | [] => []
  | c :: cs => c.unfolded ++ unfoldedAll cs

end

mutual

theorem mem_unfolded_iff {k : Key} : ∀ {c : Contract},
    k ∈ c.unfolded ↔ ∃ e, (Definition.contract c).Descends e ∧ k ∈ e.declared
  | ⟨stamp, name, properties, parents⟩ => by
    rw [unfolded, List.mem_append, mem_unfoldedAll_iff]
    constructor
    · rintro (hk | ⟨p, hp, e, hpe, hk⟩)
      · exact ⟨_, .refl _, hk⟩
      · exact ⟨e, hpe.of_base (List.mem_map_of_mem hp), hk⟩
    · rintro ⟨e, hce, hk⟩
      rcases descends_iff.mp hce with rfl | ⟨b, hb, hbe⟩
      · exact .inl hk
      · obtain ⟨p, hp, rfl⟩ := List.mem_map.mp hb
        exact .inr ⟨p, hp, e, hbe, hk⟩

theorem mem_unfoldedAll_iff {k : Key} : ∀ {cs : List Contract},
    k ∈ unfoldedAll cs ↔ ∃ c ∈ cs, ∃ e, (Definition.contract c).Descends e ∧ k ∈ e.declared
  | [] => by simp [unfoldedAll]
  | c :: cs => by
    rw [unfoldedAll, List.mem_append, mem_unfolded_iff, mem_unfoldedAll_iff,
      List.exists_mem_cons_iff]

end

section Gather

variable {U : Set Definition} (hU : Coherent U)
include hU

mutual

/-- Gathering adds what is new in the family tree, if the names left behind hide nothing that was
not gathered before. -/
theorem gather_keys {found : Gathered} : ∀ {c : Contract}, .contract c ∈ closure U →
    (Definition.contract c).Clear (DeclaredIn found.keys) found.visited →
    (c.gather found).keys = addNew found.keys c.unfolded
  | ⟨stamp, name, properties, parents⟩, hc, clear => by
    rw [gather]
    split
    · -- the contract was left behind, and all its family with it
      rename_i hseen
      refine (addNew_eq_self fun k hk => ?_).symm
      obtain ⟨e, hce, hk⟩ := mem_unfolded_iff.mp hk
      exact clear _ (.refl _) hseen e hce k hk
    · have hbase : ∀ p ∈ parents, Definition.contract p ∈
          (Definition.contract ⟨stamp, name, properties, parents⟩).bases :=
        fun p hp => List.mem_map_of_mem hp
      rw [unfolded, addNew_append]
      refine gatherAll_keys ?_ ?_
      · exact fun p hp => descends_mem_closure hc (.of_base (hbase p hp) (.refl _))
      · intro p hp
        have hclear := clear.of_base hU hc (hbase p hp)
        exact hclear.mono fun e he k hk => mem_addNew.mpr (.inl (he k hk))

theorem gatherAll_keys {found : Gathered} : ∀ {cs : List Contract},
    (∀ c ∈ cs, .contract c ∈ closure U) →
    (∀ c ∈ cs, (Definition.contract c).Clear (DeclaredIn found.keys) found.visited) →
    (gatherAll found cs).keys = addNew found.keys (unfoldedAll cs)
  | [], _, _ => rfl
  | c :: cs, hcs, clear => by
    have hc := hcs c List.mem_cons_self
    have hrest := fun d hd => hcs d (List.mem_cons_of_mem c hd)
    have hkeys := gather_keys hc (clear c List.mem_cons_self)
    -- what the first contract leaves behind was gathered with it
    have hclear : ∀ d ∈ c :: cs,
        (Definition.contract d).Clear (DeclaredIn (c.gather found).keys) found.visited :=
      fun d hd => (clear d hd).mono fun e he k hk => mem_gather_of_found (he k hk) c
    have hevery : ∀ d ∈ [Definition.contract c], d.Every (DeclaredIn (c.gather found).keys) := by
      intro d hd e hde k hk
      obtain rfl := List.mem_singleton.mp hd
      rw [hkeys]
      exact mem_addNew.mpr (.inr (mem_unfolded_iff.mpr ⟨e, hde, hk⟩))
    have coherent : Coherent {d | d ∈ [Definition.contract c] ++ cs.map .contract} := by
      refine hU.of_subset_closure fun d hd => ?_
      rcases List.mem_append.mp hd with hd | hd
      · obtain rfl := List.mem_singleton.mp hd
        exact hc
      · obtain ⟨x, hx, rfl⟩ := List.mem_map.mp hd
        exact hrest x hx
    have visits : Visits (DeclaredIn (c.gather found).keys) found.visited [.contract c]
        (c.gather found).visited := visits_gather fun k hk => hk
    have hnext := visits.clear coherent hevery fun e he => by
      obtain ⟨d, hd, rfl⟩ := List.mem_map.mp he
      exact hclear d (List.mem_cons_of_mem c hd)
    rw [gatherAll, unfoldedAll, addNew_append, ← hkeys]
    exact gatherAll_keys hrest fun d hd => hnext _ (List.mem_map_of_mem hd)

end

/-- **What a contract asks for**: the keys of its family tree, depth first, each where it is first
met. -/
theorem required_eq {c : Contract} (hc : .contract c ∈ closure U) :
    c.required = c.unfolded.eraseDups := by
  rw [← addNew_nil]
  show (c.gather {}).keys = addNew (Gathered.keys {}) c.unfolded
  exact gather_keys hU hc fun _ _ hn => absurd hn List.not_mem_nil

end Gather

end Contract

/-! ### Descent from oneself -/

namespace Contract

theorem anyReaches_iff {target : Name} {cs : List Contract}
    (h : Coherent {d | d ∈ cs.map Definition.contract}) :
    (anyReaches target [] cs).1 = true ↔
      ∃ b ∈ cs.map Definition.contract, ∃ e, b.Descends e ∧ e.name = target := by
  constructor
  · intro hreaches
    obtain ⟨c, hc, hce⟩ := descends_of_anyReaches hreaches
    exact ⟨_, List.mem_map_of_mem hc, hce⟩
  · rintro ⟨b, hb, e, hbe, he⟩
    by_contra hno
    have visits := visits_of_anyReaches_false (Bool.eq_false_iff.mpr hno)
    exact visits.every h (fun _ _ _ _ hn => absurd hn List.not_mem_nil) b hb e hbe he

end Contract

namespace TypeSpec

/-- What the type to be stands on, in the order in which it is looked into. -/
def bases (s : TypeSpec) : List Definition :=
  s.contracts.map .contract ++ s.parent.toList.map .type

/-- **A type is told to descend from itself** just when something it stands on, however far away,
has its name. -/
theorem isCyclic_iff {s : TypeSpec} (h : Coherent {d | d ∈ s.bases}) :
    s.isCyclic = true ↔ ∃ b ∈ s.bases, ∃ e, b.Descends e ∧ e.name = s.name := by
  constructor
  · intro hcyclic
    rw [isCyclic] at hcyclic
    split at hcyclic
    · rename_i hcs
      obtain ⟨c, hc, hce⟩ := Contract.descends_of_anyReaches (congrArg Prod.fst hcs)
      exact ⟨_, List.mem_append_left _ (List.mem_map_of_mem hc), hce⟩
    · split at hcyclic
      · rename_i p hp
        refine ⟨.type p, List.mem_append_right _ ?_, ObjectType.descends_of_reaches hcyclic⟩
        rw [hp]
        exact List.mem_singleton_self _
      · cases hcyclic
  · rintro ⟨b, hb, e, hbe, he⟩
    by_contra hno
    -- one list of names for the contracts and the parent, so one walk through all of them
    have visits : ∃ after, Visits (·.name ≠ s.name) [] s.bases after := by
      rw [isCyclic] at hno
      split at hno
      · exact absurd rfl hno
      · rename_i between hcs
        have first := Contract.visits_of_anyReaches_false (congrArg Prod.fst hcs)
        rw [hcs] at first
        rw [bases]
        cases hp : s.parent with
        | none => exact ⟨between, visits_append first (visits_nil _ between)⟩
        | some p =>
          rw [hp] at hno
          have rest := ObjectType.visits_of_reaches_false (Bool.eq_false_iff.mpr hno)
          exact ⟨_, visits_append first rest⟩
    obtain ⟨after, visits⟩ := visits
    exact visits.every h (fun _ _ _ _ hn => absurd hn List.not_mem_nil) b hb e hbe he

end TypeSpec

/-! ### What is wrong with a definition -/

/-- What is checked of a definition: the names of all its properties, the contracts it has to meet
by what it shows, and what it stands on. -/
structure Outline where
  name : Name
  names : List String
  promised : List Contract
  shown : List Key
  bases : List Definition

namespace Outline

variable {o : Outline}

/-- The keys a contract asks for that are not shown, depth first and each once. -/
def missing (o : Outline) (c : Contract) : List Key :=
  (c.unfolded.filter (· ∉ o.shown)).eraseDups

/-- Whether the definition would descend from itself. -/
def Circular (o : Outline) : Prop :=
  ∃ b ∈ o.bases, ∃ e, b.Descends e ∧ e.name = o.name

/-- Whether nothing is wrong. -/
structure Proper (o : Outline) : Prop where
  names : o.names.Nodup
  shown : ∀ c ∈ o.promised, ∀ e, (Definition.contract c).Descends e → ∀ k ∈ e.declared, k ∈ o.shown
  straight : ¬o.Circular

/-- Whether `vs` is all that is wrong: a fault for each name that is repeated, then one for each
contract of which something is missing, then one for descent from itself. -/
def Faults (o : Outline) (vs : List Violation) : Prop :=
  ∃ repeated cycle, FirstRepeats o.names repeated ∧
    (o.Circular → cycle = [.cycle o.name.text]) ∧ (¬o.Circular → cycle = []) ∧
    vs = repeated.map .duplicateKey ++
      (o.promised.filter (o.missing · ≠ [])).map
        (fun c => .unmetContract c.name.text ((o.missing c).map Key.display)) ++ cycle

/-- Names and contracts may be gone through by any means, and so may what the definition stands
on. -/
theorem faults_of_iff {repeated : List String} {cyclic : Bool}
    (hrepeated : FirstRepeats o.names repeated) (hcyclic : cyclic = true ↔ o.Circular) :
    o.Faults (repeated.map .duplicateKey ++
      (o.promised.filter (o.missing · ≠ [])).map
        (fun c => .unmetContract c.name.text ((o.missing c).map Key.display)) ++
      if cyclic then [.cycle o.name.text] else []) :=
  ⟨repeated, _, hrepeated, fun hc => if_pos (hcyclic.mpr hc),
    fun hc => if_neg fun h => hc (hcyclic.mp h), rfl⟩

theorem missing_eq_nil_iff {c : Contract} :
    o.missing c = [] ↔
      ∀ e, (Definition.contract c).Descends e → ∀ k ∈ e.declared, k ∈ o.shown := by
  have hmem : ∀ k, k ∈ o.missing c ↔ k ∈ c.unfolded ∧ k ∉ o.shown := by
    intro k
    simp [missing, List.mem_eraseDups]
  rw [List.eq_nil_iff_forall_not_mem]
  simp only [hmem, Contract.mem_unfolded_iff, not_and, not_not]
  constructor
  · exact fun h e hce k hk => h k ⟨e, hce, hk⟩
  · rintro h k ⟨e, hce, hk⟩
    exact h e hce k hk

/-- There is nothing to tell of a definition if and only if nothing is wrong with it. -/
theorem Faults.eq_nil_iff {vs : List Violation} (h : o.Faults vs) : vs = [] ↔ o.Proper := by
  obtain ⟨repeated, cycle, hrepeated, hcircular, hstraight, rfl⟩ := h
  have hcycle : cycle = [] ↔ ¬o.Circular := by
    refine ⟨?_, hstraight⟩
    rintro rfl hc
    cases hcircular hc
  rw [List.append_eq_nil_iff, List.append_eq_nil_iff, List.map_eq_nil_iff, List.map_eq_nil_iff,
    List.filter_eq_nil_iff, hrepeated.eq_nil_iff, hcycle]
  simp only [ne_eq, decide_not, Bool.not_eq_true', decide_eq_false_iff_not, not_not,
    missing_eq_nil_iff]
  constructor
  · rintro ⟨⟨hnames, hshown⟩, hno⟩
    exact ⟨hnames, hshown, hno⟩
  · rintro ⟨hnames, hshown, hno⟩
    exact ⟨⟨hnames, hshown⟩, hno⟩

/-- Whether the result of a definition is `made` exactly if nothing is wrong, and all that is
wrong otherwise. -/
structure Settles {α : Type} (o : Outline) (made : α) (r : Except Error α) : Prop where
  ok_iff : ∀ a, r = .ok a ↔ a = made ∧ o.Proper
  error : ∀ e, r = .error e → ∃ vs, e = .definition o.name.text vs ∧ vs ≠ [] ∧ o.Faults vs

/-- It is enough to have all that is wrong, and to refuse what has something wrong. -/
theorem Faults.settles {α : Type} {made : α} {r : Except Error α} {vs : List Violation}
    (h : o.Faults vs)
    (hr : r = if vs.isEmpty then .ok made else .error (.definition o.name.text vs)) :
    o.Settles made r := by
  by_cases hvs : vs = []
  · have hproper := h.eq_nil_iff.mp hvs
    subst hvs
    rw [hr]
    refine ⟨fun a => ?_, fun e he => by cases he⟩
    constructor
    · intro ha
      cases ha
      exact ⟨rfl, hproper⟩
    · rintro ⟨rfl, -⟩
      rfl
  · rw [if_neg (by simpa using hvs)] at hr
    rw [hr]
    refine ⟨fun a => iff_of_false (fun ha => by cases ha) ?_, ?_⟩
    · rintro ⟨-, hproper⟩
      exact hvs (h.eq_nil_iff.mpr hproper)
    · intro e he
      cases he
      exact ⟨vs, rfl, hvs, h⟩

end Outline

namespace TypeSpec

/-- What comes from the parent, if there is one. -/
def inherited (s : TypeSpec) (keys : ObjectType → List Key) : List Key :=
  s.parent.elim [] keys

/-- What is checked of a type. -/
def outline (s : TypeSpec) : Outline where
  name := s.name
  names := (s.inherited ObjectType.publicKeys ++ s.publicKeys ++
    s.inherited ObjectType.privateKeys ++ s.privateKeys).map Key.name
  promised := s.contracts
  shown := s.inherited ObjectType.publicKeys ++ s.publicKeys
  bases := s.bases

theorem allPublic_eq (s : TypeSpec) :
    s.allPublic = s.inherited ObjectType.publicKeys ++ s.publicKeys := by
  rw [allPublic, inherited]
  cases s.parent <;> rfl

theorem allPrivate_eq (s : TypeSpec) :
    s.allPrivate = s.inherited ObjectType.privateKeys ++ s.privateKeys := by
  rw [allPrivate, inherited]
  cases s.parent <;> rfl

theorem missing_eq {s : TypeSpec} (h : Coherent {d | d ∈ s.bases}) {c : Contract}
    (hc : c ∈ s.contracts) : s.missing c = s.outline.missing c := by
  have hmem : Definition.contract c ∈ closure {d | d ∈ s.bases} :=
    subset_closure (List.mem_append_left _ (List.mem_map_of_mem hc))
  rw [missing, Contract.required_eq h hmem, ← addNew_nil, filter_addNew, List.filter_nil,
    addNew_nil, Outline.missing, allPublic_eq]
  rfl

/-- The contracts that object are those of which something is missing. -/
theorem filterMap_unmet?_eq {s : TypeSpec} {cs : List Contract}
    (h : ∀ c ∈ cs, s.missing c = s.outline.missing c) :
    cs.filterMap s.unmet? = (cs.filter (s.outline.missing · ≠ [])).map
      fun c => .unmetContract c.name.text ((s.outline.missing c).map Key.display) := by
  induction cs with
  | nil => rfl
  | cons c cs ih =>
    have hrest := ih fun d hd => h d (List.mem_cons_of_mem c hd)
    have hc := h c List.mem_cons_self
    cases hmissing : s.outline.missing c with
    | nil =>
      have hnone : s.unmet? c = none := by rw [unmet?, hc, hmissing]
      rw [List.filterMap_cons_none hnone, List.filter_cons_of_neg (by simp [hmissing]), hrest]
    | cons k ks =>
      have hsome : s.unmet? c =
          some (.unmetContract c.name.text ((s.outline.missing c).map Key.display)) := by
        rw [unmet?, hc, hmissing]
      rw [List.filterMap_cons_some hsome, List.filter_cons_of_pos (by simp [hmissing]), hrest,
        List.map_cons]

/-- The violations of a type are all that is wrong with it. -/
theorem faults_violations {s : TypeSpec} (h : Coherent {d | d ∈ s.bases}) :
    s.outline.Faults s.violations := by
  have hnames : (s.allPublic ++ s.allPrivate).map Key.name = s.outline.names := by
    rw [allPublic_eq, allPrivate_eq, ← List.append_assoc]
    rfl
  have hrepeated := firstRepeats_duplicateNames (s.allPublic ++ s.allPrivate)
  rw [hnames] at hrepeated
  rw [violations, filterMap_unmet?_eq fun c hc => missing_eq h hc]
  exact Outline.faults_of_iff hrepeated (isCyclic_iff h)

end TypeSpec

namespace Contract

/-- What is checked of a contract: it has nothing to meet. -/
def outline (name : Name) (properties : List Key) (parents : List Contract) : Outline where
  name := name
  names := properties.map Key.name
  promised := []
  shown := []
  bases := parents.map .contract

end Contract

/-- **Definitions are refused for good reasons only, and all of them are told.**  Where each name
that is reachable from what a definition stands on denotes one definition: a type is built exactly
if no name occurs twice among the properties of its parent and its own, every key of every contract
above a declared one is shown, and nothing it stands on has its name; its properties are then those
of its parent followed by its own.  Otherwise the error lists the names that are repeated, by where
they are repeated first, then the declared contracts with what is missing of each, then the
descent from itself.  The same holds of contracts, which have nothing to show. -/
theorem definition_faults_exact :
    (∀ (s : TypeSpec) (stamp : Nat), Coherent {d | d ∈ s.bases} →
      s.outline.Settles
        { stamp, name := s.name, parent := s.parent, contracts := s.contracts
          publicKeys := s.inherited ObjectType.publicKeys ++ s.publicKeys
          privateKeys := s.inherited ObjectType.privateKeys ++ s.privateKeys
          ctor := s.ctor, binding := s.binding : ObjectType }
        (s.build stamp)) ∧
    ∀ (stamp : Nat) (name : Name) (properties : List Key) (parents : List Contract),
      Coherent {d | d ∈ parents.map Definition.contract} →
      (Contract.outline name properties parents).Settles
        (⟨stamp, name, properties, parents⟩ : Contract)
        (Contract.define stamp name properties parents) := by
  constructor
  · intro s stamp h
    refine (TypeSpec.faults_violations h).settles ?_
    rw [TypeSpec.build, ← TypeSpec.allPublic_eq, ← TypeSpec.allPrivate_eq]
    cases s.violations <;> rfl
  · intro stamp name properties parents h
    have faults := Outline.faults_of_iff (o := Contract.outline name properties parents)
      (firstRepeats_duplicateNames properties) (Contract.anyReaches_iff h)
    refine faults.settles ?_
    rw [Contract.define, Contract.outline, List.filter_nil, List.map_nil, List.append_nil]

namespace Drawing

def edge : Key := ⟨"edge", ⟨"Num"⟩⟩

def fill : Key := ⟨"fill", ⟨"Num"⟩⟩

def label : Key := ⟨"label", ⟨"Text"⟩⟩

def shape : Contract := ⟨0, ⟨"Geo.Shape"⟩, [edge], []⟩

def drawn : Contract := ⟨1, ⟨"Geo.Drawn"⟩, [fill, label], [shape]⟩

def named : Contract := ⟨2, ⟨"Geo.Named"⟩, [label], [shape, drawn]⟩

def figure : ObjectType := ⟨3, ⟨"Geo.Figure"⟩, none, [], [label], [⟨"id", ⟨"Num"⟩⟩], none, none⟩

/-- A type with everything wrong: names are declared twice, two contracts miss what they share with
a third, and the third has the name of the type. -/
def square : TypeSpec where
  name := ⟨"Geo.Shape"⟩
  parent := some figure
  contracts := [drawn, named]
  publicKeys := [⟨"size", ⟨"Num"⟩⟩]
  privateKeys := [⟨"size", ⟨"Num"⟩⟩, label, ⟨"size", ⟨"Text"⟩⟩]

theorem coherent_square : Coherent {d | d ∈ square.bases} := by
  have hmem : ∀ d ∈ square.bases,
      d ∈ [.contract drawn, .contract named, .type figure, .contract shape] :=
    fun d hd => List.mem_append_left [Definition.contract shape] hd
  refine coherent_of_nodup hmem ?_ (by decide)
  simp [drawn, named, shape, figure, Definition.bases]

theorem coherent_drawn : Coherent {d | d ∈ [shape].map Definition.contract} :=
  coherent_of_nodup (fun _ hd => hd) (by simp [shape, Definition.bases]) (by decide)

end Drawing

open Drawing in
theorem definition_faults_exact_square :
    Coherent {d | d ∈ square.bases} ∧
    square.build 4 = .error (.definition "Geo.Shape" [
      .duplicateKey "size", .duplicateKey "label",
      .unmetContract "Geo.Drawn" [fill.display, edge.display],
      .unmetContract "Geo.Named" [edge.display, fill.display],
      .cycle "Geo.Shape"]) ∧
    (∃ vs, Error.definition "Geo.Shape" [
        .duplicateKey "size", .duplicateKey "label",
        .unmetContract "Geo.Drawn" [fill.display, edge.display],
        .unmetContract "Geo.Named" [edge.display, fill.display],
        .cycle "Geo.Shape"] = .definition "Geo.Shape" vs ∧ vs ≠ [] ∧ square.outline.Faults vs) ∧
    Coherent {d | d ∈ [shape].map Definition.contract} ∧
    (Contract.outline ⟨"Geo.Drawn"⟩ [fill, label] [shape]).Proper :=
  ⟨coherent_square, rfl, (definition_faults_exact.1 square 4 coherent_square).error _ rfl,
    coherent_drawn,
    (((definition_faults_exact.2 1 ⟨"Geo.Drawn"⟩ [fill, label] [shape] coherent_drawn).ok_iff
      drawn).mp rfl).2⟩

end Steward
