/-
Descent: which definitions stand behind a definition.

A definition names others: a contract its parents, a type its contracts and its
parent.  `Descends` is the closure of that relation, and compatibility, which the
library computes by a walk that leaves visited *names* behind, is descent:

* **`isNamed_iff_descends`** — a definition is compatible with exactly the names of
  the definitions it descends from, itself included;
* **`compatibility_partialOrder`** — hence compatibility is a partial order.

Both need `Coherent`: among everything that is reachable, a name stands for one
definition.  Without it the walk can take one definition for another.

Design notes: the walks that keep a list of visited names all have one shape, so the
argument is made once, for `Visits`.  A definition is built from finished ones, so
nothing descends from what descends from it (`Descends.eq_or_sizeOf_lt`); this is why
the names of the definitions a walk is still inside of do no harm.
-/
import Mathlib.Data.List.Nodup
import Mathlib.Logic.Relation
import Steward.Definition.Registry

namespace Steward

namespace Definition

/-- The definitions a definition names itself, in the order in which they are looked
into. -/
def bases : Definition → List Definition
  | type t => t.contracts.map contract ++ t.parent.toList.map type
  | contract c => c.parents.map contract

/-- Whether `d` is `e` or stands, in any number of steps, on `e`. -/
def Descends (d e : Definition) : Prop :=
  Relation.ReflTransGen (fun a b => b ∈ a.bases) d e

/-- Everything that the definitions of a set descend from. -/
def closure (U : Set Definition) : Set Definition :=
  {e | ∃ d ∈ U, d.Descends e}

/-- A set of definitions is coherent when, among everything reachable from it, a name
stands for one definition. -/
def Coherent (U : Set Definition) : Prop :=
  ∀ d ∈ closure U, ∀ e ∈ closure U, d.name = e.name → d = e

/-! ### Descent -/

theorem Descends.refl (d : Definition) : d.Descends d :=
  Relation.ReflTransGen.refl

theorem Descends.trans {d e f : Definition} (hde : d.Descends e) (hef : e.Descends f) :
    d.Descends f :=
  Relation.ReflTransGen.trans hde hef

theorem Descends.of_base {d b e : Definition} (hb : b ∈ d.bases) (h : b.Descends e) :
    d.Descends e :=
  Relation.ReflTransGen.head hb h

/-- Descent, by its first step. -/
theorem descends_iff {d e : Definition} :
    d.Descends e ↔ e = d ∨ ∃ b ∈ d.bases, b.Descends e := by
  rw [Descends, Relation.ReflTransGen.cases_head_iff]
  constructor
  · rintro (h | ⟨b, hb, h⟩)
    · exact .inl h.symm
    · exact .inr ⟨b, hb, h⟩
  · rintro (h | ⟨b, hb, h⟩)
    · exact .inl h.symm
    · exact .inr ⟨b, hb, h⟩

theorem sizeOf_lt_of_mem_bases {d b : Definition} (h : b ∈ d.bases) : sizeOf b < sizeOf d := by
  cases d with
  | type t =>
    obtain ⟨stamp, name, parent, contracts, publicKeys, privateKeys, ctor, binding⟩ := t
    rcases List.mem_append.mp h with h | h
    · obtain ⟨c, hc, rfl⟩ := List.mem_map.mp h
      have hlt : sizeOf c < sizeOf contracts := List.sizeOf_lt_of_mem hc
      simp only [type.sizeOf_spec, contract.sizeOf_spec, ObjectType.mk.sizeOf_spec]
      omega
    · obtain ⟨p, hp, rfl⟩ := List.mem_map.mp h
      obtain rfl : parent = some p := by simpa using hp
      simp only [type.sizeOf_spec, ObjectType.mk.sizeOf_spec, Option.some.sizeOf_spec]
      omega
  | contract c =>
    obtain ⟨stamp, name, properties, parents⟩ := c
    obtain ⟨p, hp, rfl⟩ := List.mem_map.mp h
    have hlt : sizeOf p < sizeOf parents := List.sizeOf_lt_of_mem hp
    simp only [contract.sizeOf_spec, Contract.mk.sizeOf_spec]
    omega

/-- What a definition descends from is smaller, unless it is the definition itself. -/
theorem Descends.eq_or_sizeOf_lt {d e : Definition} (h : d.Descends e) :
    e = d ∨ sizeOf e < sizeOf d := by
  induction h with
  | refl => exact .inl rfl
  | tail _ hb ih =>
    have hlt := sizeOf_lt_of_mem_bases hb
    rcases ih with rfl | ih
    · exact .inr hlt
    · exact .inr (by omega)

/-- Two definitions that descend from each other are one. -/
theorem Descends.antisymm {d e : Definition} (hde : d.Descends e) (hed : e.Descends d) :
    d = e := by
  rcases hde.eq_or_sizeOf_lt with h | h
  · exact h.symm
  · rcases hed.eq_or_sizeOf_lt with h' | h'
    · exact h'
    · omega

/-- A definition does not stand on itself. -/
theorem Descends.ne_of_base {d b e : Definition} (hb : b ∈ d.bases) (h : b.Descends e) :
    e ≠ d := by
  rintro rfl
  have hlt := sizeOf_lt_of_mem_bases hb
  rcases h.eq_or_sizeOf_lt with h | h
  · subst h
    omega
  · omega

theorem subset_closure {U : Set Definition} {d : Definition} (h : d ∈ U) : d ∈ closure U :=
  ⟨d, h, .refl d⟩

theorem descends_mem_closure {U : Set Definition} {d e : Definition} (hd : d ∈ closure U)
    (h : d.Descends e) : e ∈ closure U := by
  obtain ⟨a, ha, had⟩ := hd
  exact ⟨a, ha, had.trans h⟩

/-- A set of reachable definitions is coherent with the set it is reached from. -/
theorem Coherent.of_subset_closure {U W : Set Definition} (h : Coherent U)
    (hW : W ⊆ closure U) : Coherent W := by
  rintro d ⟨a, ha, had⟩ e ⟨b, hb, hbe⟩ hn
  exact h d (descends_mem_closure (hW ha) had) e (descends_mem_closure (hW hb) hbe) hn

/-- A list of definitions of different names that holds the bases of each of them is
coherent, and so is every part of it. -/
theorem coherent_of_nodup {U : Set Definition} {ds : List Definition} (hU : ∀ d ∈ U, d ∈ ds)
    (closed : ∀ d ∈ ds, ∀ b ∈ d.bases, b ∈ ds) (nodup : (ds.map name).Nodup) : Coherent U := by
  have inside : ∀ e ∈ closure U, e ∈ ds := by
    rintro e ⟨d, hd, hde⟩
    induction hde with
    | refl => exact hU d hd
    | tail _ hb ih => exact closed _ ih _ hb
  intro d hd e he hn
  exact List.inj_on_of_nodup_map nodup (inside d hd) (inside e he) hn

/-! ### Walks that leave names behind -/

/-- Whether everything that `d` descends from has the property. -/
def Every (P : Definition → Prop) (d : Definition) : Prop :=
  ∀ e, d.Descends e → P e

/-- Whether the names left behind stand, as far as `d` can meet them, for definitions
that need no second look. -/
def Clear (P : Definition → Prop) (visited : List Name) (d : Definition) : Prop :=
  ∀ e, d.Descends e → e.name ∈ visited → e.Every P

/-- What a walk over `ds` does that starts with the names `visited`, ends with `after`
and finds `P` wherever it looks: it leaves behind only names it met, and in a coherent
set its skipping what it has seen makes no difference. -/
structure Visits (P : Definition → Prop) (visited : List Name) (ds : List Definition)
    (after : List Name) : Prop where
  met : ∀ n ∈ after, n ∈ visited ∨ ∃ d ∈ ds, ∃ e, d.Descends e ∧ e.name = n
  every : Coherent {d | d ∈ ds} → (∀ d ∈ ds, d.Clear P visited) → ∀ d ∈ ds, d.Every P

theorem every_iff {P : Definition → Prop} {d : Definition} :
    d.Every P ↔ P d ∧ ∀ b ∈ d.bases, b.Every P := by
  constructor
  · intro h
    exact ⟨h d (.refl d), fun b hb e he => h e (he.of_base hb)⟩
  · rintro ⟨hd, hb⟩ e he
    rcases descends_iff.mp he with rfl | ⟨b, hmem, hbe⟩
    · exact hd
    · exact hb b hmem e hbe

theorem Clear.mono {P Q : Definition → Prop} {visited : List Name} {d : Definition}
    (h : d.Clear P visited) (hPQ : ∀ e, P e → Q e) : d.Clear Q visited :=
  fun e hde hn f hef => hPQ f (h e hde hn f hef)

/-- Below a definition its own name hides nothing, since nothing there has it. -/
theorem Clear.of_base {P : Definition → Prop} {visited : List Name} {U : Set Definition}
    {d b : Definition} (clear : d.Clear P visited) (coherent : Coherent U) (hd : d ∈ closure U)
    (hb : b ∈ d.bases) : b.Clear P (d.name :: visited) := by
  intro e hbe hn
  rcases List.mem_cons.mp hn with hn | hn
  · have he := descends_mem_closure hd (hbe.of_base hb)
    exact absurd (coherent e he d hd hn) (hbe.ne_of_base hb)
  · exact clear e (hbe.of_base hb) hn

/-- What a walk over `ds` leaves behind was looked into, so that a walk over `es` may go on from
there. -/
theorem Visits.clear {P : Definition → Prop} {visited between : List Name}
    {ds es : List Definition} (h : Visits P visited ds between)
    (coherent : Coherent {d | d ∈ ds ++ es}) (every : ∀ d ∈ ds, d.Every P)
    (clear : ∀ e ∈ es, e.Clear P visited) : ∀ e ∈ es, e.Clear P between := by
  intro e he f hef hn
  rcases h.met f.name hn with hn | ⟨d, hd, g, hdg, hgf⟩
  · exact clear e he f hef hn
  · -- the name was met under `ds`, so it stands for a definition looked into there
    have hg : g ∈ closure {d | d ∈ ds ++ es} := ⟨d, List.mem_append_left es hd, hdg⟩
    obtain rfl := coherent g hg f ⟨e, List.mem_append_right ds he, hef⟩ hgf
    exact fun x hx => every d hd x (hdg.trans hx)

theorem visits_nil (P : Definition → Prop) (visited : List Name) : Visits P visited [] visited where
  met _ hn := .inl hn
  every _ _ _ hd := absurd hd List.not_mem_nil

/-- A definition whose name was left behind is not looked into. -/
theorem visits_seen {P : Definition → Prop} {visited : List Name} {d : Definition}
    (h : d.name ∈ visited) : Visits P visited [d] visited where
  met _ hn := .inl hn
  every _ clear e he := by
    obtain rfl := List.mem_singleton.mp he
    exact clear e he e (.refl e) h

/-- A definition is looked into by way of its bases. -/
theorem visits_node {P : Definition → Prop} {visited after : List Name} {d : Definition}
    (hP : P d) (h : Visits P (d.name :: visited) d.bases after) :
    Visits P visited [d] after where
  met n hn := by
    rcases h.met n hn with hn | ⟨b, hb, e, hbe, rfl⟩
    · rcases List.mem_cons.mp hn with rfl | hn
      · exact .inr ⟨d, List.mem_singleton_self d, d, .refl d, rfl⟩
      · exact .inl hn
    · exact .inr ⟨d, List.mem_singleton_self d, e, hbe.of_base hb, rfl⟩
  every coherent clear x hx := by
    obtain rfl := List.mem_singleton.mp hx
    have hmem : ∀ {b}, b ∈ x.bases → b ∈ closure {d | d ∈ [x]} := fun hb =>
      ⟨x, hx, Descends.of_base hb (.refl _)⟩
    refine every_iff.mpr ⟨hP, h.every (coherent.of_subset_closure fun b hb => hmem hb) ?_⟩
    exact fun b hb => (clear x hx).of_base coherent (subset_closure hx) hb

/-- Walks can be made one after the other with one list of names. -/
theorem visits_append {P : Definition → Prop} {visited between after : List Name}
    {ds es : List Definition} (hd : Visits P visited ds between)
    (he : Visits P between es after) : Visits P visited (ds ++ es) after where
  met n hn := by
    rcases he.met n hn with hn | ⟨e, hmem, h⟩
    · rcases hd.met n hn with hn | ⟨d, hmem, h⟩
      · exact .inl hn
      · exact .inr ⟨d, List.mem_append_left _ hmem, h⟩
    · exact .inr ⟨e, List.mem_append_right _ hmem, h⟩
  every coherent clear := by
    have left : ∀ {d}, d ∈ ds → d ∈ closure {d | d ∈ ds ++ es} := fun h =>
      subset_closure (List.mem_append_left es h)
    have right : ∀ {e}, e ∈ es → e ∈ closure {d | d ∈ ds ++ es} := fun h =>
      subset_closure (List.mem_append_right ds h)
    have first := hd.every (coherent.of_subset_closure fun d h => left h) fun d h =>
      clear d (List.mem_append_left es h)
    have second := he.every (coherent.of_subset_closure fun e h => right h)
      (hd.clear coherent first fun e h => clear e (List.mem_append_right ds h))
    intro x hx
    rcases List.mem_append.mp hx with hx | hx
    · exact first x hx
    · exact second x hx

end Definition

/-! ### The walk behind compatibility -/

open Definition

namespace Contract

mutual

/-- A contract that does not reach the target was walked through and nothing in it is
called so. -/
theorem visits_of_reaches_false {target : Name} {visited : List Name} :
    ∀ {c : Contract}, (c.reaches target visited).1 = false →
      Visits (·.name ≠ target) visited [.contract c] (c.reaches target visited).2
  | ⟨stamp, name, properties, parents⟩, h => by
    rw [reaches] at h ⊢
    split
    · rename_i hname
      simp [hname] at h
    · rename_i hname
      rw [if_neg hname] at h
      split
      · rename_i hseen
        exact visits_seen hseen
      · rename_i hseen
        rw [if_neg hseen] at h
        exact visits_node (d := .contract ⟨stamp, name, properties, parents⟩) hname
          (visits_of_anyReaches_false h)

theorem visits_of_anyReaches_false {target : Name} {visited : List Name} :
    ∀ {cs : List Contract}, (anyReaches target visited cs).1 = false →
      Visits (·.name ≠ target) visited (cs.map .contract) (anyReaches target visited cs).2
  | [], _ => visits_nil _ visited
  | c :: cs, h => by
    rw [anyReaches] at h ⊢
    split
    · rename_i hc
      simp [hc] at h
    · rename_i between hc
      rw [hc] at h
      have first := visits_of_reaches_false (congrArg Prod.fst hc)
      rw [hc] at first
      exact visits_append first (visits_of_anyReaches_false h)

end

mutual

theorem descends_of_reaches {target : Name} {visited : List Name} :
    ∀ {c : Contract}, (c.reaches target visited).1 = true →
      ∃ e, (Definition.contract c).Descends e ∧ e.name = target
  | ⟨stamp, name, properties, parents⟩, h => by
    rw [reaches] at h
    split at h
    · rename_i hname
      exact ⟨_, .refl _, hname⟩
    · split at h
      · exact absurd h Bool.false_ne_true
      · obtain ⟨p, hp, e, hpe, he⟩ := descends_of_anyReaches h
        exact ⟨e, hpe.of_base (List.mem_map_of_mem hp), he⟩

theorem descends_of_anyReaches {target : Name} {visited : List Name} :
    ∀ {cs : List Contract}, (anyReaches target visited cs).1 = true →
      ∃ c ∈ cs, ∃ e, (Definition.contract c).Descends e ∧ e.name = target
  | [], h => absurd h Bool.false_ne_true
  | c :: cs, h => by
    rw [anyReaches] at h
    split at h
    · rename_i hc
      exact ⟨c, List.mem_cons_self, descends_of_reaches (congrArg Prod.fst hc)⟩
    · obtain ⟨d, hd, e, hde, he⟩ := descends_of_anyReaches h
      exact ⟨d, List.mem_cons_of_mem c hd, e, hde, he⟩

end

end Contract

namespace ObjectType

/-- As for contracts: the contracts of a type are walked through, then its parent. -/
theorem visits_of_reaches_false {target : Name} {visited : List Name} :
    ∀ {t : ObjectType}, (t.reaches target visited).1 = false →
      Visits (·.name ≠ target) visited [.type t] (t.reaches target visited).2
  | ⟨stamp, name, parent, contracts, publicKeys, privateKeys, ctor, binding⟩, h => by
    rw [reaches] at h ⊢
    split
    · rename_i hname
      simp [hname] at h
    · rename_i hname
      rw [if_neg hname] at h
      split
      · rename_i hseen
        exact visits_seen hseen
      · rename_i hseen
        rw [if_neg hseen] at h
        refine visits_node hname ?_
        split at h
        · exact absurd h.symm Bool.false_ne_true
        · rename_i between hcs
          have first := Contract.visits_of_anyReaches_false (congrArg Prod.fst hcs)
          rw [hcs] at first
          refine visits_append first ?_
          cases parent with
          | none => exact visits_nil _ between
          | some p => exact visits_of_reaches_false h

theorem descends_of_reaches {target : Name} {visited : List Name} :
    ∀ {t : ObjectType}, (t.reaches target visited).1 = true →
      ∃ e, (Definition.type t).Descends e ∧ e.name = target
  | ⟨stamp, name, parent, contracts, publicKeys, privateKeys, ctor, binding⟩, h => by
    rw [reaches] at h
    split at h
    · rename_i hname
      exact ⟨_, .refl _, hname⟩
    · split at h
      · exact absurd h Bool.false_ne_true
      · split at h
        · rename_i hcs
          obtain ⟨c, hc, e, hce, he⟩ := Contract.descends_of_anyReaches (congrArg Prod.fst hcs)
          exact ⟨e, hce.of_base (List.mem_append_left _ (List.mem_map_of_mem hc)), he⟩
        · cases parent with
          | none => exact absurd h Bool.false_ne_true
          | some p =>
            obtain ⟨e, hpe, he⟩ := descends_of_reaches h
            exact ⟨e, hpe.of_base (List.mem_append_right _ (by simp)), he⟩

end ObjectType

namespace Definition

/-- In any graph, coherent or not, compatibility comes from descent. -/
theorem descends_of_isNamed {d : Definition} {target : Name} (h : d.isNamed target = true) :
    ∃ e, d.Descends e ∧ e.name = target := by
  cases d with
  | type t => exact ObjectType.descends_of_reaches h
  | contract c => exact Contract.descends_of_reaches h

/-- **Compatibility is descent**: in a coherent set of definitions the names left behind
hide nothing. -/
theorem isNamed_iff_descends {U : Set Definition} (h : Coherent U) {d : Definition}
    (hd : d ∈ closure U) {target : Name} :
    d.isNamed target = true ↔ ∃ e, d.Descends e ∧ e.name = target := by
  refine ⟨descends_of_isNamed, ?_⟩
  rintro ⟨e, hde, he⟩
  rw [← Bool.not_eq_false]
  intro hno
  -- a walk that starts with no names behind it has nothing to skip
  have visits : ∃ after, Visits (·.name ≠ target) [] [d] after := by
    cases d with
    | type t => exact ⟨_, ObjectType.visits_of_reaches_false hno⟩
    | contract c => exact ⟨_, Contract.visits_of_reaches_false hno⟩
  obtain ⟨after, visits⟩ := visits
  have coherent : Coherent {x | x ∈ [d]} := h.of_subset_closure fun x hx => by
    obtain rfl := List.mem_singleton.mp hx
    exact hd
  have clear : ∀ x ∈ [d], x.Clear (·.name ≠ target) [] := fun _ _ _ _ hn =>
    absurd hn List.not_mem_nil
  exact visits.every coherent clear d (List.mem_singleton_self d) e hde he

/-- Compatibility between two definitions of a coherent set is descent from one to the
other. -/
theorem is_iff_descends {U : Set Definition} (h : Coherent U) {a b : Definition}
    (ha : a ∈ closure U) (hb : b ∈ closure U) : a.is b = true ↔ a.Descends b := by
  rw [is, isNamed_iff_descends h ha]
  constructor
  · rintro ⟨e, hae, he⟩
    obtain rfl := h e (descends_mem_closure ha hae) b hb he
    exact hae
  · intro hab
    exact ⟨b, hab, rfl⟩

/-- **Compatibility is a partial order, and it is descent.**  For every definition
reachable from a coherent set, and every name, the walk answers whether the name is that
of the definition itself or of one it descends from; so over such a set compatibility is
reflexive and transitive, and two definitions compatible with each other are one. -/
theorem compatibility_partialOrder {U : Set Definition} (h : Coherent U) :
    (∀ d ∈ closure U, ∀ target : Name,
      d.isNamed target = true ↔ ∃ e, d.Descends e ∧ e.name = target) ∧
    (∀ d ∈ closure U, d.is d = true) ∧
    (∀ a ∈ closure U, ∀ b ∈ closure U, ∀ c ∈ closure U,
      a.is b = true → b.is c = true → a.is c = true) ∧
    (∀ a ∈ closure U, ∀ b ∈ closure U, a.is b = true → b.is a = true → a = b) := by
  refine ⟨fun d hd target => isNamed_iff_descends h hd, fun d hd => ?_, ?_, ?_⟩
  · exact (is_iff_descends h hd hd).mpr (.refl d)
  · intro a ha b hb c hc hab hbc
    rw [is_iff_descends h ha hb] at hab
    rw [is_iff_descends h hb hc] at hbc
    exact (is_iff_descends h ha hc).mpr (hab.trans hbc)
  · intro a ha b hb hab hba
    rw [is_iff_descends h ha hb] at hab
    rw [is_iff_descends h hb ha] at hba
    exact hab.antisymm hba

/-- A contract above two others, which a type and its parent fulfil: the walk from the
type meets the first contract three times. -/
def diamond : List Definition :=
  let shape : Contract := ⟨0, ⟨"Geo.Shape"⟩, [], []⟩
  let drawn : Contract := ⟨1, ⟨"Geo.Drawn"⟩, [], [shape]⟩
  let named : Contract := ⟨2, ⟨"Geo.Named"⟩, [], [shape]⟩
  let figure : ObjectType := ⟨3, ⟨"Geo.Figure"⟩, none, [shape], [], [], none, none⟩
  let square : ObjectType := ⟨4, ⟨"Geo.Square"⟩, some figure, [drawn, named], [], [], none, none⟩
  [.type square, .type figure, .contract drawn, .contract named, .contract shape]

theorem coherent_diamond : Coherent {d | d ∈ diamond} :=
  coherent_of_nodup (fun _ hd => hd) (by simp [diamond, bases]) (by decide)

theorem compatibility_partialOrder_diamond :
    Coherent {d | d ∈ diamond} ∧
      ∀ d ∈ closure {d | d ∈ diamond}, ∀ target : Name,
        d.isNamed target = true ↔ ∃ e, d.Descends e ∧ e.name = target :=
  ⟨coherent_diamond, (compatibility_partialOrder coherent_diamond).1⟩

end Definition

end Steward
