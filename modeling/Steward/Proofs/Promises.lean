/-
Promises: what a built definition has to show.

A type is built once, and what its contracts ask for is checked then.  The check looks at
the contracts the type declares itself and at nothing that its parent has promised, and the
keys a contract asks for are gathered by a walk that leaves names behind.  Neither loses
anything:

* **`firstRepeats_duplicateNames`** — the names told to be declared twice are those that occur
  more than once, ordered by where they are repeated first;
* **`mem_required_iff`** — a contract asks for the keys of every contract it descends from;
* **`Built.publicKeys_subset`** — a type shows every key of whatever it descends from;
* **`Built.property?_eq`** — and finds it under its name.

The second and the third need `Coherent`, for the same reason as compatibility does.

Design notes: `Built` follows how definitions come about, each from finished ones, so that
what holds of a type can be proved from what holds of its parent.
-/
import Steward.Proofs.Descent

namespace Steward

/-! ### Names declared twice -/

section Repeats

variable {ns ps ds : List String} {m n : String} {i : Nat}

/-- Whether `i` is the place where `n` is repeated first: it stands there for the second time. -/
def RepeatedAt (ns : List String) (n : String) (i : Nat) : Prop :=
  ns[i]? = some n ∧ (ns.take i).count n = 1

/-- Whether `ds` are the names that occur more than once, each once, in the order of the places
where they are repeated first. -/
structure FirstRepeats (ns ds : List String) : Prop where
  nodup : ds.Nodup
  mem_iff : ∀ n, n ∈ ds ↔ 2 ≤ ns.count n
  placed : ∀ n ∈ ds, ∃ i, RepeatedAt ns n i
  ordered : ds.Pairwise fun m n => ∃ i j, RepeatedAt ns m i ∧ RepeatedAt ns n j ∧ i < j

theorem RepeatedAt.lt (h : RepeatedAt ps n i) : i < ps.length :=
  (List.getElem?_eq_some_iff.mp h.1).1

/-- Where a name is repeated first does not depend on what comes later. -/
theorem RepeatedAt.append (h : RepeatedAt ps n i) (ns : List String) :
    RepeatedAt (ps ++ ns) n i := by
  refine ⟨?_, ?_⟩
  · rw [List.getElem?_append_left h.lt]
    exact h.1
  · rw [List.take_append_of_le_length (Nat.le_of_lt h.lt)]
    exact h.2

/-- A name that was there once is repeated first where it comes next. -/
theorem repeatedAt_length (h : ps.count n = 1) : RepeatedAt (ps ++ [n]) n ps.length := by
  refine ⟨by simp, ?_⟩
  rw [List.take_left]
  exact h

theorem firstRepeats_nil : FirstRepeats [] [] :=
  ⟨List.nodup_nil, by simp, by simp, List.Pairwise.nil⟩

/-- A name more that adds nothing to the list: it is new, or in the list already. -/
theorem FirstRepeats.keep (h : FirstRepeats ps ds) (hn : n ∈ ps → n ∈ ds) :
    FirstRepeats (ps ++ [n]) ds := by
  refine ⟨h.nodup, ?_, ?_, h.ordered.imp ?_⟩
  · intro m
    rw [h.mem_iff, List.count_append, List.count_singleton]
    by_cases hm : n = m
    · subst hm
      -- once it is there at all, it is there twice
      have hcount : 0 < ps.count n → 2 ≤ ps.count n := fun hpos =>
        (h.mem_iff n).mp (hn (List.count_pos_iff.mp hpos))
      simp only [beq_self_eq_true, if_true]
      omega
    · simp [hm]
  · intro m hm
    obtain ⟨i, hi⟩ := h.placed m hm
    exact ⟨i, hi.append [n]⟩
  · rintro a b ⟨i, j, ha, hb, hij⟩
    exact ⟨i, j, ha.append [n], hb.append [n], hij⟩

/-- A name that is repeated for the first time comes last in the list. -/
theorem FirstRepeats.add (h : FirstRepeats ps ds) (hn : n ∈ ps) (hnew : n ∉ ds) :
    FirstRepeats (ps ++ [n]) (ds ++ [n]) := by
  have hone : ps.count n = 1 := by
    have hpos := List.count_pos_iff.mpr hn
    have hlt := (h.mem_iff n).not.mp hnew
    omega
  have hplace := repeatedAt_length hone
  refine ⟨?_, ?_, ?_, List.pairwise_append.mpr ⟨h.ordered.imp ?_, List.pairwise_singleton _ _, ?_⟩⟩
  · refine List.nodup_append.mpr ⟨h.nodup, List.nodup_singleton n, ?_⟩
    rintro a ha b hb rfl
    exact hnew (List.mem_singleton.mp hb ▸ ha)
  · intro m
    rw [List.mem_append, List.mem_singleton, h.mem_iff, List.count_append, List.count_singleton]
    by_cases hm : n = m
    · subst hm
      simp [hone]
    · simp [hm, Ne.symm hm]
  · intro m hm
    rcases List.mem_append.mp hm with hm | hm
    · obtain ⟨i, hi⟩ := h.placed m hm
      exact ⟨i, hi.append [n]⟩
    · obtain rfl := List.mem_singleton.mp hm
      exact ⟨_, hplace⟩
  · rintro a b ⟨i, j, ha, hb, hij⟩
    exact ⟨i, j, ha.append [n], hb.append [n], hij⟩
  · intro a ha b hb
    obtain rfl := List.mem_singleton.mp hb
    obtain ⟨i, hi⟩ := h.placed a ha
    exact ⟨i, ps.length, hi.append [b], hplace, hi.lt⟩

/-- The scan goes on from where it stands, with the names seen so far. -/
theorem FirstRepeats.repeatedFrom {seen : List String} (h : FirstRepeats ps ds)
    (hseen : ∀ n, n ∈ seen ↔ n ∈ ps) (ns : List String) :
    FirstRepeats (ps ++ ns) (Steward.repeatedFrom seen ds ns) := by
  induction ns generalizing seen ps ds with
  | nil =>
    rw [List.append_nil]
    exact h
  | cons n ns ih =>
    have hnext : ∀ {seen : List String}, (∀ m, m ∈ seen ↔ m ∈ ps ∨ m = n) →
        ∀ m, m ∈ seen ↔ m ∈ ps ++ [n] := by
      intro seen hseen m
      rw [hseen, List.mem_append, List.mem_singleton]
    rw [Steward.repeatedFrom, List.append_cons]
    split
    · rename_i hn
      have hsame : ∀ m, m ∈ seen ↔ m ∈ ps ++ [n] := by
        refine hnext fun m => ?_
        rw [hseen, iff_self_or]
        rintro rfl
        exact (hseen m).mp hn
      split
      · rename_i hd
        exact ih (h.keep fun _ => hd) hsame
      · rename_i hd
        exact ih (h.add ((hseen n).mp hn) hd) hsame
    · rename_i hn
      refine ih (h.keep fun hmem => absurd ((hseen n).mpr hmem) hn) (hnext fun m => ?_)
      rw [List.mem_cons, hseen, or_comm]

/-- **The names declared more than once**, as they are told. -/
theorem firstRepeats_duplicateNames (keys : List Key) :
    FirstRepeats (keys.map Key.name) (duplicateNames keys) :=
  firstRepeats_nil.repeatedFrom (fun _ => Iff.rfl) (keys.map Key.name)

theorem FirstRepeats.eq_nil_iff (h : FirstRepeats ns ds) : ds = [] ↔ ns.Nodup := by
  rw [List.eq_nil_iff_forall_not_mem, List.nodup_iff_count_le_one]
  refine forall_congr' fun n => ?_
  rw [h.mem_iff]
  omega

end Repeats

theorem nodup_of_duplicateNames {keys : List Key} (h : duplicateNames keys = []) :
    (keys.map Key.name).Nodup :=
  (firstRepeats_duplicateNames keys).eq_nil_iff.mp h

/-- Among keys of different names, a key is the one that is found under its name. -/
theorem find?_eq_of_nodup {keys : List Key} (h : (keys.map Key.name).Nodup) {k : Key}
    (hk : k ∈ keys) : keys.find? (·.name == k.name) = some k := by
  have hsome : (keys.find? (·.name == k.name)).isSome := by
    rw [List.find?_isSome]
    exact ⟨k, hk, by simp⟩
  obtain ⟨k', hk'⟩ := Option.isSome_iff_exists.mp hsome
  have hname : k'.name = k.name := by simpa using List.find?_some hk'
  have hmem := List.mem_of_find?_eq_some hk'
  rw [hk', List.inj_on_of_nodup_map h hmem hk hname]

/-! ### What a contract asks for -/

namespace Definition

/-- The keys a contract declares itself; a type asks for nothing. -/
def declared : Definition → List Key
  | type _ => []
  | contract c => c.properties

/-- Whether all keys a definition declares are among `keys`. -/
def DeclaredIn (keys : List Key) (d : Definition) : Prop :=
  ∀ k ∈ d.declared, k ∈ keys

/-- Contracts stand on contracts only. -/
theorem Descends.of_contract {c : Contract} {e : Definition} (h : (contract c).Descends e) :
    ∃ c', e = contract c' := by
  induction h with
  | refl => exact ⟨c, rfl⟩
  | tail _ hb ih =>
    obtain ⟨c', rfl⟩ := ih
    obtain ⟨p, -, rfl⟩ := List.mem_map.mp hb
    exact ⟨p, rfl⟩

end Definition

open Definition

namespace Contract

mutual

theorem mem_gather_of_found {found : Gathered} {k : Key} (hk : k ∈ found.keys) :
    ∀ c : Contract, k ∈ (c.gather found).keys
  | ⟨stamp, name, properties, parents⟩ => by
    rw [gather]
    split
    · exact hk
    · exact mem_gatherAll_of_found (mem_addNew.mpr (.inl hk)) parents

theorem mem_gatherAll_of_found {found : Gathered} {k : Key} (hk : k ∈ found.keys) :
    ∀ cs : List Contract, k ∈ (gatherAll found cs).keys
  | [] => hk
  | c :: cs => mem_gatherAll_of_found (mem_gather_of_found hk c) cs

end

mutual

/-- Every gathered key was there before or is declared by a contract that was met. -/
theorem declared_of_mem_gather {found : Gathered} {k : Key} :
    ∀ {c : Contract}, k ∈ (c.gather found).keys →
      k ∈ found.keys ∨ ∃ e, (Definition.contract c).Descends e ∧ k ∈ e.declared
  | ⟨stamp, name, properties, parents⟩, h => by
    rw [gather] at h
    split at h
    · exact .inl h
    · rcases declared_of_mem_gatherAll h with h | ⟨p, hp, e, hpe, hk⟩
      · rcases mem_addNew.mp h with h | h
        · exact .inl h
        · exact .inr ⟨_, .refl _, h⟩
      · exact .inr ⟨e, hpe.of_base (List.mem_map_of_mem hp), hk⟩

theorem declared_of_mem_gatherAll {found : Gathered} {k : Key} :
    ∀ {cs : List Contract}, k ∈ (gatherAll found cs).keys →
      k ∈ found.keys ∨ ∃ c ∈ cs, ∃ e, (Definition.contract c).Descends e ∧ k ∈ e.declared
  | [], h => .inl h
  | c :: cs, h => by
    rw [gatherAll] at h
    rcases declared_of_mem_gatherAll h with h | ⟨d, hd, e, hde, hk⟩
    · rcases declared_of_mem_gather h with h | ⟨e, hce, hk⟩
      · exact .inl h
      · exact .inr ⟨c, List.mem_cons_self, e, hce, hk⟩
    · exact .inr ⟨d, List.mem_cons_of_mem c hd, e, hde, hk⟩

end

mutual

/-- Gathering walks through the contract, and finds the keys of all it looks at among those
it ends with. -/
theorem visits_gather {keys : List Key} {found : Gathered} :
    ∀ {c : Contract}, (∀ k ∈ (c.gather found).keys, k ∈ keys) →
      Visits (DeclaredIn keys) found.visited [.contract c] (c.gather found).visited
  | ⟨stamp, name, properties, parents⟩, h => by
    rw [gather] at h ⊢
    split
    · rename_i hseen
      exact visits_seen hseen
    · rename_i hseen
      rw [if_neg hseen] at h
      have hown : DeclaredIn keys (.contract ⟨stamp, name, properties, parents⟩) := by
        intro k hk
        exact h k (mem_gatherAll_of_found (mem_addNew.mpr (.inr hk)) parents)
      exact visits_node hown (visits_gatherAll h)

theorem visits_gatherAll {keys : List Key} {found : Gathered} :
    ∀ {cs : List Contract}, (∀ k ∈ (gatherAll found cs).keys, k ∈ keys) →
      Visits (DeclaredIn keys) found.visited (cs.map .contract) (gatherAll found cs).visited
  | [], _ => visits_nil _ found.visited
  | c :: cs, h => by
    rw [gatherAll] at h ⊢
    have first : Visits (DeclaredIn keys) found.visited [.contract c] (c.gather found).visited :=
      visits_gather fun k hk => h k (mem_gatherAll_of_found hk cs)
    exact visits_append first (visits_gatherAll h)

end

/-- **What a contract asks for**: the keys declared by the contracts it descends from, itself
included. -/
theorem mem_required_iff {c : Contract} (h : Coherent {.contract c}) {k : Key} :
    k ∈ c.required ↔ ∃ e, (Definition.contract c).Descends e ∧ k ∈ e.declared := by
  constructor
  · intro hk
    rcases declared_of_mem_gather hk with hk | hk
    · exact absurd hk List.not_mem_nil
    · exact hk
  · rintro ⟨e, hce, hk⟩
    -- the walk itself says that it misses nothing, once it is given no names to skip
    have visits : Visits (DeclaredIn c.required) [] [.contract c] (c.gather {}).visited :=
      visits_gather fun k hk => hk
    have coherent : Coherent {d | d ∈ [Definition.contract c]} :=
      h.of_subset_closure fun d hd => subset_closure (List.mem_singleton.mp hd)
    have clear : ∀ d ∈ [Definition.contract c], d.Clear (DeclaredIn c.required) [] :=
      fun _ _ _ _ hn => absurd hn List.not_mem_nil
    exact visits.every coherent clear _ (List.mem_singleton_self _) e hce k hk

end Contract

/-! ### Types that were built -/

/-- Among properties of different names, a public one is found by everyone. -/
theorem ObjectType.property?_of_public {t : ObjectType} (h : (t.keys.map Key.name).Nodup) {k : Key}
    (hk : k ∈ t.publicKeys) (withPrivate : Bool) : t.property? k.name withPrivate = some k := by
  rw [keys, List.map_append] at h
  rw [property?, find?_eq_of_nodup (List.nodup_append.mp h).1 hk]

namespace TypeSpec

/-- A type that is built shows what its contracts ask for, and no two of its properties have
one name. -/
theorem build_eq_ok {s : TypeSpec} {stamp : Nat} {t : ObjectType} (h : s.build stamp = .ok t) :
    t = ⟨stamp, s.name, s.parent, s.contracts, s.allPublic, s.allPrivate, s.ctor, s.binding⟩ ∧
      (t.keys.map Key.name).Nodup ∧ ∀ c ∈ s.contracts, ∀ k ∈ c.required, k ∈ s.allPublic := by
  rw [build] at h
  split at h
  · rename_i hnone
    cases h
    rw [violations, List.append_eq_nil_iff, List.append_eq_nil_iff, List.map_eq_nil_iff] at hnone
    obtain ⟨⟨hdup, hmet⟩, -⟩ := hnone
    refine ⟨rfl, nodup_of_duplicateNames hdup, ?_⟩
    intro c hc k hk
    -- a key that is not shown would be a violation of the contract
    have hnot : s.unmet? c = none := List.filterMap_eq_nil_iff.mp hmet c hc
    rw [unmet?] at hnot
    split at hnot
    · rename_i hmissing
      rw [missing, List.filter_eq_nil_iff] at hmissing
      simpa using hmissing k hk
    · cases hnot
  · cases h

end TypeSpec

namespace Definition

/-- The definitions that come about by defining contracts and building types, each from
others that do. -/
inductive Built : Definition → Prop where
  | contract {stamp : Nat} {name : Name} {properties : List Key} {parents : List Contract}
      {c : Contract} (built : ∀ p ∈ parents, Built (.contract p))
      (h : Contract.define stamp name properties parents = .ok c) : Built (.contract c)
  | type {spec : TypeSpec} {stamp : Nat} {t : ObjectType}
      (parent : ∀ p, spec.parent = some p → Built (.type p))
      (contracts : ∀ c ∈ spec.contracts, Built (.contract c))
      (h : spec.build stamp = .ok t) : Built (.type t)

theorem Built.nodup {t : ObjectType} (h : Built (.type t)) : (t.keys.map Key.name).Nodup := by
  cases h with
  | type parent contracts hbuild => exact (TypeSpec.build_eq_ok hbuild).2.1

/-- A built type shows what its parent shows, and what its own contracts ask for. -/
theorem Built.shows {t : ObjectType} (h : Built (.type t)) :
    (∀ p, t.parent = some p → Built (.type p) ∧ p.publicKeys <+: t.publicKeys) ∧
      ∀ c ∈ t.contracts, ∀ k ∈ c.required, k ∈ t.publicKeys := by
  cases h with
  | @type spec stamp _ parent contracts hbuild =>
    obtain ⟨rfl, -, hmet⟩ := TypeSpec.build_eq_ok hbuild
    refine ⟨?_, hmet⟩
    intro p hp
    refine ⟨parent p hp, ?_⟩
    change p.publicKeys <+: spec.allPublic
    have hp : spec.parent = some p := hp
    rw [TypeSpec.allPublic, hp]
    exact List.prefix_append _ _

/-- **Promises are kept**: a built type shows every key of whatever it descends from, be it
the properties of a type or what a contract asks for. -/
theorem Built.publicKeys_subset {U : Set Definition} (hU : Coherent U) {t : ObjectType}
    {d : Definition} (ht : .type t ∈ closure U) (hb : Built (.type t))
    (h : (Definition.type t).Descends d) : ∀ k ∈ d.publicKeys, k ∈ t.publicKeys := by
  -- by induction on the way from the type to `d`, from its first step on
  generalize hx : Definition.type t = x at h
  induction h using Relation.ReflTransGen.head_induction_on generalizing t with
  | refl =>
    subst hx
    exact fun k hk => hk
  | head hbase hbd ih =>
    subst hx
    obtain ⟨hparent, hmet⟩ := hb.shows
    have hU' := descends_mem_closure ht (Descends.of_base hbase (.refl _))
    intro k hk
    rcases List.mem_append.mp hbase with hc | hp
    · -- through a contract of its own, which asks for all that is asked for above it
      obtain ⟨c, hmem, rfl⟩ := List.mem_map.mp hc
      obtain ⟨c', rfl⟩ := Descends.of_contract hbd
      have hcoh : ∀ {x}, x ∈ closure U → Coherent {x} := by
        intro x hx
        refine hU.of_subset_closure ?_
        rintro y rfl
        exact hx
      obtain ⟨e, hce, hke⟩ :=
        (Contract.mem_required_iff (hcoh (descends_mem_closure hU' hbd))).mp hk
      have hreq : k ∈ c.required :=
        (Contract.mem_required_iff (hcoh hU')).mpr ⟨e, Descends.trans hbd hce, hke⟩
      exact hmet c hmem k hreq
    · -- through the parent, whose properties come first
      obtain ⟨p, hp, rfl⟩ := List.mem_map.mp hp
      obtain ⟨hbp, hpre⟩ := hparent p (by simpa using hp)
      exact hpre.subset (ih hU' hbp rfl k hk)

/-- A key that a built type shows is found under its name. -/
theorem Built.property?_eq {t : ObjectType} (h : Built (.type t)) {k : Key}
    (hk : k ∈ t.publicKeys) : t.property? k.name false = some k :=
  ObjectType.property?_of_public h.nodup hk false

end Definition

end Steward
