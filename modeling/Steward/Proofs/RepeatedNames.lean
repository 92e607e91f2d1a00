/-
Repeated names: which names are told to be declared more than once, and in which order.

The names of a definition are gone through once.  A name is told where it stands for the second
time, so the names come in the order in which they are repeated, whatever the order in which they
appear.  The two orders differ where the places of one name lie between those of another:

* **`FirstRepeats.unique`** — the names that are repeated, each once and by the place where it is
  repeated first, are one list;
* **`FirstRepeats.firstAppearances_iff`** — this list is in the order in which the names appear just
  when the name that appears first is repeated first, for any two of them;
* **`repeated_names_told`** — and it is the list that is told;
* **`repeated_names_inside_out`** — where one name is repeated before another that appeared before
  it, the names are told the other way round.
-/
import Steward.Proofs.Promises

namespace Steward

section Places

variable {ns ds es : List String} {m n : String} {i j : Nat}

/-- Whether `i` is the place where `n` appears: it stands there for the first time. -/
def AppearsAt (ns : List String) (n : String) (i : Nat) : Prop :=
  ns[i]? = some n ∧ (ns.take i).count n = 0

/-- Whether `ds` are the names that occur more than once, each once, in the order of the places
where they appear. -/
structure FirstAppearances (ns ds : List String) : Prop where
  nodup : ds.Nodup
  mem_iff : ∀ n, n ∈ ds ↔ 2 ≤ ns.count n
  ordered : ds.Pairwise fun m n => ∃ i j, AppearsAt ns m i ∧ AppearsAt ns n j ∧ i < j

/-- Whether, of any two names that are repeated, the one that appears first is repeated first. -/
def Untangled (ns : List String) : Prop :=
  ∀ m n i j i' j', AppearsAt ns m i → AppearsAt ns n j → RepeatedAt ns m i' → RepeatedAt ns n j' →
    i < j → i' < j'

/-! ### Where a name stands -/

/-- Behind a place of a name, the name has occurred once more. -/
theorem count_take_lt (h : ns[i]? = some n) (hij : i < j) :
    (ns.take i).count n < (ns.take j).count n := by
  have hnext : (ns.take (i + 1)).count n = (ns.take i).count n + 1 := by
    rw [List.take_add_one, h, List.count_append]
    simp
  have hle : (ns.take (i + 1)).count n ≤ (ns.take j).count n :=
    (List.take_prefix_take_left hij).count_le n
  omega

/-- A place of a name is known by how often the name has occurred before. -/
theorem place_unique (hi : ns[i]? = some n) (hj : ns[j]? = some n)
    (h : (ns.take i).count n = (ns.take j).count n) : i = j := by
  rcases Nat.lt_trichotomy i j with hij | hij | hij
  · have hlt := count_take_lt hi hij
    omega
  · exact hij
  · have hlt := count_take_lt hj hij
    omega

theorem AppearsAt.unique (hi : AppearsAt ns n i) (hj : AppearsAt ns n j) : i = j :=
  place_unique hi.1 hj.1 (hi.2.trans hj.2.symm)

theorem RepeatedAt.unique (hi : RepeatedAt ns n i) (hj : RepeatedAt ns n j) : i = j :=
  place_unique hi.1 hj.1 (hi.2.trans hj.2.symm)

theorem exists_appearsAt (h : n ∈ ns) : ∃ i, AppearsAt ns n i := by
  refine ⟨ns.idxOf n, List.getElem?_idxOf h, List.count_eq_zero.mpr ?_⟩
  rw [List.mem_take_iff_idxOf_lt h]
  exact Nat.lt_irrefl _

theorem RepeatedAt.mem (h : RepeatedAt ns n i) : n ∈ ns :=
  List.mem_of_getElem? h.1

theorem RepeatedAt.two_le_count (h : RepeatedAt ns n i) : 2 ≤ ns.count n := by
  have hlt := count_take_lt h.1 h.lt
  rw [h.2, List.take_length] at hlt
  exact hlt

/-! ### Two orders -/

/-- There is one list of the repeated names by the places where they are repeated first. -/
theorem FirstRepeats.unique (hd : FirstRepeats ns ds) (he : FirstRepeats ns es) : ds = es := by
  have hperm : ds.Perm es := (List.perm_ext_iff_of_nodup hd.nodup he.nodup).mpr fun n =>
    (hd.mem_iff n).trans (he.mem_iff n).symm
  refine hperm.eq_of_pairwise ?_ hd.ordered he.ordered
  rintro m n - - ⟨i, j, hi, hj, hij⟩ ⟨j', i', hj', hi', hji⟩
  have hsame := hi.unique hi'
  have hsame' := hj.unique hj'
  omega

/-- **When both orders are one.** -/
theorem FirstRepeats.firstAppearances_iff (h : FirstRepeats ns ds) :
    FirstAppearances ns ds ↔ Untangled ns := by
  constructor
  · intro hfirst m n i j i' j' hi hj hi' hj' hij
    -- both names are in the list, one of them first
    obtain ⟨p, hp, rfl⟩ := List.getElem_of_mem ((h.mem_iff m).mpr hi'.two_le_count)
    obtain ⟨q, hq, rfl⟩ := List.getElem_of_mem ((h.mem_iff n).mpr hj'.two_le_count)
    rcases Nat.lt_trichotomy p q with hpq | rfl | hpq
    · obtain ⟨a, b, ha, hb, hab⟩ := List.pairwise_iff_getElem.mp h.ordered p q hp hq hpq
      rwa [hi'.unique ha, hj'.unique hb]
    · exact absurd (hi.unique hj) (Nat.ne_of_lt hij)
    · obtain ⟨b, a, hb, ha, hba⟩ := List.pairwise_iff_getElem.mp hfirst.ordered q p hq hp hpq
      have hsame := hi.unique ha
      have hsame' := hj.unique hb
      omega
  · intro huntangled
    refine ⟨h.nodup, h.mem_iff, h.ordered.imp ?_⟩
    rintro m n ⟨i', j', hi', hj', hij'⟩
    obtain ⟨i, hi⟩ := exists_appearsAt hi'.mem
    obtain ⟨j, hj⟩ := exists_appearsAt hj'.mem
    refine ⟨i, j, hi, hj, ?_⟩
    rcases Nat.lt_trichotomy i j with hij | rfl | hji
    · exact hij
    · -- one name at one place, which is repeated at one place too
      have hname : m = n := Option.some.inj (hi.1.symm.trans hj.1)
      subst hname
      exact absurd (hi'.unique hj') (Nat.ne_of_lt hij')
    · have hlt := huntangled n m j i j' i' hj hi hj' hi' hji
      omega

end Places

/-- **The names that are told to be repeated.**  They are exactly those that occur more than once,
each once, in the order of the places where they are repeated first.  This is the order in which
they appear just when, of any two of them, the one that appears first is repeated first. -/
theorem repeated_names_told (keys : List Key) :
    (∀ ds, FirstRepeats (keys.map Key.name) ds ↔ ds = duplicateNames keys) ∧
      (FirstAppearances (keys.map Key.name) (duplicateNames keys) ↔
        Untangled (keys.map Key.name)) := by
  have told := firstRepeats_duplicateNames keys
  constructor
  · intro ds
    constructor
    · intro h
      exact h.unique told
    · rintro rfl
      exact told
  · exact told.firstAppearances_iff

namespace Measures

/-- The depth is repeated before the width is, which appears first. -/
def keys : List Key :=
  [⟨"width", ⟨"Num"⟩⟩, ⟨"depth", ⟨"Num"⟩⟩, ⟨"depth", ⟨"Num"⟩⟩, ⟨"width", ⟨"Num"⟩⟩]

end Measures

open Measures in
/-- **Names that are told inside out**: by the list itself, and by the type that is refused. -/
theorem repeated_names_inside_out :
    duplicateNames keys = ["depth", "width"] ∧
    TypeSpec.build { name := ⟨"Desk"⟩, publicKeys := keys } 0 =
      .error (.definition "Desk" [.duplicateKey "depth", .duplicateKey "width"]) ∧
    ¬FirstAppearances (keys.map Key.name) (duplicateNames keys) := by
  refine ⟨rfl, rfl, fun h => ?_⟩
  obtain ⟨i, j, -, hj, hij⟩ := List.rel_of_pairwise_cons h.ordered (List.mem_singleton_self "width")
  have hwidth : AppearsAt (keys.map Key.name) "width" 0 := ⟨rfl, rfl⟩
  have hzero := hj.unique hwidth
  omega

end Steward
