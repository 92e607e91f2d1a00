/-
Lists without repeats: adding to a list what is not there yet.

Several listings of this library go over many sources and show each item once,
at the place where it is first met.  `addNew` is the one function behind them:

* **`mem_addNew`** — nothing is lost and nothing is invented;
* **`nodup_addNew`** — a list without repeats stays one;
* **`addNew_append`** — sources can be taken one after the other;
* **`addNew_eq`** — what is added is what stands for the first time among what is new.
-/

namespace Steward

/-- Adds at the end, in order, the items that are not there yet. -/
def addNew [DecidableEq α] (xs : List α) : List α → List α
  | [] => xs
  | y :: ys => if y ∈ xs then addNew xs ys else addNew (xs ++ [y]) ys

variable {α : Type} [DecidableEq α]

theorem mem_addNew {x : α} {xs ys : List α} : x ∈ addNew xs ys ↔ x ∈ xs ∨ x ∈ ys := by
  induction ys generalizing xs with
  | nil => simp [addNew]
  | cons y ys ih =>
    rw [addNew]
    split
    · rename_i hy
      rw [ih, List.mem_cons]
      constructor
      · rintro (h | h)
        · exact .inl h
        · exact .inr (.inr h)
      · rintro (h | rfl | h)
        · exact .inl h
        · exact .inl hy
        · exact .inr h
    · rw [ih, List.mem_append, List.mem_singleton, List.mem_cons, or_assoc]

theorem nodup_addNew {xs ys : List α} (h : xs.Nodup) : (addNew xs ys).Nodup := by
  induction ys generalizing xs with
  | nil => exact h
  | cons y ys ih =>
    rw [addNew]
    split
    · exact ih h
    · rename_i hy
      refine ih (List.nodup_append.mpr ⟨h, by simp, ?_⟩)
      intro a ha b hb
      rw [List.mem_singleton] at hb
      subst hb
      exact fun hab => hy (hab ▸ ha)

theorem addNew_append {xs ys zs : List α} :
    addNew xs (ys ++ zs) = addNew (addNew xs ys) zs := by
  induction ys generalizing xs with
  | nil => rfl
  | cons y ys ih =>
    rw [List.cons_append, addNew, addNew]
    split <;> exact ih

theorem addNew_eq (xs ys : List α) :
    addNew xs ys = xs ++ (ys.filter fun y => !xs.contains y).eraseDups := by
  induction ys generalizing xs with
  | nil => simp [addNew]
  | cons y ys ih =>
    rw [addNew]
    by_cases hy : y ∈ xs
    · rw [if_pos hy, ih, List.filter_cons_of_neg (by simp [hy])]
    · have hrest : ys.filter (fun z => !(xs ++ [y]).contains z) =
          (ys.filter fun z => !xs.contains z).filter fun z => !z == y := by
        rw [List.filter_filter]
        refine List.filter_congr fun z _ => ?_
        simp [Bool.and_comm, Bool.beq_eq_decide_eq]
      rw [if_neg hy, ih, List.filter_cons_of_pos (by simp [hy]), List.eraseDups_cons, hrest,
        List.append_assoc, List.singleton_append]

/-- Starting from nothing, what is new is what stands for the first time. -/
theorem addNew_nil (ys : List α) : addNew [] ys = ys.eraseDups := by
  rw [addNew_eq, List.nil_append]
  exact congrArg List.eraseDups (List.filter_eq_self.mpr fun _ _ => rfl)

theorem addNew_eq_self {xs ys : List α} (h : ∀ y ∈ ys, y ∈ xs) : addNew xs ys = xs := by
  have hnone : ys.filter (fun y => !xs.contains y) = [] :=
    List.filter_eq_nil_iff.mpr fun y hy => by simp [h y hy]
  rw [addNew_eq, hnone, List.eraseDups_nil, List.append_nil]

/-- Where nothing is repeated everything is added. -/
theorem addNew_eq_append {xs ys : List α} (h : (xs ++ ys).Nodup) : addNew xs ys = xs ++ ys := by
  induction ys generalizing xs with
  | nil => rw [List.append_nil, addNew]
  | cons y ys ih =>
    have hy : y ∉ xs := fun hmem =>
      (List.nodup_append.mp h).2.2 y hmem y List.mem_cons_self rfl
    rw [List.append_cons] at h ⊢
    rw [addNew, if_neg hy, ih h]

theorem filter_addNew (p : α → Bool) (xs ys : List α) :
    (addNew xs ys).filter p = addNew (xs.filter p) (ys.filter p) := by
  induction ys generalizing xs with
  | nil => rfl
  | cons y ys ih =>
    rw [addNew]
    cases hp : p y with
    | true =>
      have hmem : y ∈ xs.filter p ↔ y ∈ xs := by simp [hp]
      rw [List.filter_cons_of_pos hp, addNew]
      by_cases hy : y ∈ xs
      · rw [if_pos hy, if_pos (hmem.mpr hy), ih]
      · rw [if_neg hy, if_neg fun h => hy (hmem.mp h), ih]
        simp [hp]
    | false =>
      have hnew : (xs ++ [y]).filter p = xs.filter p := by simp [hp]
      rw [List.filter_cons_of_neg (by simp [hp])]
      split
      · exact ih xs
      · rw [ih, hnew]

end Steward
