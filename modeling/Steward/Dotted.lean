/-
Dotted text: a text read as segments set apart by dots.

Qualified names and the paths of commands are both written this way.  The
splitting is done on characters, so that every fact about it is one induction
on a list:

* **`segmentsOf_ne_nil`** — there is always a segment, if only an empty one;
* **`joinSegments_segmentsOf`** — joining the segments gives the text back;
* **`segmentsOf_dotless`** — no segment holds a dot;
* **`segmentsOf_append`** — the segments on both sides of a dot are those of the whole.

A text can also be cut at its last dot alone (`cutLast?`), without reading the rest as segments.
-/

namespace Steward.Dotted

/-- The segments of a list of characters; `n` dots make `n + 1` segments. -/
def segmentsOf : List Char → List (List Char)
  | [] => [[]]
  | c :: cs =>
    if c = '.' then [] :: segmentsOf cs
    else match segmentsOf cs with
      | [] => [[c]]
      | s :: ss => (c :: s) :: ss

/-- The characters of segments written one after the other, a dot between two. -/
def joinSegments : List (List Char) → List Char
  | [] => []
  | [s] => s
  | s :: t :: ss => s ++ '.' :: joinSegments (t :: ss)

/-- What comes before the last dot and what comes after it, if there is a dot. -/
def cutLast? : List Char → Option (List Char × List Char)
  | [] => none
  | c :: cs =>
    match cutLast? cs with
    | some (before, after) => some (c :: before, after)
    | none => if c = '.' then some ([], cs) else none

/-- The segments of a text. -/
def split (text : String) : List String :=
  (segmentsOf text.toList).map String.ofList

/-- Segments written as one text. -/
def join (segments : List String) : String :=
  String.ofList (joinSegments (segments.map String.toList))

theorem segmentsOf_ne_nil (cs : List Char) : segmentsOf cs ≠ [] := by
  cases cs with
  | nil => simp [segmentsOf]
  | cons c cs =>
    rw [segmentsOf]
    split
    · simp
    · split <;> simp

theorem joinSegments_cons_nonempty (s : List Char) {ss : List (List Char)} (h : ss ≠ []) :
    joinSegments (s :: ss) = s ++ '.' :: joinSegments ss := by
  cases ss with
  | nil => exact absurd rfl h
  | cons t ss => rfl

/-- Splitting loses nothing. -/
theorem joinSegments_segmentsOf (cs : List Char) : joinSegments (segmentsOf cs) = cs := by
  induction cs with
  | nil => rfl
  | cons c cs ih =>
    rw [segmentsOf]
    split
    · rename_i hc
      rw [joinSegments_cons_nonempty _ (segmentsOf_ne_nil cs), ih, hc]
      rfl
    · split
      · rename_i h
        exact absurd h (segmentsOf_ne_nil cs)
      · rename_i s ss h
        rw [h] at ih
        cases ss with
        | nil => simpa [joinSegments] using ih
        | cons t ss => simpa [joinSegments] using ih

/-- A segment holds no dot. -/
theorem segmentsOf_dotless (cs : List Char) : ∀ s ∈ segmentsOf cs, '.' ∉ s := by
  induction cs with
  | nil => simp [segmentsOf]
  | cons c cs ih =>
    rw [segmentsOf]
    split
    · intro s hs
      rcases List.mem_cons.mp hs with rfl | hs
      · simp
      · exact ih s hs
    · rename_i hc
      split
      · intro s hs
        rw [List.mem_singleton] at hs
        subst hs
        simpa using Ne.symm hc
      · rename_i t ts h
        rw [h] at ih
        intro s hs
        rcases List.mem_cons.mp hs with rfl | hs
        · have ht := ih t (List.mem_cons_self ..)
          simpa [Ne.symm hc] using ht
        · exact ih s (List.mem_cons_of_mem _ hs)

/-- A text without a dot is its own only segment. -/
theorem segmentsOf_of_dotless {cs : List Char} (h : '.' ∉ cs) : segmentsOf cs = [cs] := by
  induction cs with
  | nil => rfl
  | cons c cs ih =>
    rw [List.mem_cons, not_or] at h
    rw [segmentsOf, if_neg (Ne.symm h.1), ih h.2]

/-- A dot ends one segment and begins another. -/
theorem segmentsOf_append (cs ds : List Char) :
    segmentsOf (cs ++ '.' :: ds) = segmentsOf cs ++ segmentsOf ds := by
  induction cs with
  | nil => simp [segmentsOf]
  | cons c cs ih =>
    rw [List.cons_append, segmentsOf, segmentsOf, ih]
    split
    · rw [List.cons_append]
    · cases h : segmentsOf cs with
      | nil => exact absurd h (segmentsOf_ne_nil cs)
      | cons s ss => rfl

/-- What comes before the first dot is the first segment. -/
theorem segmentsOf_append_dot {s : List Char} (h : '.' ∉ s) (cs : List Char) :
    segmentsOf (s ++ '.' :: cs) = s :: segmentsOf cs := by
  rw [segmentsOf_append, segmentsOf_of_dotless h, List.singleton_append]

theorem cutLast?_eq_none_iff {cs : List Char} : cutLast? cs = none ↔ '.' ∉ cs := by
  induction cs with
  | nil => simp [cutLast?]
  | cons c cs ih =>
    rw [cutLast?, List.mem_cons, not_or, ← ih]
    cases cutLast? cs with
    | none => simp [eq_comm]
    | some parts => simp

theorem cutLast?_eq_some_iff {cs before after : List Char} :
    cutLast? cs = some (before, after) ↔ cs = before ++ '.' :: after ∧ '.' ∉ after := by
  induction cs generalizing before with
  | nil => simp [cutLast?]
  | cons c cs ih =>
    rw [cutLast?]
    cases before with
    | nil =>
      -- the dot that is met here is the last one if there is none after it
      rw [List.nil_append, List.cons.injEq]
      cases h : cutLast? cs with
      | none =>
        rw [cutLast?_eq_none_iff] at h
        grind
      | some parts =>
        have hdot : '.' ∈ cs := by
          rw [← Decidable.not_not (p := '.' ∈ cs), ← cutLast?_eq_none_iff, h]
          simp
        grind
    | cons b before =>
      rw [List.cons_append, List.cons.injEq, and_assoc, ← ih]
      cases cutLast? cs with
      | none => simp
      | some parts => simp [Prod.ext_iff, and_assoc]

theorem join_split (text : String) : join (split text) = text := by
  have h : (split text).map String.toList = segmentsOf text.toList := by
    simp [split, Function.comp_def]
  rw [join, h, joinSegments_segmentsOf, String.ofList_toList]

end Steward.Dotted
