/-
The grammar of names: which texts are names, said without looking for faults.

A word begins with a letter or an underscore and goes on with letters, digits and underscores,
all of them ASCII (`Name.Word`).  A name is spelled by words with single dots between them
(`Name.Spelled`), and has 1 to 512 characters.

* **`segmentFault?_eq_none_iff`** — a segment has no fault if and only if it is a word, wherever
  it stands;
* **`spelled_iff`** — a text is spelled by words if and only if each of its segments is one;
* **`utf8ByteSize_eq_length`** — such a text has as many bytes as characters, so it makes no
  difference that its length is counted in bytes;
* **`names_follow_grammar`** — reading a name accepts exactly the texts of the grammar, and gives
  each of them back as it is.
-/
import Steward.Error

namespace Steward

namespace Name

/-- The characters a word begins with. -/
def Begins (c : Char) : Prop :=
  ('A' ≤ c ∧ c ≤ 'Z') ∨ ('a' ≤ c ∧ c ≤ 'z') ∨ c = '_'

/-- The characters a word goes on with. -/
def GoesOn (c : Char) : Prop :=
  Begins c ∨ ('0' ≤ c ∧ c ≤ '9')

/-- One segment of a name. -/
inductive Word : List Char → Prop where
  | mk {c : Char} {cs : List Char} (begins : Begins c) (goesOn : ∀ d ∈ cs, GoesOn d) :
      Word (c :: cs)

/-- One word, or several with a dot between each and the next. -/
inductive Spelled : List Char → Prop where
  | word {w : List Char} (h : Word w) : Spelled w
  | dot {w cs : List Char} (h : Word w) (rest : Spelled cs) : Spelled (w ++ '.' :: cs)

/-- The texts that are names. -/
structure Valid (text : String) : Prop where
  positive : 1 ≤ text.length
  bounded : text.length ≤ 512
  spelled : Spelled text.toList

/-! ### Characters -/

theorem begins_iff_toNat {c : Char} : Begins c ↔
    (65 ≤ c.toNat ∧ c.toNat ≤ 90) ∨ (97 ≤ c.toNat ∧ c.toNat ≤ 122) ∨ c.toNat = 95 := by
  have hunderscore : c.toNat = 95 ↔ c = '_' := Char.toNat_inj (d := '_')
  rw [hunderscore]
  rfl

theorem goesOn_iff_toNat {c : Char} :
    GoesOn c ↔ Begins c ∨ (48 ≤ c.toNat ∧ c.toNat ≤ 57) :=
  Iff.rfl

theorem isWordChar_iff {c : Char} : isWordChar c = true ↔ GoesOn c := by
  have hbetween : ∀ a b : Char, (decide (c.val ≥ a.val) && decide (c.val ≤ b.val)) = true ↔
      a ≤ c ∧ c ≤ b := fun a b =>
    Bool.and_eq_true_iff.trans (and_congr decide_eq_true_iff decide_eq_true_iff)
  have hupper : c.isUpper = true ↔ 'A' ≤ c ∧ c ≤ 'Z' := decide_eq_true_iff
  have hlower : c.isLower = true ↔ 'a' ≤ c ∧ c ≤ 'z' := hbetween 'a' 'z'
  have hdigit : c.isDigit = true ↔ '0' ≤ c ∧ c ≤ '9' := hbetween '0' '9'
  change (((c.isUpper || c.isLower) || c.isDigit) || c == '_') = true ↔ _
  rw [Bool.or_eq_true, Bool.or_eq_true, Bool.or_eq_true, hupper, hlower, hdigit, beq_iff_eq,
    GoesOn, Begins]
  grind

/-- A word begins with what it may go on with, but not with a digit. -/
theorem begins_iff {c : Char} : Begins c ↔ GoesOn c ∧ c.isDigit = false := by
  have hdigit : c.isDigit = true ↔ 48 ≤ c.toNat ∧ c.toNat ≤ 57 := Char.isDigit_iff_toNat
  rw [← Bool.not_eq_true, hdigit, goesOn_iff_toNat, begins_iff_toNat]
  omega

theorem GoesOn.utf8Size_eq_one {c : Char} (h : GoesOn c) : c.utf8Size = 1 := by
  rw [goesOn_iff_toNat, begins_iff_toNat] at h
  have hascii : c.toNat ≤ 127 := by omega
  exact Char.utf8Size_eq_one_iff.mpr hascii

theorem GoesOn.ne_dot {c : Char} (h : GoesOn c) : c ≠ '.' := by
  rintro rfl
  have hdot : ¬ GoesOn '.' := by
    rw [← isWordChar_iff]
    decide
  exact hdot h

/-! ### Words -/

theorem Word.goesOn {w : List Char} (h : Word w) : ∀ c ∈ w, GoesOn c := by
  obtain ⟨hc, hcs⟩ := h
  intro d hd
  rcases List.mem_cons.mp hd with rfl | hd
  · exact .inl hc
  · exact hcs d hd

theorem Word.ne_nil {w : List Char} (h : Word w) : w ≠ [] := by
  obtain ⟨-, -⟩ := h
  exact List.cons_ne_nil _ _

theorem Word.dotless {w : List Char} (h : Word w) : '.' ∉ w :=
  fun hdot => (h.goesOn _ hdot).ne_dot rfl

/-- No character is found bad if and only if a word may go on with each of them. -/
theorem badChar?_eq_none_iff {position : Nat} {cs : List Char} :
    badChar? position cs = none ↔ ∀ c ∈ cs, GoesOn c := by
  induction cs generalizing position with
  | nil => simp [badChar?]
  | cons c cs ih =>
    rw [badChar?, List.forall_mem_cons, ← isWordChar_iff]
    split
    · rename_i hc
      rw [ih]
      simp [hc]
    · rename_i hc
      simp [hc]

/-- **A segment has no fault if and only if it is a word.** -/
theorem segmentFault?_eq_none_iff {index position : Nat} {s : List Char} :
    segmentFault? index position s = none ↔ Word s := by
  cases s with
  | nil =>
    refine iff_of_false (by simp [segmentFault?]) ?_
    intro h
    exact h.ne_nil rfl
  | cons c cs =>
    rw [segmentFault?]
    constructor
    · intro h
      split at h
      · cases h
      · rename_i hdigit
        rw [badChar?_eq_none_iff, List.forall_mem_cons] at h
        exact ⟨begins_iff.mpr ⟨h.1, Bool.not_eq_true _ ▸ hdigit⟩, h.2⟩
    · rintro ⟨hc, hcs⟩
      rw [if_neg (by simp [(begins_iff.mp hc).2]), badChar?_eq_none_iff, List.forall_mem_cons]
      exact ⟨.inl hc, hcs⟩

theorem segmentsFault?_eq_none_iff {index position : Nat} {ss : List (List Char)} :
    segmentsFault? index position ss = none ↔ ∀ s ∈ ss, Word s := by
  induction ss generalizing index position with
  | nil => simp [segmentsFault?]
  | cons s ss ih =>
    rw [segmentsFault?, Option.or_eq_none_iff, segmentFault?_eq_none_iff, ih, List.forall_mem_cons]

/-! ### Words with dots between them -/

theorem spelled_joinSegments {ss : List (List Char)} (hne : ss ≠ []) (h : ∀ s ∈ ss, Word s) :
    Spelled (Dotted.joinSegments ss) := by
  induction ss with
  | nil => exact absurd rfl hne
  | cons s ss ih =>
    obtain ⟨hs, hss⟩ := List.forall_mem_cons.mp h
    by_cases hnil : ss = []
    · subst hnil
      exact .word hs
    · rw [Dotted.joinSegments_cons_nonempty s hnil]
      exact .dot hs (ih hnil hss)

/-- **A text is spelled by words if and only if each of its segments is one.** -/
theorem spelled_iff {cs : List Char} : Spelled cs ↔ ∀ s ∈ Dotted.segmentsOf cs, Word s := by
  constructor
  · intro h
    induction h with
    | word hw =>
      rw [Dotted.segmentsOf_of_dotless hw.dotless]
      exact List.forall_mem_singleton.mpr hw
    | dot hw _ ih =>
      rw [Dotted.segmentsOf_append_dot hw.dotless]
      exact List.forall_mem_cons.mpr ⟨hw, ih⟩
  · intro h
    have hjoined := spelled_joinSegments (Dotted.segmentsOf_ne_nil cs) h
    rwa [Dotted.joinSegments_segmentsOf] at hjoined

theorem Spelled.ne_nil {cs : List Char} (h : Spelled cs) : cs ≠ [] := by
  cases h with
  | word hw => exact hw.ne_nil
  | dot hw rest => simp

theorem Spelled.utf8Size_eq_one {cs : List Char} (h : Spelled cs) : ∀ c ∈ cs, c.utf8Size = 1 := by
  induction h with
  | word hw => exact fun c hc => (hw.goesOn c hc).utf8Size_eq_one
  | dot hw _ ih =>
    intro c hc
    rcases List.mem_append.mp hc with hc | hc
    · exact (hw.goesOn c hc).utf8Size_eq_one
    · rcases List.mem_cons.mp hc with rfl | hc
      · rfl
      · exact ih c hc

theorem utf8ByteSize_ofList {cs : List Char} (h : ∀ c ∈ cs, c.utf8Size = 1) :
    (String.ofList cs).utf8ByteSize = cs.length := by
  induction cs with
  | nil => rfl
  | cons c cs ih =>
    obtain ⟨hc, hcs⟩ := List.forall_mem_cons.mp h
    rw [String.ofList_cons, String.utf8ByteSize_append, String.utf8ByteSize_singleton, hc, ih hcs,
      List.length_cons, Nat.add_comm]

/-- A text spelled by words has as many bytes as characters. -/
theorem utf8ByteSize_eq_length {text : String} (h : Spelled text.toList) :
    text.utf8ByteSize = text.length := by
  have hsize := utf8ByteSize_ofList h.utf8Size_eq_one
  rwa [String.ofList_toList, String.length_toList] at hsize

/-! ### Names -/

/-- A text has no fault if and only if it is one of the grammar. -/
theorem fault?_eq_none_iff {text : String} : fault? text = none ↔ Valid text := by
  rw [fault?]
  constructor
  · intro h
    split at h
    · cases h
    · rename_i hempty
      split at h
      · cases h
      · rename_i hlong
        have hspelled : Spelled text.toList := spelled_iff.mpr (segmentsFault?_eq_none_iff.mp h)
        rw [utf8ByteSize_eq_length hspelled, maxLength] at hlong
        refine ⟨?_, Nat.not_lt.mp hlong, hspelled⟩
        rw [← String.length_toList]
        exact List.length_pos_iff.mpr hspelled.ne_nil
  · rintro ⟨hpositive, hbounded, hspelled⟩
    have hempty : text.isEmpty = false := by
      rw [← Bool.not_eq_true, String.isEmpty_iff]
      rintro rfl
      exact absurd hpositive (by decide)
    have hlong : ¬ maxLength < text.utf8ByteSize := by
      rw [utf8ByteSize_eq_length hspelled, maxLength]
      exact Nat.not_lt.mpr hbounded
    rw [if_neg (by simp [hempty]), if_neg hlong, segmentsFault?_eq_none_iff]
    exact spelled_iff.mp hspelled

theorem parse_eq_ok_iff {text : String} {n : Name} :
    parse text = .ok n ↔ Valid text ∧ n = ⟨text⟩ := by
  rw [parse, ← fault?_eq_none_iff]
  cases fault? text with
  | none => simp [eq_comm]
  | some fault => simp

theorem read_eq_ok_iff {text : String} {n : Name} :
    read text = .ok n ↔ Valid text ∧ n = ⟨text⟩ := by
  rw [← parse_eq_ok_iff, read]
  cases parse text with
  | ok m => simp
  | error fault => simp

end Name

/-- **Reading a name accepts exactly the texts of the grammar.**  For every text: no fault is found
in it if and only if it has 1 to 512 characters and is spelled by words with single dots between
them.  These are the texts that can be read as a name, whether or not the fault of another text is
put into words, and what is read is the name of that very text. -/
theorem names_follow_grammar (text : String) :
    (Name.fault? text = none ↔ Name.Valid text) ∧
    (∀ n, Name.parse text = .ok n ↔ Name.Valid text ∧ n.text = text) ∧
    ∀ n, Name.read text = .ok n ↔ Name.Valid text ∧ n.text = text := by
  refine ⟨Name.fault?_eq_none_iff, ?_, ?_⟩
  · rintro ⟨other⟩
    rw [Name.parse_eq_ok_iff, Name.mk.injEq]
  · rintro ⟨other⟩
    rw [Name.read_eq_ok_iff, Name.mk.injEq]

end Steward
