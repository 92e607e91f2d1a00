/-
Where a name is at fault: of all that is wrong with a text, what stands leftmost.

A text that is not too long is read segment by segment.  The first segment that is no word decides
what the fault is, and if a character of it is bad, where in the text this character stands.  The
place is counted in characters along the segments before, each with its dot.

* **`FirstWithout`** — the first thing in a list that lacks a property, and its index: of segments
  that are no words, and of characters that fit nowhere in a name;
* **`exists_of_badChar?`**, **`exists_of_segmentsFault?`** — what is found in a segment and in a
  list of segments, with the text that stands before it;
* **`pinpoints_of_fault?`** — so the fault is that of the first bad segment (`Pinpoints`);
* **`faults_leftmost`** — and there is no other.
-/
import Steward.Proofs.Grammar

namespace Steward

/-- Whether `a`, at index `i`, is the first thing in a list that lacks a property. -/
structure FirstWithout {α : Type} (p : α → Prop) (as : List α) (i : Nat) (a : α) : Prop where
  here : as[i]? = some a
  lacks : ¬ p a
  first : ∀ j < i, ∀ b, as[j]? = some b → p b

namespace FirstWithout

variable {α : Type} {p q : α → Prop} {as bs : List α} {i j : Nat} {a b : α}

theorem head (h : ¬ p a) : FirstWithout p (a :: as) 0 a :=
  ⟨rfl, h, fun _ hj => absurd hj (Nat.not_lt_zero _)⟩

theorem cons (hb : p b) (h : FirstWithout p as i a) : FirstWithout p (b :: as) (i + 1) a := by
  refine ⟨by rw [List.getElem?_cons_succ, h.here], h.lacks, ?_⟩
  intro j hj x hx
  cases j with
  | zero =>
    obtain rfl : b = x := Option.some.inj hx
    exact hb
  | succ j => exact h.first j (Nat.lt_of_succ_lt_succ hj) x hx

/-- What has the property in front moves the index. -/
theorem append (hbs : ∀ b ∈ bs, p b) (h : FirstWithout p as i a) :
    FirstWithout p (bs ++ as) (bs.length + i) a := by
  induction bs with
  | nil => simpa using h
  | cons b bs ih =>
    obtain ⟨hb, hbs⟩ := List.forall_mem_cons.mp hbs
    have hcons := (ih hbs).cons hb
    rwa [Nat.add_right_comm] at hcons

/-- What comes after does not matter. -/
theorem append_right (h : FirstWithout p as i a) : FirstWithout p (as ++ bs) i a := by
  have hi : i < as.length := (List.getElem?_eq_some_iff.mp h.here).1
  refine ⟨by rw [List.getElem?_append_left hi, h.here], h.lacks, ?_⟩
  intro j hj x hx
  rw [List.getElem?_append_left (Nat.lt_trans hj hi)] at hx
  exact h.first j hj x hx

theorem imp (h : FirstWithout p as i a) (hpq : ∀ b, p b → q b) (ha : ¬ q a) :
    FirstWithout q as i a :=
  ⟨h.here, ha, fun j hj b hb => hpq b (h.first j hj b hb)⟩

theorem unique (h : FirstWithout p as i a) (h' : FirstWithout p as j b) : i = j ∧ a = b := by
  obtain rfl : i = j := by
    rcases Nat.lt_trichotomy i j with hlt | heq | hgt
    · exact absurd (h'.first i hlt a h.here) h.lacks
    · exact heq
    · exact absurd (h.first j hgt b h'.here) h'.lacks
  exact ⟨rfl, Option.some.inj (h.here.symm.trans h'.here)⟩

end FirstWithout

namespace Name

/-- The ASCII digits. -/
def Digit (c : Char) : Prop :=
  '0' ≤ c ∧ c ≤ '9'

/-- The characters that can stand somewhere in a name: the dot, and what words go on with. -/
def Fits (c : Char) : Prop :=
  GoesOn c ∨ c = '.'

/-- Whether a fault is the one of a text whose first segment that is no word is `w`, with the
index `i`. -/
structure Pinpoints (text : String) (i : Nat) (w : List Char) (fault : NameFault) : Prop where
  empty : fault = .emptySegment i ↔ w = []
  start : ∀ c, fault = .badStart c ↔ Digit c ∧ w.head? = some c
  char : w ≠ [] → (∀ c, w.head? = some c → ¬ Digit c) →
    ∃ c p, fault = .badChar c p ∧ FirstWithout Fits text.toList p c

theorem isDigit_iff {c : Char} : c.isDigit = true ↔ Digit c :=
  Char.isDigit_iff_toNat

/-- Nothing else is a fault of that segment. -/
theorem Pinpoints.unique {text : String} {i : Nat} {w : List Char} {fault fault' : NameFault}
    (h : Pinpoints text i w fault) (h' : Pinpoints text i w fault') : fault = fault' := by
  by_cases hw : w = []
  · rw [h.empty.mpr hw, h'.empty.mpr hw]
  · by_cases hdigit : ∃ c, Digit c ∧ w.head? = some c
    · obtain ⟨c, hc⟩ := hdigit
      rw [(h.start c).mpr hc, (h'.start c).mpr hc]
    · have hstart : ∀ c, w.head? = some c → ¬ Digit c :=
        fun c hc hd => hdigit ⟨c, hd, hc⟩
      obtain ⟨c, p, rfl, hp⟩ := h.char hw hstart
      obtain ⟨d, q, rfl, hq⟩ := h'.char hw hstart
      obtain ⟨rfl, rfl⟩ := hp.unique hq
      rfl

/-! ### What is found in segments -/

theorem exists_of_badChar? {position : Nat} {cs : List Char} {fault : NameFault}
    (h : badChar? position cs = some fault) :
    ∃ k c, fault = .badChar c (position + k) ∧ FirstWithout GoesOn cs k c := by
  induction cs generalizing position with
  | nil => cases h
  | cons d cs ih =>
    rw [badChar?] at h
    split at h
    · rename_i hd
      obtain ⟨k, c, rfl, hfirst⟩ := ih h
      refine ⟨k + 1, c, ?_, hfirst.cons (isWordChar_iff.mp hd)⟩
      rw [Nat.add_assoc, Nat.add_comm 1 k]
    · rename_i hd
      cases h
      exact ⟨0, d, rfl, .head fun hgoes => hd (isWordChar_iff.mpr hgoes)⟩

/-- **The first segment that is no word has the fault.**  In the text of the segments it stands
behind characters that fit, and its place is their number. -/
theorem exists_of_segmentsFault? {index position : Nat} {ss : List (List Char)}
    {fault : NameFault} (h : segmentsFault? index position ss = some fault) :
    ∃ i w before after, FirstWithout Word ss i w ∧
      Dotted.joinSegments ss = before ++ (w ++ after) ∧ (∀ c ∈ before, Fits c) ∧
      segmentFault? (index + i) (position + before.length) w = some fault := by
  induction ss generalizing index position with
  | nil => cases h
  | cons s ss ih =>
    rw [segmentsFault?] at h
    rcases Option.or_eq_some_iff.mp h with hs | ⟨hs, hss⟩
    · -- the segment is the first of its list, and there is nothing before it
      have hbad : ¬ Word s := by
        intro hword
        rw [segmentFault?_eq_none_iff.mpr hword] at hs
        cases hs
      obtain ⟨after, hafter⟩ : ∃ after, Dotted.joinSegments (s :: ss) = s ++ after := by
        by_cases hnil : ss = []
        · exact ⟨[], by rw [hnil, List.append_nil]; rfl⟩
        · exact ⟨_, Dotted.joinSegments_cons_nonempty s hnil⟩
      exact ⟨0, s, [], after, .head hbad, hafter, by simp, hs⟩
    · have hword : Word s := segmentFault?_eq_none_iff.mp hs
      have hnil : ss ≠ [] := by
        rintro rfl
        cases hss
      obtain ⟨i, w, before, after, hfirst, hjoin, hfits, hfault⟩ := ih hss
      refine ⟨i + 1, w, s ++ '.' :: before, after, hfirst.cons hword, ?_, ?_, ?_⟩
      · rw [Dotted.joinSegments_cons_nonempty s hnil, hjoin, List.append_assoc, List.cons_append]
      · intro c hc
        rcases List.mem_append.mp hc with hc | hc
        · exact .inl (hword.goesOn c hc)
        · rcases List.mem_cons.mp hc with rfl | hc
          · exact .inr rfl
          · exact hfits c hc
      · have hplace : position + (s ++ '.' :: before).length =
            position + s.length + 1 + before.length := by
          rw [List.length_append, List.length_cons]
          omega
        rw [hplace, Nat.add_comm i 1, ← Nat.add_assoc]
        exact hfault

/-! ### The fault of a text -/

/-- **What is reported pinpoints the first segment that is no word.** -/
theorem pinpoints_of_segment {text : String} {i : Nat} {w before after : List Char}
    {fault : NameFault} (hdot : '.' ∉ w) (htext : text.toList = before ++ (w ++ after))
    (hfits : ∀ c ∈ before, Fits c) (h : segmentFault? i before.length w = some fault) :
    Pinpoints text i w fault := by
  cases w with
  | nil =>
    cases h
    exact ⟨by simp, by simp, fun hne => absurd rfl hne⟩
  | cons d w =>
    rw [segmentFault?] at h
    split at h
    · rename_i hd
      cases h
      refine ⟨by simp, ?_, fun _ hstart => absurd (isDigit_iff.mp hd) (hstart d rfl)⟩
      intro c
      simp only [NameFault.badStart.injEq, List.head?_cons, Option.some.injEq]
      refine ⟨?_, And.right⟩
      rintro rfl
      exact ⟨isDigit_iff.mp hd, rfl⟩
    · rename_i hd
      obtain ⟨k, c, rfl, hfirst⟩ := exists_of_badChar? h
      refine ⟨by simp, ?_, fun _ _ => ⟨c, _, rfl, ?_⟩⟩
      · intro c
        simp only [reduceCtorEq, List.head?_cons, Option.some.injEq, false_iff, not_and]
        rintro hc rfl
        exact hd (isDigit_iff.mpr hc)
      · have hc : ¬ Fits c := by
          rintro (hgoes | rfl)
          · exact hfirst.lacks hgoes
          · exact hdot (List.mem_of_getElem? hfirst.here)
        rw [htext]
        exact ((hfirst.imp (fun _ h => .inl h) hc).append_right).append hfits

theorem pinpoints_of_fault? {text : String} (hne : text ≠ "") (hshort : text.utf8ByteSize ≤ 512)
    {fault : NameFault} (h : fault? text = some fault) :
    ∃ i w, FirstWithout Word (Dotted.segmentsOf text.toList) i w ∧ Pinpoints text i w fault := by
  have hempty : ¬ text.isEmpty = true := by
    rwa [String.isEmpty_iff]
  have hlong : ¬ maxLength < text.utf8ByteSize := Nat.not_lt.mpr hshort
  rw [fault?, if_neg hempty, if_neg hlong] at h
  obtain ⟨i, w, before, after, hfirst, hjoin, hfits, hfault⟩ := exists_of_segmentsFault? h
  rw [Dotted.joinSegments_segmentsOf] at hjoin
  rw [Nat.zero_add, Nat.zero_add] at hfault
  have hdot := Dotted.segmentsOf_dotless _ w (List.mem_of_getElem? hfirst.here)
  exact ⟨i, w, hfirst, pinpoints_of_segment hdot hjoin hfits hfault⟩

/-- A text with a segment that is no word has a fault. -/
theorem fault?_isSome {text : String} {i : Nat} {w : List Char}
    (h : FirstWithout Word (Dotted.segmentsOf text.toList) i w) :
    ∃ fault, fault? text = some fault := by
  rw [← Option.ne_none_iff_exists', ne_eq, fault?_eq_none_iff]
  intro hvalid
  exact h.lacks (spelled_iff.mp hvalid.spelled w (List.mem_of_getElem? h.here))

end Name

/-- **Faults are leftmost.**  Let a text be neither empty nor longer than 512 bytes.  What is
reported of it, if anything is, is the fault of its first segment that is no word: that this
segment, of the given index, is empty; or the digit that it starts with; or else the first
character of the whole text that fits nowhere in a name, and the number of characters before it.
And where there is such a segment, that is what is reported. -/
theorem faults_leftmost (text : String) (hne : text ≠ "") (hshort : text.utf8ByteSize ≤ 512)
    (fault : NameFault) :
    Name.fault? text = some fault ↔ ∃ i w,
      FirstWithout Name.Word (Dotted.segmentsOf text.toList) i w ∧
        Name.Pinpoints text i w fault := by
  refine ⟨Name.pinpoints_of_fault? hne hshort, ?_⟩
  rintro ⟨i, w, hfirst, hpoints⟩
  obtain ⟨reported, hreported⟩ := Name.fault?_isSome hfirst
  obtain ⟨j, v, hfirst', hpoints'⟩ := Name.pinpoints_of_fault? hne hshort hreported
  obtain ⟨rfl, rfl⟩ := hfirst.unique hfirst'
  rw [hreported, hpoints.unique hpoints']

/-- A bad character in the second of three segments; the third one is not looked at. -/
theorem faults_leftmost_street :
    "Road.Straße.1st" ≠ "" ∧ "Road.Straße.1st".utf8ByteSize ≤ 512 ∧
    Name.fault? "Road.Straße.1st" = some (.badChar 'ß' 9) ∧
    ∃ i w, FirstWithout Name.Word (Dotted.segmentsOf "Road.Straße.1st".toList) i w ∧
      Name.Pinpoints "Road.Straße.1st" i w (.badChar 'ß' 9) := by
  have hne : "Road.Straße.1st" ≠ "" := by decide
  have hshort : "Road.Straße.1st".utf8ByteSize ≤ 512 := by decide +kernel
  have hfault : Name.fault? "Road.Straße.1st" = some (.badChar 'ß' 9) := by decide +kernel
  exact ⟨hne, hshort, hfault, (faults_leftmost _ hne hshort _).mp hfault⟩

/-- A digit at the start of a segment comes before a bad character further on in it. -/
example : Name.fault? "Road.1-st." = some (.badStart '1') := by decide +kernel

end Steward
