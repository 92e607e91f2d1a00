/-
The parts of a name: taking a name apart, and putting one together from its parts.

A name is taken apart in two ways: at all its dots, which gives its segments, and at the last dot
alone, which gives its namespace and its short form.  The ways back are to join the segments and
to go from a namespace to a child.

* **`parts`** — every text is without a dot or has a last one, and the two ways of taking it apart
  agree in either case (`segments_below`, `namespace?_below`, `short_below`);
* **`valid_below_iff`** — the two sides of a dot are names where the whole is one;
* **`names_decompose`** — so what a valid name is taken apart into is valid, and gives it back;
* **`child_eq_ok_iff`** — which texts can be appended to a name;
* **`child_appends_segments`** — a child has the segments of what was appended, and that is one
  segment unless it has a dot.

Design notes: a name can be made of any text without a check, so what does not need a valid name
is said of all of them.
-/
import Steward.Proofs.Grammar

namespace Steward

namespace Dotted

theorem joinSegments_eq_intercalate (ss : List (List Char)) :
    joinSegments ss = ['.'].intercalate ss := by
  induction ss with
  | nil => rfl
  | cons s ss ih =>
    cases ss with
    | nil => simp [joinSegments]
    | cons t ss => rw [joinSegments, ih, List.intercalate_cons_cons, List.append_assoc]; rfl

theorem join_eq_intercalate (segments : List String) :
    join segments = ".".intercalate segments := by
  rw [← String.toList_inj, String.toList_intercalate, join, String.toList_ofList,
    joinSegments_eq_intercalate]
  rfl

theorem split_ne_nil (text : String) : split text ≠ [] := by
  rw [split, ne_eq, List.map_eq_nil_iff]
  exact segmentsOf_ne_nil _

theorem split_of_dotless {text : String} (h : '.' ∉ text.toList) : split text = [text] := by
  rw [split, segmentsOf_of_dotless h, List.map_singleton, String.ofList_toList]

theorem toList_append_dot (a b : String) :
    (a ++ "." ++ b).toList = a.toList ++ '.' :: b.toList := by
  simp

theorem split_append_dot (a b : String) : split (a ++ "." ++ b) = split a ++ split b := by
  rw [split, toList_append_dot, segmentsOf_append, List.map_append, split, split]

theorem mem_split {text s : String} : s ∈ split text ↔ s.toList ∈ segmentsOf text.toList := by
  rw [split, List.mem_map]
  constructor
  · rintro ⟨cs, hcs, rfl⟩
    rwa [String.toList_ofList]
  · exact fun h => ⟨_, h, String.ofList_toList⟩

theorem length_le_joinSegments {ss : List (List Char)} {s : List Char} (h : s ∈ ss) :
    s.length ≤ (joinSegments ss).length := by
  induction ss with
  | nil => cases h
  | cons t ss ih =>
    by_cases hnil : ss = []
    · subst hnil
      rw [List.mem_singleton.mp h]
      exact Nat.le_refl _
    · rw [joinSegments_cons_nonempty t hnil, List.length_append, List.length_cons]
      rcases List.mem_cons.mp h with rfl | h
      · omega
      · have := ih h
        omega

theorem length_le_of_mem_split {text s : String} (h : s ∈ split text) : s.length ≤ text.length := by
  have hle := length_le_joinSegments (mem_split.mp h)
  rwa [joinSegments_segmentsOf, String.length_toList, String.length_toList] at hle

end Dotted

namespace Name

/-! ### Two ways of taking a name apart -/

/-- A name that has no dot, or one that has a last dot. -/
inductive Parts : Name → Prop where
  | single {text : String} (h : '.' ∉ text.toList) : Parts ⟨text⟩
  | below (space : String) {last : String} (h : '.' ∉ last.toList) : Parts ⟨space ++ "." ++ last⟩

theorem parts (n : Name) : Parts n := by
  obtain ⟨text⟩ := n
  cases hcut : Dotted.cutLast? text.toList with
  | none => exact .single (Dotted.cutLast?_eq_none_iff.mp hcut)
  | some ends =>
    obtain ⟨before, after⟩ := ends
    obtain ⟨htext, hafter⟩ := Dotted.cutLast?_eq_some_iff.mp hcut
    have hjoin : text = String.ofList before ++ "." ++ String.ofList after := by
      rw [← String.toList_inj, htext, Dotted.toList_append_dot, String.toList_ofList,
        String.toList_ofList]
    rw [hjoin]
    exact .below _ (by rwa [String.toList_ofList])

section

variable {text space last : String}

theorem segments_single (h : '.' ∉ text.toList) : segments ⟨text⟩ = [text] :=
  Dotted.split_of_dotless h

theorem namespace?_single (h : '.' ∉ text.toList) : (Name.mk text).namespace? = none := by
  rw [namespace?, Dotted.cutLast?_eq_none_iff.mpr h]

theorem short_single (h : '.' ∉ text.toList) : short ⟨text⟩ = text := by
  rw [short, Dotted.cutLast?_eq_none_iff.mpr h]

theorem cutLast?_below (h : '.' ∉ last.toList) :
    Dotted.cutLast? (space ++ "." ++ last).toList = some (space.toList, last.toList) :=
  Dotted.cutLast?_eq_some_iff.mpr ⟨Dotted.toList_append_dot space last, h⟩

theorem segments_below (h : '.' ∉ last.toList) :
    segments ⟨space ++ "." ++ last⟩ = segments ⟨space⟩ ++ [last] := by
  rw [segments, Dotted.split_append_dot, Dotted.split_of_dotless h, segments]

theorem namespace?_below (h : '.' ∉ last.toList) :
    (Name.mk (space ++ "." ++ last)).namespace? = some space := by
  rw [namespace?, cutLast?_below h]
  exact congrArg some String.ofList_toList

theorem short_below (h : '.' ∉ last.toList) : short ⟨space ++ "." ++ last⟩ = last := by
  rw [short, cutLast?_below h]
  exact String.ofList_toList

end

theorem segments_ne_nil (n : Name) : n.segments ≠ [] :=
  Dotted.split_ne_nil n.text

theorem intercalate_segments (n : Name) : ".".intercalate n.segments = n.text := by
  rw [← Dotted.join_eq_intercalate]
  exact Dotted.join_split n.text

theorem getLast?_segments (n : Name) : n.segments.getLast? = some n.short := by
  cases n.parts with
  | single h => rw [segments_single h, short_single h, List.getLast?_singleton]
  | below space h => rw [segments_below h, short_below h, List.getLast?_concat]

theorem namespace?_eq_none_iff {n : Name} : n.namespace? = none ↔ n.segments.length = 1 := by
  cases n.parts with
  | single h => simp [segments_single h, namespace?_single h]
  | below space h =>
    have hpos := List.length_pos_iff.mpr (segments_ne_nil ⟨space⟩)
    rw [segments_below h, namespace?_below h, List.length_append, List.length_singleton]
    simp only [reduceCtorEq, false_iff]
    omega

/-- The namespace is all segments but the last. -/
theorem eq_of_namespace?_eq_some {n : Name} {space : String} (h : n.namespace? = some space) :
    n.text = space ++ "." ++ n.short ∧ space = ".".intercalate n.segments.dropLast := by
  cases n.parts with
  | single hdot =>
    rw [namespace?_single hdot] at h
    cases h
  | below space' hdot =>
    rw [namespace?_below hdot] at h
    cases h
    rw [segments_below hdot, short_below hdot, List.dropLast_concat, intercalate_segments]
    exact ⟨rfl, rfl⟩

/-! ### Parts of valid names -/

theorem spelled_append_iff {cs ds : List Char} :
    Spelled (cs ++ '.' :: ds) ↔ Spelled cs ∧ Spelled ds := by
  rw [spelled_iff, spelled_iff, spelled_iff, Dotted.segmentsOf_append, List.forall_mem_append]

/-- What is spelled by words has a character, so that only its length is left to ask for. -/
theorem valid_iff {text : String} : Valid text ↔ Spelled text.toList ∧ text.length ≤ 512 := by
  constructor
  · exact fun h => ⟨h.spelled, h.bounded⟩
  · rintro ⟨hspelled, hbounded⟩
    refine ⟨?_, hbounded, hspelled⟩
    rw [← String.length_toList]
    exact List.length_pos_iff.mpr hspelled.ne_nil

theorem length_below (space last : String) :
    (space ++ "." ++ last).length = space.length + 1 + last.length := by
  rw [String.length_append, String.length_append]
  rfl

/-- **The two sides of a dot in a valid name are valid names.** -/
theorem valid_below_iff {space last : String} : Valid (space ++ "." ++ last) ↔
    Valid space ∧ Valid last ∧ space.length + 1 + last.length ≤ 512 := by
  rw [valid_iff, valid_iff, valid_iff, Dotted.toList_append_dot, spelled_append_iff, length_below]
  constructor
  · rintro ⟨⟨hspace, hlast⟩, hbounded⟩
    exact ⟨⟨hspace, by omega⟩, ⟨hlast, by omega⟩, hbounded⟩
  · rintro ⟨⟨hspace, -⟩, ⟨hlast, -⟩, hbounded⟩
    exact ⟨⟨hspace, hlast⟩, hbounded⟩

/-- A segment of a valid name is a word, and so a valid name of one segment. -/
theorem valid_of_mem_segments {n : Name} (hn : Valid n.text) {s : String} (hs : s ∈ n.segments) :
    Word s.toList ∧ Valid s ∧ segments ⟨s⟩ = [s] := by
  have hword : Word s.toList := spelled_iff.mp hn.spelled _ (Dotted.mem_split.mp hs)
  have hbounded : s.length ≤ 512 := Nat.le_trans (Dotted.length_le_of_mem_split hs) hn.bounded
  exact ⟨hword, valid_iff.mpr ⟨.word hword, hbounded⟩, segments_single hword.dotless⟩

/-! ### Taking apart and putting together -/

theorem child_eq_ok_iff {n c : Name} {segment : String} : n.child segment = .ok c ↔
    Valid (n.text ++ "." ++ segment) ∧ c = ⟨n.text ++ "." ++ segment⟩ := by
  rw [child, childText, read_eq_ok_iff]

/-- What a name is taken apart into. -/
structure Decomposes (n : Name) : Prop where
  nonempty : n.segments ≠ []
  segments_valid : ∀ s ∈ n.segments, Word s.toList ∧ Valid s ∧ segments ⟨s⟩ = [s]
  joined : ".".intercalate n.segments = n.text
  last : n.segments.getLast? = some n.short
  single : n.namespace? = none ↔ n.segments.length = 1
  below : ∀ space, n.namespace? = some space →
    space = ".".intercalate n.segments.dropLast ∧ Valid space ∧
      child ⟨space⟩ n.short = .ok n

/-- Whether a name is another one with a single segment appended. -/
structure Appends (n : Name) (s : String) (c : Name) : Prop where
  segments_eq : c.segments = n.segments ++ [s]
  namespace_eq : c.namespace? = some n.text
  short_eq : c.short = s

/-- With a text without a dot a single segment is appended. -/
theorem appends_iff {n : Name} {s : String} :
    n.Appends s ⟨n.text ++ "." ++ s⟩ ↔ '.' ∉ s.toList := by
  constructor
  · rintro ⟨hsegments, -, -⟩
    -- no segment has a dot, and the text is one
    have hmem : s ∈ segments ⟨n.text ++ "." ++ s⟩ := by
      rw [hsegments]
      exact List.mem_append_right _ (List.mem_singleton_self s)
    exact Dotted.segmentsOf_dotless _ _ (Dotted.mem_split.mp hmem)
  · intro h
    exact ⟨segments_below h, namespace?_below h, short_below h⟩

end Name

/-- **Taking a name apart loses nothing.**  A valid name has at least one segment, each of them is
a word, which is a valid name of one segment, and joined with dots they give the name.  Its short
form is the last segment.  It has no namespace if and only if it has one segment; otherwise its
namespace is the others joined, a valid name of which the name is the child under its short
form. -/
theorem names_decompose (n : Name) (h : Name.Valid n.text) : n.Decomposes := by
  refine ⟨n.segments_ne_nil, fun s => Name.valid_of_mem_segments h, n.intercalate_segments,
    n.getLast?_segments, Name.namespace?_eq_none_iff, ?_⟩
  intro space hspace
  obtain ⟨htext, hjoined⟩ := Name.eq_of_namespace?_eq_some hspace
  have hwhole : Name.Valid (space ++ "." ++ n.short) := htext ▸ h
  refine ⟨hjoined, (Name.valid_below_iff.mp hwhole).1, Name.child_eq_ok_iff.mpr ⟨hwhole, ?_⟩⟩
  rw [← htext]

theorem names_decompose_list :
    Name.Valid "Core.Collections.List" ∧ (Name.mk "Core.Collections.List").Decomposes ∧
    (Name.mk "Core.Collections.List").segments = ["Core", "Collections", "List"] ∧
    (Name.mk "Core.Collections.List").namespace? = some "Core.Collections" := by
  have hvalid : Name.Valid "Core.Collections.List" :=
    Name.fault?_eq_none_iff.mp (by decide +kernel)
  exact ⟨hvalid, names_decompose ⟨"Core.Collections.List"⟩ hvalid, by decide +kernel,
    by decide +kernel⟩

/-- **A child has the segments of what was appended.**  A valid name has a child under the texts
that are valid names themselves, as long as the whole is not too long.  The segments of the child
are those of the name and then those of the text.  It is the name with the text as one more segment
if and only if the text has no dot. -/
theorem child_appends_segments (n : Name) (h : Name.Valid n.text) (s : String) :
    ((∃ c, n.child s = .ok c) ↔ Name.Valid s ∧ n.text.length + 1 + s.length ≤ 512) ∧
    ∀ c, n.child s = .ok c →
      c.segments = n.segments ++ Name.segments ⟨s⟩ ∧ (n.Appends s c ↔ '.' ∉ s.toList) := by
  constructor
  · have hwhole : Name.Valid (n.text ++ "." ++ s) ↔
        Name.Valid s ∧ n.text.length + 1 + s.length ≤ 512 :=
      Name.valid_below_iff.trans (and_iff_right h)
    simp only [Name.child_eq_ok_iff, exists_and_left, exists_eq, and_true, hwhole]
  · intro c hc
    obtain ⟨-, rfl⟩ := Name.child_eq_ok_iff.mp hc
    exact ⟨Dotted.split_append_dot n.text s, Name.appends_iff⟩

theorem child_appends_segments_core :
    Name.Valid "Core" ∧ (Name.mk "Core").child "List" = .ok ⟨"Core.List"⟩ ∧
    (Name.mk "Core").Appends "List" ⟨"Core.List"⟩ := by
  have hvalid : Name.Valid "Core" := Name.fault?_eq_none_iff.mp (by decide +kernel)
  have hwhole : Name.Valid "Core.List" := Name.fault?_eq_none_iff.mp (by decide +kernel)
  have hchild : (Name.mk "Core").child "List" = .ok ⟨"Core.List"⟩ :=
    Name.child_eq_ok_iff.mpr ⟨hwhole, rfl⟩
  refine ⟨hvalid, hchild, ?_⟩
  exact ((child_appends_segments ⟨"Core"⟩ hvalid "List").2 _ hchild).2.mpr (by decide)

/-- A text with a dot is appended as it is, and makes two segments. -/
theorem child_appends_several :
    ¬ ∀ (n : Name) (s : String) (c : Name), Name.Valid n.text → n.child s = .ok c →
      n.Appends s c := by
  intro h
  have hvalid : Name.Valid "Core" := Name.fault?_eq_none_iff.mp (by decide +kernel)
  have hwhole : Name.Valid "Core.Collections.List" :=
    Name.fault?_eq_none_iff.mp (by decide +kernel)
  have hone := h ⟨"Core"⟩ "Collections.List" ⟨"Core.Collections.List"⟩ hvalid
    (Name.child_eq_ok_iff.mpr ⟨hwhole, rfl⟩)
  have hsegments : Name.segments ⟨"Core.Collections.List"⟩ = ["Core", "Collections", "List"] := by
    decide +kernel
  rw [hone.segments_eq] at hsegments
  revert hsegments
  decide +kernel

end Steward
