/-
Qualified names: the dotted names under which types, contracts and scripts are
known.

A name is at most `Name.maxLength` bytes long and each of its segments is an
ASCII identifier.  `Name.fault?` finds the first fault of a text, from the left;
`Name.parse` accepts exactly the texts without one.  A `Name` can also be made
of any text by its constructor: such a name is never checked, which is what
hosts that already know their names do.
-/
import Steward.Dotted

namespace Steward

/-- A dotted name. -/
structure Name where
  text : String
  deriving DecidableEq, Repr, Inhabited

/-- What is wrong with a text that should be a name. -/
inductive NameFault where
  | empty
  /-- The text has `length` bytes, more than `max`. -/
  | tooLong (length max : Nat)
  | emptySegment (index : Nat)
  /-- A segment starts with a digit. -/
  | badStart (char : Char)
  /-- A character that no segment may hold, `position` characters into the text. -/
  | badChar (char : Char) (position : Nat)
  deriving DecidableEq, Repr

/-- The wording of a fault. -/
def NameFault.message : NameFault → String
  | .empty => "qualified name cannot be empty"
  | .tooLong length max => s!"qualified name too long: {length} chars (max {max})"
  | .emptySegment index => s!"segment {index} is empty"
  | .badStart c => s!"segment cannot start with '{c}'"
  | .badChar c position =>
    s!"invalid character '{c}' at position {position} (only alphanumeric, underscore, dot allowed)"

namespace Name

/-- The greatest length of a name, in bytes. -/
def maxLength : Nat := 512

/-- The characters a segment may hold: ASCII letters and digits, and the underscore. -/
def isWordChar (c : Char) : Bool :=
  c.isAlphanum || c == '_'

/-- The first character of a segment that it may not hold, `position` being
where the segment starts. -/
def badChar? (position : Nat) : List Char → Option NameFault
  | [] => none
  | c :: cs => if isWordChar c then badChar? (position + 1) cs else some (.badChar c position)

/-- The fault of one segment, the `index`-th, which starts at `position`. -/
def segmentFault? (index position : Nat) : List Char → Option NameFault
  | [] => some (.emptySegment index)
  | c :: cs => if c.isDigit then some (.badStart c) else badChar? position (c :: cs)

/-- The first fault in a list of segments; the dot after each of them takes one
position. -/
def segmentsFault? (index position : Nat) : List (List Char) → Option NameFault
  | [] => none
  | s :: ss =>
    (segmentFault? index position s).or (segmentsFault? (index + 1) (position + s.length + 1) ss)

/-- The first fault of a text. -/
def fault? (text : String) : Option NameFault :=
  if text.isEmpty then some .empty
  else if maxLength < text.utf8ByteSize then some (.tooLong text.utf8ByteSize maxLength)
  else segmentsFault? 0 0 (Dotted.segmentsOf text.toList)

/-- The name a text spells, if it has no fault. -/
def parse (text : String) : Except NameFault Name :=
  match fault? text with
  | none => .ok ⟨text⟩
  | some fault => .error fault

/-- The segments of a name. -/
def segments (n : Name) : List String :=
  Dotted.split n.text

/-- What comes after the last dot; a name without a dot is short as it is. -/
def short (n : Name) : String :=
  match Dotted.cutLast? n.text.toList with
  | some (_, after) => String.ofList after
  | none => n.text

/-- What comes before the last dot; a name without a dot has no namespace. -/
def namespace? (n : Name) : Option String :=
  match Dotted.cutLast? n.text.toList with
  | some (before, _) => some (String.ofList before)
  | none => none

/-- The text of the name one segment below. -/
def childText (n : Name) (segment : String) : String :=
  n.text ++ "." ++ segment

/-- Names are ordered as their texts, code point by code point. -/
instance : Ord Name where
  compare a b := compare a.text b.text

instance : ToString Name where
  toString n := n.text

end Name

end Steward
