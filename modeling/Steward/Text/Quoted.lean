/-
Texts in quotes, as descriptions show them.

A character that would end the text, that begins a spelling or that cannot be seen
is spelled out: by a letter after a backslash where it has one, else by its number.
Every other character stands for itself.

* `spell_eq_self`: the characters that stand for themselves.
-/
import Steward.Text.Hidden

namespace Steward

namespace Text

/-- The letter that spells a character after a backslash. -/
def spellingLetter? : Char → Option Char
  | '"' => some '"'
  | '\\' => some '\\'
  | '\n' => some 'n'
  | '\r' => some 'r'
  | '\t' => some 't'
  | '\x00' => some '0'
  | _ => none

/-- A character as it stands between quotes. -/
def spell (c : Char) : List Char :=
  match spellingLetter? c with
  | some letter => ['\\', letter]
  | none =>
    -- the number in base sixteen, with no leading zero
    if isHidden c then ['\\', 'u', '\x7b'] ++ Nat.toDigits 16 c.toNat ++ ['\x7d'] else [c]

theorem spell_eq_self {c : Char} (letter : spellingLetter? c = none) (seen : isHidden c = false) :
    spell c = [c] := by
  simp [spell, letter, seen]

/-- A text in quotes. -/
def quoted (text : String) : String :=
  String.ofList ('"' :: text.toList.flatMap spell ++ ['"'])

end Text

end Steward
