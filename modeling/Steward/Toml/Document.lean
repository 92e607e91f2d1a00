/-
Flat TOML documents: lines that give a key an integer, a truth value or a list
of texts.

`document?` reads the entries of a text in the order in which they stand; it
does not look at what the keys are.  As with tokens, one pass over them in the
`Place` reached so far is enough.
-/
import Steward.Toml.Token

namespace Steward.Toml

/-- What a key is given. -/
inductive Value where
  | integer (value : Int)
  | boolean (value : Bool)
  | texts (values : List String)
  deriving DecidableEq, Repr

/-- A line of a document. -/
abbrev Entry := String × Value

/-- Reads the digits that follow the first one; an underscore may stand between
two digits. -/
def digitsFrom (base : Nat) (value : Nat) : List Char → Option Nat
  | [] => some value
  | '_' :: c :: cs =>
    match digit? base c with
    | some d => digitsFrom base (base * value + d) cs
    | none => none
  | c :: cs =>
    match digit? base c with
    | some d => digitsFrom base (base * value + d) cs
    | none => none

/-- Reads one digit or more. -/
def digits? (base : Nat) : List Char → Option Nat
  | [] => none
  | c :: cs => (digit? base c).bind fun d => digitsFrom base d cs

/-- Reads a decimal number: no zero before other digits. -/
def decimal? : List Char → Option Nat
  | '0' :: _ :: _ => none
  | cs => digits? 10 cs

/-- Reads an integer.  A sign goes with decimal digits only. -/
def integer? : List Char → Option Int
  | '+' :: cs => (decimal? cs).map Int.ofNat
  | '-' :: cs => (decimal? cs).map fun n => -(Int.ofNat n)
  | '0' :: 'x' :: cs => (digits? 16 cs).map Int.ofNat
  | '0' :: 'o' :: cs => (digits? 8 cs).map Int.ofNat
  | '0' :: 'b' :: cs => (digits? 2 cs).map Int.ofNat
  | cs => (decimal? cs).map Int.ofNat

/-- The greatest integer of a document. -/
def maxInteger : Nat := 9223372036854775807

/-- The least integer of a document. -/
def minInteger : Int := -9223372036854775808

/-- The value a word stands for. -/
def wordValue? (cs : List Char) : Option Value :=
  if cs = "true".toList then some (.boolean true)
  else if cs = "false".toList then some (.boolean false)
  else match integer? cs with
    | some n => if minInteger ≤ n ∧ n ≤ maxInteger then some (.integer n) else none
    | none => none

/-- Where in a document the next token stands. -/
inductive Place where
  /-- At the start of a line. -/
  | line
  /-- After a key. -/
  | key (key : String)
  /-- After the equals sign. -/
  | value (key : String)
  /-- In a list, where an item or the end may stand; `taken` is in reading order. -/
  | item (key : String) (taken : List String)
  /-- In a list, after an item. -/
  | comma (key : String) (taken : List String)
  /-- After a value. -/
  | done

/-- Reads the entries that the tokens to come make. -/
def entries? : Place → List Token → Option (List Entry)
  | .line, [] | .done, [] => some []
  | .line, .newline :: ts => entries? .line ts
  | .line, .word cs :: ts => entries? (.key (String.ofList cs)) ts
  | .line, .text k :: ts => entries? (.key k) ts
  | .key k, .equals :: ts => entries? (.value k) ts
  | .value k, .word cs :: ts =>
    match wordValue? cs with
    | some v => (entries? .done ts).map ((k, v) :: ·)
    | none => none
  | .value k, .opening :: ts => entries? (.item k []) ts
  | .item k taken, .newline :: ts => entries? (.item k taken) ts
  | .item k taken, .closing :: ts => (entries? .done ts).map ((k, .texts taken) :: ·)
  | .item k taken, .text s :: ts => entries? (.comma k (taken ++ [s])) ts
  | .item k taken, .block s :: ts => entries? (.comma k (taken ++ [s])) ts
  | .comma k taken, .newline :: ts => entries? (.comma k taken) ts
  | .comma k taken, .comma :: ts => entries? (.item k taken) ts
  | .comma k taken, .closing :: ts => (entries? .done ts).map ((k, .texts taken) :: ·)
  | .done, .newline :: ts => entries? .line ts
  | _, _ => none

/-- The entries of a flat document. -/
def document? (text : String) : Option (List Entry) :=
  (tokens? text).bind (entries? .line)

/-! ### Writing -/

/-- The `n`-th hexadecimal digit, in lower case. -/
def hexDigit (n : Nat) : Char :=
  Nat.digitChar (n % 16)

/-- A character as it stands between double quotes: quotes and backslashes after
a backslash, control characters by their code. -/
def quoteChar (c : Char) : List Char :=
  if c = '"' then ['\\', '"']
  else if c = '\\' then ['\\', '\\']
  else if c.toNat < 0x20 ∨ c.toNat = 0x7F then
    ['\\', 'u', '0', '0', hexDigit (c.toNat / 16), hexDigit c.toNat]
  else [c]

/-- A text in double quotes. -/
def quote (s : String) : String :=
  String.ofList ('"' :: s.toList.flatMap quoteChar ++ ['"'])

/-- A list of texts: up to one on the line, more of them each on a line of its own. -/
def writeTexts : List String → String
  | [] => "[]"
  | [s] => "[" ++ quote s ++ "]"
  | ss => "[\n" ++ String.join (ss.map fun s => "    " ++ quote s ++ ",\n") ++ "]"

/-- A value as it is written. -/
def Value.write : Value → String
  | .integer n => toString n
  | .boolean b => if b then "true" else "false"
  | .texts ss => writeTexts ss

/-- A document as it is written, a line for each entry. -/
def writeDocument (entries : List Entry) : String :=
  String.join (entries.map fun (k, v) => k ++ " = " ++ v.write ++ "\n")

end Steward.Toml
