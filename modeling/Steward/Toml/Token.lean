/-
TOML tokens: the words, texts and marks a configuration text consists of.

`tokens?` reads a whole text in one pass, character by character, in the `Mode`
that what came before has left it in.  Tokens are all that matters for flat
documents: blanks and comments stand between tokens and are dropped, and an end
of line is a token of its own.  A text with a character that stands nowhere in a
flat document (a dot, a brace, a control character outside a text) has no
tokens at all.
-/

namespace Steward.Toml

/-- A piece of a flat document. -/
inductive Token where
  | newline
  | equals
  | comma
  | opening
  | closing
  /-- A bare key, a number or a truth value. -/
  | word (chars : List Char)
  /-- A text in single or double quotes, on one line. -/
  | text (value : String)
  /-- A text in triple quotes, over any number of lines. -/
  | block (value : String)
  deriving DecidableEq, Repr

/-- Whether a quoted text stays on its line. -/
inductive Span where
  | line
  | block
  deriving DecidableEq, Repr

/-- What the reader is in the middle of; `taken` is what it has read of it, the
last character first. -/
inductive Mode where
  | between
  | comment
  | word (taken : List Char)
  /-- In double quotes. -/
  | basic (span : Span) (taken : List Char)
  /-- In single quotes. -/
  | literal (span : Span) (taken : List Char)
  /-- After a backslash. -/
  | escape (span : Span) (taken : List Char)
  /-- In a numeric escape, `left` digits before its end. -/
  | code (span : Span) (left value : Nat) (taken : List Char)
  /-- After a backslash that ends a line, up to the end of that line. -/
  | fold (taken : List Char)
  /-- In the blanks and line ends that such a backslash removes. -/
  | trim (taken : List Char)

/-- The characters of bare keys, numbers and truth values. -/
def isWordChar (c : Char) : Bool :=
  c.isAlphanum || c == '_' || c == '-' || c == '+'

/-- The characters that may stand as they are in a comment or a text, quotes and
backslashes being looked at apart: a tab, and all but the control characters. -/
def isPlain (c : Char) : Bool :=
  c == '\t' || (0x20 ≤ c.toNat && c.toNat != 0x7F)

def isBlank (c : Char) : Bool :=
  c == ' ' || c == '\t'

/-- Whether the next character goes on with a word. -/
def goesOn : List Char → Bool
  | c :: _ => isWordChar c
  | [] => false

/-- Whether a blank or a line end comes next. -/
def startsBlank : List Char → Bool
  | '\r' :: '\n' :: _ => true
  | c :: _ => isBlank c || c == '\n'
  | [] => false

/-- The character of a one-letter escape. -/
def shortEscape? : Char → Option Char
  | 'b' => some '\x08'
  | 't' => some '\t'
  | 'n' => some '\n'
  | 'f' => some '\x0c'
  | 'r' => some '\r'
  | '"' => some '"'
  | '\\' => some '\\'
  | _ => none

/-- The value of a digit in a base of at most sixteen, either case. -/
def digit? (base : Nat) (c : Char) : Option Nat :=
  let value :=
    if c.isDigit then some (c.toNat - '0'.toNat)
    else if 'a' ≤ c ∧ c ≤ 'f' then some (c.toNat - 'a'.toNat + 10)
    else if 'A' ≤ c ∧ c ≤ 'F' then some (c.toNat - 'A'.toNat + 10)
    else none
  value.filter (· < base)

/-- The character with a given code point; surrogates are none. -/
def scalar? (value : Nat) : Option Char :=
  if value.isValidChar then some (Char.ofNat value) else none

/-- The mode in which the content of a text goes on after a removed line end. -/
def afterTrim (taken rest : List Char) : Mode :=
  if startsBlank rest then .trim taken else .basic .block taken

/-- The token of a finished text. -/
def finish (span : Span) (taken : List Char) : Token :=
  match span with
  | .line => .text (String.ofList taken.reverse)
  | .block => .block (String.ofList taken.reverse)

/-- Reads the tokens of the characters to come. -/
def lex : Mode → List Char → Option (List Token)
  | .between, [] | .comment, [] => some []
  | _, [] => none
  | .between, c :: rest =>
    if isBlank c then lex .between rest
    else if c = '\n' then (lex .between rest).map (.newline :: ·)
    else if c = '\r' then
      match rest with
      | '\n' :: rest => (lex .between rest).map (.newline :: ·)
      | _ => none
    else if c = '#' then lex .comment rest
    else if c = '=' then (lex .between rest).map (.equals :: ·)
    else if c = ',' then (lex .between rest).map (.comma :: ·)
    else if c = '[' then (lex .between rest).map (.opening :: ·)
    else if c = ']' then (lex .between rest).map (.closing :: ·)
    else if c = '"' then
      -- a line end right after the opening quotes is not part of the text
      match rest with
      | '"' :: '"' :: '\n' :: rest => lex (.basic .block []) rest
      | '"' :: '"' :: '\r' :: '\n' :: rest => lex (.basic .block []) rest
      | '"' :: '"' :: rest => lex (.basic .block []) rest
      | rest => lex (.basic .line []) rest
    else if c = '\'' then
      match rest with
      | '\'' :: '\'' :: '\n' :: rest => lex (.literal .block []) rest
      | '\'' :: '\'' :: '\r' :: '\n' :: rest => lex (.literal .block []) rest
      | '\'' :: '\'' :: rest => lex (.literal .block []) rest
      | rest => lex (.literal .line []) rest
    else if isWordChar c then
      if goesOn rest then lex (.word [c]) rest
      else (lex .between rest).map (.word [c] :: ·)
    else none
  | .comment, c :: rest =>
    if c = '\n' then (lex .between rest).map (.newline :: ·)
    else if c = '\r' then
      match rest with
      | '\n' :: rest => (lex .between rest).map (.newline :: ·)
      | _ => none
    else if isPlain c then lex .comment rest
    else none
  | .word taken, c :: rest =>
    if goesOn rest then lex (.word (c :: taken)) rest
    else (lex .between rest).map (.word (c :: taken).reverse :: ·)
  | .basic .line taken, c :: rest =>
    if c = '"' then (lex .between rest).map (finish .line taken :: ·)
    else if c = '\\' then lex (.escape .line taken) rest
    else if isPlain c then lex (.basic .line (c :: taken)) rest
    else none
  | .basic .block taken, c :: rest =>
    if c = '"' then
      -- up to two quotes may stand right before the closing three
      match rest with
      | '"' :: '"' :: '"' :: '"' :: rest =>
        (lex .between rest).map (finish .block ('"' :: '"' :: taken) :: ·)
      | '"' :: '"' :: '"' :: rest => (lex .between rest).map (finish .block ('"' :: taken) :: ·)
      | '"' :: '"' :: rest => (lex .between rest).map (finish .block taken :: ·)
      | rest => lex (.basic .block ('"' :: taken)) rest
    else if c = '\\' then
      if startsBlank rest then lex (.fold taken) rest else lex (.escape .block taken) rest
    else if c = '\n' then lex (.basic .block ('\n' :: taken)) rest
    else if c = '\r' then
      match rest with
      | '\n' :: rest => lex (.basic .block ('\n' :: taken)) rest
      | _ => none
    else if isPlain c then lex (.basic .block (c :: taken)) rest
    else none
  | .literal .line taken, c :: rest =>
    if c = '\'' then (lex .between rest).map (finish .line taken :: ·)
    else if isPlain c then lex (.literal .line (c :: taken)) rest
    else none
  | .literal .block taken, c :: rest =>
    if c = '\'' then
      match rest with
      | '\'' :: '\'' :: '\'' :: '\'' :: rest =>
        (lex .between rest).map (finish .block ('\'' :: '\'' :: taken) :: ·)
      | '\'' :: '\'' :: '\'' :: rest =>
        (lex .between rest).map (finish .block ('\'' :: taken) :: ·)
      | '\'' :: '\'' :: rest => (lex .between rest).map (finish .block taken :: ·)
      | rest => lex (.literal .block ('\'' :: taken)) rest
    else if c = '\n' then lex (.literal .block ('\n' :: taken)) rest
    else if c = '\r' then
      match rest with
      | '\n' :: rest => lex (.literal .block ('\n' :: taken)) rest
      | _ => none
    else if isPlain c then lex (.literal .block (c :: taken)) rest
    else none
  | .escape span taken, c :: rest =>
    if c = 'u' then lex (.code span 4 0 taken) rest
    else if c = 'U' then lex (.code span 8 0 taken) rest
    else match shortEscape? c with
      | some d => lex (.basic span (d :: taken)) rest
      | none => none
  | .code span left value taken, c :: rest =>
    match digit? 16 c with
    | none => none
    | some d =>
      if left ≤ 1 then
        match scalar? (16 * value + d) with
        | some e => lex (.basic span (e :: taken)) rest
        | none => none
      else lex (.code span (left - 1) (16 * value + d) taken) rest
  | .fold taken, c :: rest =>
    if isBlank c then lex (.fold taken) rest
    else if c = '\n' then lex (afterTrim taken rest) rest
    else if c = '\r' then
      match rest with
      | '\n' :: rest => lex (afterTrim taken rest) rest
      | _ => none
    else none
  | .trim taken, c :: rest =>
    if c = '\r' then
      match rest with
      | '\n' :: rest => lex (afterTrim taken rest) rest
      | _ => none
    else lex (afterTrim taken rest) rest

/-- The tokens of a text, which may start with a byte order mark. -/
def tokens? (text : String) : Option (List Token) :=
  match text.toList with
  | '\uFEFF' :: rest => lex .between rest
  | cs => lex .between cs

end Steward.Toml
