/-
Written documents: what the writer writes, the reader reads.

The reader works in two passes, characters to tokens and tokens to entries.  So the tokens that an
entry is written with are said first (`Entry.tokens`), and each pass is compared with them.

* **`Spells`** — whether characters are read as some tokens, in front of others;
* **`spells_quote`** — a quoted text is read as that text, whatever characters it has and whatever
  comes after it, but a third quote;
* **`spells_value`** — a value is read as its tokens at the end of a line;
* **`document?_writeDocument`** — a document that is written is read as the entries it was made of,
  if their keys are words and their integers in range.

Design notes: `lex` tells many forms of quotes apart, so its general equations are long.  What it
does with one character that is known comes of computing that step alone (`delta lex`).
-/
import Steward.Toml.Document

namespace Steward.Toml

/-! ### Digits -/

theorem digit?_of_isDigit {c : Char} (h : c.isDigit = true) :
    digit? 10 c = some (c.toNat - '0'.toNat) := by
  obtain ⟨-, hle⟩ := Char.isDigit_iff_toNat.mp h
  have hlt : c.toNat - '0'.toNat < 10 := by
    change c.toNat ≤ 57 at hle
    change c.toNat - 48 < 10
    omega
  rw [digit?, if_pos h]
  exact Option.filter_some_pos (decide_eq_true hlt)

theorem digitsFrom_of_isDigit {cs : List Char} (h : ∀ c ∈ cs, c.isDigit = true) (value : Nat) :
    digitsFrom 10 value cs = some (Nat.ofDigitChars 10 cs value) := by
  induction cs generalizing value with
  | nil => rw [digitsFrom, Nat.ofDigitChars_nil]
  | cons c cs ih =>
    have hc := h c List.mem_cons_self
    have hne : c ≠ '_' := fun he => by simp [he] at hc
    rw [digitsFrom, digit?_of_isDigit hc, Nat.ofDigitChars_cons]
    · exact ih (fun d hd => h d (List.mem_cons_of_mem _ hd)) _
    · exact fun _ _ he => absurd he hne

/-- A number is not written with a zero in front. -/
theorem head?_toDigits {n : Nat} (h : 0 < n) : (Nat.toDigits 10 n).head? ≠ some '0' := by
  induction n using Nat.strongRecOn with
  | ind n ih =>
    by_cases hn : n < 10
    · rw [Nat.toDigits_of_lt_base hn]
      simpa using Nat.ne_of_gt h
    · rw [Nat.toDigits_of_base_le (by omega) (by omega),
        List.head?_append, Option.or_of_isSome (by simp [Nat.toDigits_ne_nil])]
      exact ih (n / 10) (by omega) (by omega)

theorem decimal?_toDigits (n : Nat) : decimal? (Nat.toDigits 10 n) = some n := by
  have hdigits : ∀ c ∈ Nat.toDigits 10 n, c.isDigit = true := fun c hc =>
    Nat.isDigit_of_mem_toDigits (by decide) (by decide) hc
  have hvalue := Nat.ofDigitChars_ten_toDigits (n := n)
  rcases Nat.eq_zero_or_pos n with rfl | hpos
  · rfl
  cases hcs : Nat.toDigits 10 n with
  | nil => exact absurd hcs Nat.toDigits_ne_nil
  | cons c cs =>
    have hhead := head?_toDigits hpos
    rw [hcs] at hdigits hvalue hhead
    rw [decimal?, digits?, digit?_of_isDigit (hdigits c List.mem_cons_self), Option.bind_some,
      digitsFrom_of_isDigit fun d hd => hdigits d (List.mem_cons_of_mem _ hd)]
    · rw [Nat.ofDigitChars_cons, Nat.mul_zero, Nat.zero_add] at hvalue
      rw [hvalue]
    · intro d ds hzero
      cases hzero
      exact hhead rfl

/-- Digits alone are a decimal number without a sign. -/
theorem integer?_of_isDigit {cs : List Char} (h : ∀ c ∈ cs, c.isDigit = true) :
    integer? cs = (decimal? cs).map Int.ofNat := by
  rw [integer?.eq_def]
  split
  case h_6 => rfl
  all_goals
    -- a sign or the letter of a base is no digit
    simp at h

theorem integer?_toString (n : Int) : integer? (toString n).toList = some n := by
  rw [Int.toString_eq_repr, Int.repr_eq_if]
  split
  · rename_i hn
    rw [Nat.toList_repr, integer?_of_isDigit, decimal?_toDigits]
    · exact congrArg some (Int.toNat_of_nonneg hn)
    · exact fun c hc => Nat.isDigit_of_mem_toDigits (by decide) (by decide) hc
  · rename_i hn
    rw [String.toList_append, Nat.toList_repr]
    change (decimal? (Nat.toDigits 10 (-n).toNat)).map (fun n => -(Int.ofNat n)) = some n
    rw [decimal?_toDigits, Option.map_some]
    exact congrArg some (by simp only [Int.ofNat_eq_natCast]; omega)

/-- What an integer is written with. -/
theorem sign_or_digit_of_mem {n : Int} {c : Char} (h : c ∈ (toString n).toList) :
    c = '-' ∨ c.isDigit = true := by
  rw [Int.toString_eq_repr, Int.repr_eq_if] at h
  split at h
  · rw [Nat.toList_repr] at h
    exact .inr (Nat.isDigit_of_mem_toDigits (by decide) (by decide) h)
  · rw [String.toList_append, Nat.toList_repr] at h
    rcases List.mem_append.mp h with h | h
    · exact .inl (List.mem_singleton.mp h)
    · exact .inr (Nat.isDigit_of_mem_toDigits (by decide) (by decide) h)

theorem wordValue?_toString {n : Int} (hmin : minInteger ≤ n) (hmax : n ≤ maxInteger) :
    wordValue? (toString n).toList = some (.integer n) := by
  have hne : ∀ w : List Char, 'e' ∈ w → (toString n).toList ≠ w := by
    rintro w hw rfl
    rcases sign_or_digit_of_mem hw with h | h <;> simp at h
  rw [wordValue?, if_neg (hne _ (by decide)), if_neg (hne _ (by decide)), integer?_toString]
  exact if_pos ⟨hmin, hmax⟩

theorem wordValue?_boolean (b : Bool) :
    wordValue? (if b then "true" else "false").toList = some (.boolean b) := by
  cases b <;> rfl

/-! ### Characters to tokens -/

/-- Whether characters are read as some tokens, between tokens and in front of `rest`. -/
def Spells (cs : List Char) (ts : List Token) (rest : List Char) : Prop :=
  lex .between (cs ++ rest) = (lex .between rest).map (ts ++ ·)

theorem spells_nil (rest : List Char) : Spells [] [] rest := by
  simp [Spells]

theorem Spells.append {cs cs' rest : List Char} {ts ts' : List Token}
    (h : Spells cs ts (cs' ++ rest)) (h' : Spells cs' ts' rest) :
    Spells (cs ++ cs') (ts ++ ts') rest := by
  rw [Spells] at h h' ⊢
  rw [List.append_assoc, h, h', Option.map_map]
  simp [Function.comp_def]

theorem spells_blank (rest : List Char) : Spells [' '] [] rest := by
  refine Eq.trans ?_ Option.map_id'.symm
  delta lex
  rfl

/-- The characters that are tokens by themselves. -/
def marks : List (Char × Token) :=
  [('\n', .newline), ('=', .equals), (',', .comma), ('[', .opening), (']', .closing)]

theorem spells_mark (c : Char) (t : Token) (rest : List Char)
    (h : (c, t) ∈ marks := by simp [marks]) : Spells [c] [t] rest := by
  simp only [marks, List.mem_cons, Prod.mk.injEq, List.not_mem_nil, or_false] at h
  delta Spells lex
  rcases h with ⟨rfl, rfl⟩ | ⟨rfl, rfl⟩ | ⟨rfl, rfl⟩ | ⟨rfl, rfl⟩ | ⟨rfl, rfl⟩ <;> rfl

/-- A word begins. -/
theorem lex_word_start {c : Char} (hc : isWordChar c = true) (rest : List Char) :
    lex .between (c :: rest) =
      if goesOn rest then lex (.word [c]) rest
      else (lex .between rest).map (.word [c] :: ·) := by
  have hne : ∀ d, isWordChar d = false → c ≠ d := fun d hd he => by simp [he, hd] at hc
  have hblank : ¬ isBlank c = true := by simp [isBlank, hne ' ' rfl, hne '\t' rfl]
  -- a character of a word is none of those that mean something else between tokens
  delta lex
  change (if isBlank c then _ else if c = '\n' then _ else if c = '\r' then _ else
    if c = '#' then _ else if c = '=' then _ else if c = ',' then _ else if c = '[' then _ else
    if c = ']' then _ else if c = '"' then _ else if c = '\'' then _ else
    if isWordChar c then _ else _) = _
  rw [if_neg hblank, if_neg (hne _ rfl), if_neg (hne _ rfl), if_neg (hne _ rfl), if_neg (hne _ rfl),
    if_neg (hne _ rfl), if_neg (hne _ rfl), if_neg (hne _ rfl), if_neg (hne _ rfl),
    if_neg (hne _ rfl), if_pos hc]

/-- A character of a word is taken over. -/
theorem lex_word_char (c : Char) (taken rest : List Char) :
    lex (.word taken) (c :: rest) =
      if goesOn rest then lex (.word (c :: taken)) rest
      else (lex .between rest).map (.word (c :: taken).reverse :: ·) :=
  rfl

/-- A word that has begun goes on to its end. -/
theorem lex_word {taken cs rest : List Char} {c : Char} (hcs : ∀ d ∈ cs, isWordChar d = true)
    (hrest : goesOn rest = false) :
    lex (.word taken) (c :: cs ++ rest) =
      (lex .between rest).map (.word (taken.reverse ++ c :: cs) :: ·) := by
  induction cs generalizing taken c with
  | nil =>
    change lex (.word taken) (c :: rest) = _
    rw [lex_word_char, hrest, List.reverse_cons]
    rfl
  | cons d ds ih =>
    have hgo : goesOn (d :: ds ++ rest) = true := hcs d List.mem_cons_self
    rw [List.cons_append, lex_word_char, if_pos hgo,
      ih fun e he => hcs e (List.mem_cons_of_mem _ he)]
    simp

theorem spells_word {cs rest : List Char} (hne : cs ≠ []) (hcs : ∀ c ∈ cs, isWordChar c = true)
    (hrest : goesOn rest = false) : Spells cs [.word cs] rest := by
  cases cs with
  | nil => exact absurd rfl hne
  | cons c cs =>
    rw [Spells, List.cons_append, lex_word_start (hcs c List.mem_cons_self)]
    cases cs with
    | nil =>
      rw [List.nil_append, hrest]
      rfl
    | cons d ds =>
      have hgo : goesOn (d :: ds ++ rest) = true :=
        hcs d (List.mem_cons_of_mem _ List.mem_cons_self)
      rw [if_pos hgo, lex_word (fun e he => hcs e (by simp [he])) hrest]
      rfl

/-! ### Quoted texts -/

theorem digit?_hexDigit (n : Nat) : digit? 16 (hexDigit n) = some (n % 16) := by
  have hall : ∀ k < 16, digit? 16 (Nat.digitChar k) = some k := by decide
  exact hall (n % 16) (Nat.mod_lt _ (by decide))

/-- A character of a text on one line, between its quotes. -/
theorem lex_basic_char (c : Char) (taken rest : List Char) :
    lex (.basic .line taken) (c :: rest) =
      if c = '"' then (lex .between rest).map (finish .line taken :: ·)
      else if c = '\\' then lex (.escape .line taken) rest
      else if isPlain c then lex (.basic .line (c :: taken)) rest
      else none :=
  rfl

/-- A digit of a code that is not its last. -/
theorem lex_code_char {c : Char} {d : Nat} (h : digit? 16 c = some d) (left value : Nat)
    (taken rest : List Char) :
    lex (.code .line (left + 2) value taken) (c :: rest) =
      lex (.code .line (left + 1) (16 * value + d) taken) rest := by
  delta lex
  conv => lhs; whnf
  rw [h]
  rfl

/-- The last digit of a code, and the character that it stands for. -/
theorem lex_code_last {c e : Char} {value d : Nat} (h : digit? 16 c = some d)
    (he : scalar? (16 * value + d) = some e) (taken rest : List Char) :
    lex (.code .line 1 value taken) (c :: rest) = lex (.basic .line (e :: taken)) rest := by
  delta lex
  conv => lhs; whnf
  rw [h]
  dsimp only
  rw [if_pos (Nat.le_refl 1), he]

/-- One character is taken over as it was before it was written. -/
theorem lex_quoteChar (c : Char) (taken rest : List Char) :
    lex (.basic .line taken) (quoteChar c ++ rest) = lex (.basic .line (c :: taken)) rest := by
  rw [quoteChar]
  split
  · rename_i hc
    subst hc
    rfl
  split
  · rename_i hc
    subst hc
    rfl
  split
  · -- a control character: the first two digits of its code are zeros
    have hvalue : 16 * (16 * (16 * (16 * 0 + 0) + 0) + c.toNat / 16 % 16) + c.toNat % 16 =
        c.toNat := by omega
    have hscalar : scalar? c.toNat = some c := by
      rw [scalar?, if_pos (Or.inl (by omega)), Char.ofNat_toNat]
    have hzero : digit? 16 '0' = some 0 := rfl
    change lex (.code .line 4 0 taken)
      ('0' :: '0' :: hexDigit (c.toNat / 16) :: hexDigit c.toNat :: rest) = _
    rw [lex_code_char hzero, lex_code_char hzero, lex_code_char (digit?_hexDigit _),
      lex_code_last (digit?_hexDigit _) (hvalue ▸ hscalar)]
  · rename_i hquote hslash hcontrol
    have hplain : isPlain c = true := by
      simp [isPlain]
      omega
    rw [List.singleton_append, lex_basic_char, if_neg hquote, if_neg hslash, if_pos hplain]

/-- A text is taken over up to the quote that ends it. -/
theorem lex_quoted (cs taken rest : List Char) :
    lex (.basic .line taken) (cs.flatMap quoteChar ++ '"' :: rest) =
      (lex .between rest).map (.text (String.ofList (taken.reverse ++ cs)) :: ·) := by
  induction cs generalizing taken with
  | nil =>
    rw [List.flatMap_nil, List.nil_append, lex_basic_char, if_pos rfl, List.append_nil]
    rfl
  | cons c cs ih =>
    rw [List.flatMap_cons, List.append_assoc, lex_quoteChar, ih, List.reverse_cons,
      List.append_assoc, List.singleton_append]

/-- A quote that is not one of three begins a text on its line. -/
theorem lex_quote_start {cs : List Char} (h : ∀ rest, cs ≠ '"' :: '"' :: rest) :
    lex .between ('"' :: cs) = lex (.basic .line []) cs := by
  delta lex
  conv => lhs; whnf
  -- three quotes begin a block, in three ways; `h` rules them out
  split
  case h_4 => rfl
  all_goals exact absurd rfl (h _)

theorem spells_quote (s : String) {rest : List Char} (hrest : rest.head? ≠ some '"') :
    Spells (quote s).toList [.text s] rest := by
  have hstart : ∀ rest', s.toList.flatMap quoteChar ++ '"' :: rest ≠ '"' :: '"' :: rest' := by
    intro rest' he
    cases hcs : s.toList with
    | nil =>
      rw [hcs, List.flatMap_nil, List.nil_append, List.cons.injEq] at he
      exact hrest (he.2 ▸ rfl)
    | cons c cs =>
      -- no character is written with a quote in front
      rw [hcs, List.flatMap_cons, List.append_assoc, quoteChar] at he
      split at he
      · cases he
      split at he
      · cases he
      split at he
      · cases he
      · rename_i hc _ _
        exact hc (List.cons.inj he).1
  rw [Spells, quote, String.toList_ofList, List.append_assoc, List.cons_append,
    List.singleton_append, lex_quote_start hstart, lex_quoted, List.reverse_nil, List.nil_append,
    String.ofList_toList]
  rfl

/-! ### Values and entries -/

/-- The tokens of an item of a list that has its line for itself. -/
def itemTokens (s : String) : List Token :=
  [.text s, .comma, .newline]

/-- The tokens that a value is written with. -/
def Value.tokens : Value → List Token
  | .integer n => [.word (toString n).toList]
  | .boolean b => [.word (if b then "true" else "false").toList]
  | .texts [] => [.opening, .closing]
  | .texts [s] => [.opening, .text s, .closing]
  | .texts ss => [.opening, .newline] ++ ss.flatMap itemTokens ++ [.closing]

/-- The tokens that an entry is written with. -/
def Entry.tokens (e : Entry) : List Token :=
  [.word e.1.toList, .equals] ++ e.2.tokens ++ [.newline]

/-- Whether the key of an entry is a word and its value one that can be read. -/
structure Entry.Writable (e : Entry) : Prop where
  key : e.1.toList ≠ []
  word : ∀ c ∈ e.1.toList, isWordChar c = true
  integer : ∀ n, e.2 = .integer n → minInteger ≤ n ∧ n ≤ maxInteger

theorem spells_items (ss : List String) (rest : List Char) :
    Spells (String.join (ss.map fun s => "    " ++ quote s ++ ",\n")).toList
      (ss.flatMap itemTokens) rest := by
  induction ss with
  | nil => exact spells_nil rest
  | cons s ss ih =>
    rw [List.map_cons, String.join_cons, String.toList_append, List.flatMap_cons]
    refine Spells.append ?_ ih
    rw [String.toList_append, String.toList_append]
    have hindent : ∀ rest, Spells "    ".toList [] rest := fun rest =>
      (spells_blank _).append <| (spells_blank _).append <|
        (spells_blank _).append (spells_blank rest)
    have hend : ∀ rest, Spells ",\n".toList [.comma, .newline] rest := fun rest =>
      (spells_mark ',' .comma _).append (spells_mark '\n' .newline rest)
    exact ((hindent _).append (spells_quote s (by simp))).append (hend _)

theorem spells_texts (ss : List String) (rest : List Char) :
    Spells (writeTexts ss).toList (Value.texts ss).tokens rest := by
  rcases ss with _ | ⟨s, _ | ⟨s', ss⟩⟩
  · exact (spells_mark '[' .opening _).append (spells_mark ']' .closing rest)
  · rw [writeTexts, String.toList_append, String.toList_append]
    exact ((spells_mark '[' .opening _).append (spells_quote s (by simp))).append
      (spells_mark ']' .closing rest)
  · have hstart : ∀ rest, Spells "[\n".toList [.opening, .newline] rest := fun rest =>
      (spells_mark '[' .opening _).append (spells_mark '\n' .newline rest)
    change Spells ("[\n" ++ String.join _ ++ "]").toList _ rest
    rw [String.toList_append, String.toList_append]
    exact ((hstart _).append (spells_items _ _)).append (spells_mark ']' .closing rest)

/-- **A value is read as its tokens** at the end of a line. -/
theorem spells_value (v : Value) (rest : List Char) :
    Spells v.write.toList v.tokens ('\n' :: rest) := by
  have hrest : goesOn ('\n' :: rest) = false := rfl
  cases v with
  | integer n =>
    refine spells_word (fun he => ?_) (fun c hc => ?_) hrest
    · have hread := integer?_toString n
      rw [show (toString n).toList = [] from he] at hread
      cases hread
    · rcases sign_or_digit_of_mem hc with rfl | hc
      · rfl
      · simp [isWordChar, Char.isAlphanum, hc]
  | boolean b =>
    have hword : ∀ b : Bool, (if b then "true" else "false").toList ≠ [] ∧
        (if b then "true" else "false").toList.all isWordChar = true := by decide
    exact spells_word (hword b).1 (List.all_eq_true.mp (hword b).2) hrest
  | texts ss => exact spells_texts ss _

theorem spells_entry {e : Entry} (h : e.Writable) (rest : List Char) :
    Spells (e.1 ++ " = " ++ e.2.write ++ "\n").toList e.tokens rest := by
  rw [String.toList_append, String.toList_append, String.toList_append]
  have hequals : ∀ rest, Spells " = ".toList [.equals] rest := fun rest =>
    (spells_blank _).append ((spells_mark '=' .equals _).append (spells_blank rest))
  exact (((spells_word h.key h.word rfl).append (hequals _)).append (spells_value e.2 rest)).append
    (spells_mark '\n' .newline rest)

theorem lex_writeDocument {entries : List Entry} (h : ∀ e ∈ entries, e.Writable) :
    lex .between (writeDocument entries).toList = some (entries.flatMap Entry.tokens) := by
  induction entries with
  | nil => rfl
  | cons e entries ih =>
    rw [writeDocument, List.map_cons, String.join_cons, String.toList_append, List.flatMap_cons]
    have he := spells_entry (h e List.mem_cons_self) (writeDocument entries).toList
    rw [Spells, ih fun e' he' => h e' (List.mem_cons_of_mem _ he')] at he
    exact he

/-! ### Tokens to entries -/

theorem entries?_items (k : String) (taken ss : List String) (ts : List Token) :
    entries? (.item k taken) (ss.flatMap itemTokens ++ .closing :: ts) =
      (entries? .done ts).map ((k, .texts (taken ++ ss)) :: ·) := by
  induction ss generalizing taken with
  | nil => rw [List.flatMap_nil, List.nil_append, entries?, List.append_nil]
  | cons s ss ih =>
    rw [List.flatMap_cons, List.append_assoc]
    change entries? (.item k (taken ++ [s])) (ss.flatMap itemTokens ++ .closing :: ts) = _
    rw [ih, List.append_assoc, List.singleton_append]

theorem entries?_value {k : String} {v : Value}
    (h : ∀ n, v = .integer n → minInteger ≤ n ∧ n ≤ maxInteger) (ts : List Token) :
    entries? (.value k) (v.tokens ++ ts) = (entries? .done ts).map ((k, v) :: ·) := by
  cases v with
  | integer n =>
    obtain ⟨hmin, hmax⟩ := h n rfl
    rw [Value.tokens, List.singleton_append, entries?, wordValue?_toString hmin hmax]
  | boolean b => rw [Value.tokens, List.singleton_append, entries?, wordValue?_boolean]
  | texts ss =>
    rcases ss with _ | ⟨s, _ | ⟨s', ss⟩⟩
    · rfl
    · rfl
    · change entries? (.item k []) ((s :: s' :: ss).flatMap itemTokens ++ [.closing] ++ ts) = _
      rw [List.append_assoc]
      exact entries?_items k [] (s :: s' :: ss) ts

theorem entries?_entry {e : Entry} (h : e.Writable) (ts : List Token) :
    entries? .line (e.tokens ++ ts) = (entries? .line ts).map (e :: ·) := by
  rw [Entry.tokens, List.append_assoc, List.append_assoc]
  change entries? (.value (String.ofList e.1.toList)) (e.2.tokens ++ ([.newline] ++ ts)) = _
  rw [String.ofList_toList, entries?_value h.integer]
  rfl

theorem entries?_tokens {entries : List Entry} (h : ∀ e ∈ entries, e.Writable) :
    entries? .line (entries.flatMap Entry.tokens) = some entries := by
  induction entries with
  | nil => rfl
  | cons e entries ih =>
    rw [List.flatMap_cons, entries?_entry (h e List.mem_cons_self),
      ih fun e' he' => h e' (List.mem_cons_of_mem _ he'), Option.map_some]

/-- **A document that is written is read as its entries.** -/
theorem document?_writeDocument {entries : List Entry} (h : ∀ e ∈ entries, e.Writable) :
    document? (writeDocument entries) = some entries := by
  have hlex := lex_writeDocument h
  have htokens : tokens? (writeDocument entries) = some (entries.flatMap Entry.tokens) := by
    rw [tokens?]
    split
    · -- no word begins with a byte order mark
      rename_i rest hmark
      have hnone : lex .between ('\uFEFF' :: rest) = none := by
        delta lex
        rfl
      rw [hmark, hnone] at hlex
      cases hlex
    · exact hlex
  rw [document?, htokens, Option.bind_some, entries?_tokens h]

end Steward.Toml
