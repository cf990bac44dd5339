import Kubenyx.Common.Encoding

/-!
# JSON texts

The JSON grammar as data: a `Value` is a value together with how it is spelled, so the texts
of the values, with white space around them, are the JSON texts. The text is a list of
lexemes, which are tokens and white space.

* `Str.tail_inj`: a string ends where its text says.
* `Document.separated_tokens`: of two neighbouring tokens one is a structural character.
* `tokens_inj`: tokens that are separated can be read back from their texts, without any white
  space between them.
-/

namespace Kubenyx.Common.Json

/-! ## Tokens -/

/-- White space of the grammar. -/
def isWs (c : Char) : Bool := c ∈ [' ', '\t', '\n', '\r']

/-- White space between tokens. -/
structure Ws where
  text : Text
  isWs_text : text.all isWs = true

/-- The six structural characters. -/
inductive Punct where
  | beginObject
  | endObject
  | beginArray
  | endArray
  | nameSeparator
  | valueSeparator
  deriving DecidableEq

def Punct.char : Punct → Char
  | beginObject => '{'
  | endObject => '}'
  | beginArray => '['
  | endArray => ']'
  | nameSeparator => ':'
  | valueSeparator => ','

def isHex (c : Char) : Bool := c.isDigit || ('a' ≤ c && c ≤ 'f') || ('A' ≤ c && c ≤ 'F')

/-- A character that a string can have as it is. -/
def isUnescaped (c : Char) : Bool := c ≠ '"' ∧ c ≠ '\\' ∧ 0x20 ≤ c.toNat

/-- The characters that can follow a backslash, other than the `u` of a code. -/
def ESCAPES : Text := ['"', '\\', '/', 'b', 'f', 'n', 'r', 't']

/-- A part of a string: a character as it is, a character after a backslash, or a code of four
    digits. -/
inductive Piece where
  | plain (c : Char) (h : isUnescaped c = true)
  | escape (c : Char) (h : c ∈ ESCAPES)
  | code (digits : Text) (hlen : digits.length = 4) (hhex : digits.all isHex = true)

def Piece.text : Piece → Text
  | plain c _ => [c]
  | escape c _ => ['\\', c]
  | code digits _ _ => '\\' :: 'u' :: digits

/-- A string. -/
structure Str where
  pieces : List Piece

/-- The text of a string after its opening quote. -/
def Str.tail (pieces : List Piece) : Text := pieces.flatMap Piece.text ++ ['"']

def Str.text (s : Str) : Text := '"' :: tail s.pieces

/-- A run of digits. -/
def IsDigits (t : Text) : Prop := t ≠ [] ∧ ∀ c ∈ t, c.isDigit = true

/-- The grammar of numbers. -/
inductive IsNumber : Text → Prop where
  | mk (minus int frac exp : Text) (hminus : minus ∈ [[], ['-']])
      (hint : int = ['0'] ∨ IsDigits int ∧ int.head? ≠ some '0')
      (hfrac : frac = [] ∨ ∃ ds, frac = '.' :: ds ∧ IsDigits ds)
      (hexp : exp = [] ∨ ∃ e sign ds, exp = e :: (sign ++ ds) ∧ (e = 'e' ∨ e = 'E') ∧
        sign ∈ [[], ['+'], ['-']] ∧ IsDigits ds) :
      IsNumber (minus ++ int ++ frac ++ exp)

/-- A number or one of the three names. -/
structure Word where
  text : Text
  isWord : text ∈ ["true".toList, "false".toList, "null".toList] ∨ IsNumber text

inductive Token where
  | punct (p : Punct)
  | string (s : Str)
  | word (w : Word)

def Token.text : Token → Text
  | punct p => [p.char]
  | string s => s.text
  | word w => w.text

def Token.isPunct : Token → Bool
  | punct _ => true
  | _ => false

inductive Lexeme where
  | space (w : Ws)
  | token (t : Token)

def Lexeme.text : Lexeme → Text
  | space w => w.text
  | token t => t.text

def Lexeme.token? : Lexeme → Option Token
  | space _ => none
  | token t => some t

/-- The text of a list of lexemes. -/
def textOf (l : List Lexeme) : Text := l.flatMap Lexeme.text

/-- The tokens of a list of lexemes. -/
def tokensOf (l : List Lexeme) : List Token := l.filterMap Lexeme.token?

abbrev Lexeme.punct (p : Punct) : Lexeme := .token (.punct p)

/-! ## Values -/

mutual

/-- A value as it is spelled. -/
inductive Value where
  | word (w : Word)
  | string (s : Str)
  | emptyArray (w : Ws)
  | array (e : Elements)
  | emptyObject (w : Ws)
  | object (m : Members)

/-- The elements of an array, with the white space before and after each. -/
inductive Elements where
  | one (before : Ws) (v : Value) (after : Ws)
  | more (before : Ws) (v : Value) (after : Ws) (rest : Elements)

/-- The members of an object, with the white space around each name and value. -/
inductive Members where
  | one (before : Ws) (name : Str) (after : Ws) (before' : Ws) (v : Value) (after' : Ws)
  | more (before : Ws) (name : Str) (after : Ws) (before' : Ws) (v : Value) (after' : Ws)
      (rest : Members)

end

mutual

def Value.lexemes : Value → List Lexeme
  | .word w => [.token (.word w)]
  | .string s => [.token (.string s)]
  | .emptyArray w => [.punct .beginArray, .space w, .punct .endArray]
  | .array e => .punct .beginArray :: (e.lexemes ++ [.punct .endArray])
  | .emptyObject w => [.punct .beginObject, .space w, .punct .endObject]
  | .object m => .punct .beginObject :: (m.lexemes ++ [.punct .endObject])

def Elements.lexemes : Elements → List Lexeme
  | .one before v after => .space before :: (v.lexemes ++ [.space after])
  | .more before v after rest =>
    .space before :: (v.lexemes ++ .space after :: .punct .valueSeparator :: rest.lexemes)

def Members.lexemes : Members → List Lexeme
  | .one before name after before' v after' =>
    .space before :: .token (.string name) :: .space after :: .punct .nameSeparator ::
      .space before' :: (v.lexemes ++ [.space after'])
  | .more before name after before' v after' rest =>
    .space before :: .token (.string name) :: .space after :: .punct .nameSeparator ::
      .space before' :: (v.lexemes ++ .space after' :: .punct .valueSeparator :: rest.lexemes)

end

/-- A JSON text: a value with white space around it. -/
structure Document where
  before : Ws
  value : Value
  after : Ws

def Document.lexemes (d : Document) : List Lexeme :=
  .space d.before :: (d.value.lexemes ++ [.space d.after])

def Document.text (d : Document) : Text := textOf d.lexemes

def Document.tokens (d : Document) : List Token := tokensOf d.lexemes

/-! ## Strings and members -/

def hexValue (c : Char) : ℕ :=
  if c.isDigit then c.toNat - 48 else if c.isLower then c.toNat - 87 else c.toNat - 55

/-- The UTF-16 code units of a character. -/
def utf16 (c : Char) : List ℕ :=
  if c.toNat < 0x10000 then [c.toNat]
  else [0xd800 + (c.toNat - 0x10000) / 0x400, 0xdc00 + (c.toNat - 0x10000) % 0x400]

/-- The character that an escape stands for. -/
def unescape (c : Char) : Char :=
  if c = 'b' then Char.ofNat 8 else if c = 'f' then Char.ofNat 12 else if c = 'n' then '\n'
  else if c = 'r' then '\r' else if c = 't' then '\t' else c

def Piece.units : Piece → List ℕ
  | plain c _ => utf16 c
  | escape c _ => utf16 (unescape c)
  | code digits _ _ => [digits.foldl (fun n c => n * 16 + hexValue c) 0]

/-- The code units of a string, however it is spelled. -/
def Str.units (s : Str) : List ℕ := s.pieces.flatMap Piece.units

/-- A string without escapes. -/
def Str.isPlain (s : Str) : Bool :=
  s.pieces.all fun p => match p with
    | .plain _ _ => true
    | _ => false

def Members.toList : Members → List (Str × Value)
  | .one _ name _ _ v _ => [(name, v)]
  | .more _ name _ _ v _ rest => (name, v) :: rest.toList

/-- The value of the first member with a name. -/
def Value.member (name : Text) : Value → Option Value
  | .object m => (m.toList.find? fun p => p.1.units = name.flatMap utf16).map Prod.snd
  | _ => none

def Value.isObject : Value → Bool
  | .emptyObject _ | .object _ => true
  | _ => false

def Value.text (v : Value) : Text := textOf v.lexemes

/-- A string in a text: the name of a member with its value, or a value. -/
inductive Occurrence where
  | name (s : Str) (v : Value)
  | value (s : Str)

def Occurrence.str : Occurrence → Str
  | name s _ => s
  | value s => s

mutual

/-- The strings in the order of the text. -/
def Value.strings : Value → List Occurrence
  | .word _ => []
  | .string s => [.value s]
  | .emptyArray _ => []
  | .array e => e.strings
  | .emptyObject _ => []
  | .object m => m.strings

def Elements.strings : Elements → List Occurrence
  | .one _ v _ => v.strings
  | .more _ v _ rest => v.strings ++ rest.strings

def Members.strings : Members → List Occurrence
  | .one _ name _ _ v _ => .name name v :: v.strings
  | .more _ name _ _ v _ rest => .name name v :: (v.strings ++ rest.strings)

end

/-! ## Where a token ends -/

/-- A character of a number or a name. -/
def isWordChar (c : Char) : Bool := c.isAlphanum || c ∈ ['+', '-', '.']

theorem IsDigits.isWordChar {t : Text} (h : IsDigits t) : t.all isWordChar = true := by
  refine List.all_eq_true.mpr fun c hc => ?_
  unfold Json.isWordChar Char.isAlphanum
  rw [h.2 c hc, Bool.or_true, Bool.true_or]

theorem IsNumber.isWordChar {t : Text} (h : IsNumber t) : t.all isWordChar = true := by
  have hsign : ∀ m ∈ [[], ['-'], ['+']], m.all Json.isWordChar = true := by decide
  obtain ⟨minus, int, frac, exp, hminus, hint, hfrac, hexp⟩ := h
  simp only [List.all_append, Bool.and_eq_true]
  refine ⟨⟨⟨hsign minus ?_, ?_⟩, ?_⟩, ?_⟩
  · exact List.mem_append_left [['+']] hminus
  · rcases hint with rfl | ⟨hint, -⟩
    · decide
    · exact hint.isWordChar
  · rcases hfrac with rfl | ⟨ds, rfl, hds⟩
    · rfl
    · rw [List.all_cons, hds.isWordChar]
      decide
  · rcases hexp with rfl | ⟨e, sign, ds, rfl, he, hmem, hds⟩
    · rfl
    · have he' : Json.isWordChar e = true := by
        rcases he with rfl | rfl
        · decide
        · decide
      rw [List.all_cons, List.all_append, he', hsign sign (by simp at hmem ⊢; tauto),
        hds.isWordChar]
      rfl

theorem IsNumber.ne_nil {t : Text} (h : IsNumber t) : t ≠ [] := by
  obtain ⟨minus, int, frac, exp, -, hint, -, -⟩ := h
  have hne : int ≠ [] := by
    rcases hint with rfl | ⟨hint, -⟩
    · exact List.cons_ne_nil _ _
    · exact hint.1
  simp [hne]

theorem Word.isWordChar (w : Word) : w.text.all isWordChar = true := by
  rcases w.isWord with h | h
  · have hall : ∀ t ∈ ["true".toList, "false".toList, "null".toList],
        t.all Json.isWordChar = true := by decide
    exact hall w.text h
  · exact h.isWordChar

theorem Word.ne_nil (w : Word) : w.text ≠ [] := by
  rcases w.isWord with h | h
  · have hall : ∀ t ∈ ["true".toList, "false".toList, "null".toList], t ≠ [] := by decide
    exact hall w.text h
  · exact h.ne_nil

theorem Punct.isWordChar_char (p : Punct) : isWordChar p.char = false := by
  cases p <;> decide

theorem Punct.char_ne_quote (p : Punct) : p.char ≠ '"' := by
  cases p <;> decide

theorem Punct.char_injective : Function.Injective Punct.char := by
  intro p q h
  cases p <;> cases q <;> first | rfl | exact absurd h (by decide)

theorem ne_quote_of_isUnescaped {c : Char} (h : isUnescaped c = true) : c ≠ '"' ∧ c ≠ '\\' := by
  simp only [isUnescaped, decide_eq_true_eq] at h
  exact ⟨h.1, h.2.1⟩

theorem ne_quote_of_isHex {c : Char} (h : isHex c = true) : c ≠ '"' ∧ c ≠ '\\' := by
  constructor
  · rintro rfl
    exact absurd h (by decide)
  · rintro rfl
    exact absurd h (by decide)

namespace Piece

/-- No part of a string starts with a quote. -/
theorem text_ne_quote (p : Piece) (r r' : Text) : p.text ++ r ≠ '"' :: r' := by
  intro h
  cases p with
  | plain c hc => exact (ne_quote_of_isUnescaped hc).1 (List.cons.inj h).1
  | escape c hc => exact absurd (List.cons.inj h).1 (by decide)
  | code digits hlen hhex => exact absurd (List.cons.inj h).1 (by decide)

/-- The first part of a string can be told from what follows it. -/
theorem text_inj {p p' : Piece} {r r' : Text} (h : p.text ++ r = p'.text ++ r') :
    p = p' ∧ r = r' := by
  have hu : 'u' ∉ ESCAPES := by decide
  have hplain : ∀ {c : Char} {t t' : Text}, isUnescaped c = true → c :: t ≠ '\\' :: t' :=
    fun hc heq => (ne_quote_of_isUnescaped hc).2 (List.cons.inj heq).1
  cases p with
  | plain c hc =>
    cases p' with
    | plain c' hc' =>
      obtain ⟨rfl, hr⟩ := List.cons.inj h
      exact ⟨rfl, hr⟩
    | escape c' hc' => exact absurd h (hplain hc)
    | code digits' hlen' hhex' => exact absurd h (hplain hc)
  | escape c hc =>
    cases p' with
    | plain c' hc' => exact absurd h.symm (hplain hc')
    | escape c' hc' =>
      obtain ⟨rfl, hr⟩ := List.cons.inj (List.cons.inj h).2
      exact ⟨rfl, hr⟩
    | code digits' hlen' hhex' =>
      obtain ⟨rfl, -⟩ := List.cons.inj (List.cons.inj h).2
      exact absurd hc hu
  | code digits hlen hhex =>
    cases p' with
    | plain c' hc' => exact absurd h.symm (hplain hc')
    | escape c' hc' =>
      obtain ⟨rfl, -⟩ := List.cons.inj (List.cons.inj h).2
      exact absurd hc' hu
    | code digits' hlen' hhex' =>
      obtain ⟨rfl, hr⟩ :=
        List.append_inj (List.cons.inj (List.cons.inj h).2).2 (hlen.trans hlen'.symm)
      exact ⟨rfl, hr⟩

end Piece

namespace Str

theorem tail_nil : tail [] = ['"'] := rfl

theorem tail_cons (p : Piece) (ps : List Piece) : tail (p :: ps) = p.text ++ tail ps := by
  unfold tail
  rw [List.flatMap_cons, List.append_assoc]

/-- A string ends at the first quote that no backslash precedes. -/
theorem tail_inj {ps ps' : List Piece} {r r' : Text} (h : tail ps ++ r = tail ps' ++ r') :
    ps = ps' ∧ r = r' := by
  induction ps generalizing ps' with
  | nil =>
    cases ps' with
    | nil => exact ⟨rfl, (List.cons.inj h).2⟩
    | cons p' ps' =>
      rw [tail_cons, List.append_assoc] at h
      exact absurd h.symm (p'.text_ne_quote _ _)
  | cons p ps ih =>
    rw [tail_cons, List.append_assoc] at h
    cases ps' with
    | nil => exact absurd h (p.text_ne_quote _ _)
    | cons p' ps' =>
      rw [tail_cons, List.append_assoc] at h
      obtain ⟨rfl, htail⟩ := Piece.text_inj h
      obtain ⟨rfl, hr⟩ := ih htail
      exact ⟨rfl, hr⟩

end Str

/-! ## Tokens without white space -/

/-- Of two neighbouring tokens one is a structural character. -/
def Separated (l : List Token) : Prop := l.IsChain fun a b => a.isPunct = true ∨ b.isPunct = true

/-- What can follow a value: nothing, or a structural character first. -/
structure Follows (l : List Token) : Prop where
  separated : Separated l
  head : ∀ t ∈ l.head?, t.isPunct = true

theorem Follows.nil : Follows [] := ⟨List.IsChain.nil, fun _ h => nomatch h⟩

theorem Separated.cons_punct {l : List Token} (h : Separated l) (p : Punct) :
    Follows (.punct p :: l) := by
  refine ⟨List.isChain_cons.mpr ⟨fun _ _ => Or.inl rfl, h⟩, fun t ht => ?_⟩
  obtain rfl := Option.some.inj ht
  rfl

theorem Follows.cons {l : List Token} (h : Follows l) (t : Token) : Separated (t :: l) :=
  List.isChain_cons.mpr ⟨fun u hu => Or.inr (h.head u hu), h.separated⟩

section lexemes

variable (l l' : List Lexeme) (w : Ws) (t : Token)

@[simp] theorem tokensOf_nil : tokensOf [] = [] := rfl

@[simp] theorem tokensOf_space : tokensOf (.space w :: l) = tokensOf l := rfl

@[simp] theorem tokensOf_token : tokensOf (.token t :: l) = t :: tokensOf l := rfl

@[simp] theorem tokensOf_append : tokensOf (l ++ l') = tokensOf l ++ tokensOf l' :=
  List.filterMap_append

@[simp] theorem textOf_nil : textOf [] = [] := rfl

@[simp] theorem textOf_space : textOf (.space w :: l) = w.text ++ textOf l := rfl

@[simp] theorem textOf_token : textOf (.token t :: l) = t.text ++ textOf l := rfl

@[simp] theorem textOf_append : textOf (l ++ l') = textOf l ++ textOf l' := List.flatMap_append

theorem textOf_word (w : Word) : textOf (Value.word w).lexemes = w.text := List.append_nil _

theorem textOf_string (s : Str) : textOf (Value.string s).lexemes = s.text := List.append_nil _

end lexemes

mutual

theorem Value.separated_append (v : Value) {l : List Token} (h : Follows l) :
    Separated (tokensOf v.lexemes ++ l) := by
  cases v with
  | word w => exact h.cons _
  | string s => exact h.cons _
  | emptyArray w => exact ((h.separated.cons_punct _).separated.cons_punct _).separated
  | array e =>
    simp only [Value.lexemes, tokensOf_token, tokensOf_append, tokensOf_nil, List.cons_append,
      List.append_assoc, List.nil_append]
    exact ((e.separated_append (h.separated.cons_punct _)).cons_punct _).separated
  | emptyObject w => exact ((h.separated.cons_punct _).separated.cons_punct _).separated
  | object m =>
    simp only [Value.lexemes, tokensOf_token, tokensOf_append, tokensOf_nil, List.cons_append,
      List.append_assoc, List.nil_append]
    exact ((m.separated_append (h.separated.cons_punct _)).cons_punct _).separated

theorem Elements.separated_append (e : Elements) {l : List Token} (h : Follows l) :
    Separated (tokensOf e.lexemes ++ l) := by
  cases e with
  | one before v after =>
    simp only [Elements.lexemes, tokensOf_space, tokensOf_append, tokensOf_nil, List.append_nil]
    exact v.separated_append h
  | more before v after rest =>
    simp only [Elements.lexemes, tokensOf_space, tokensOf_token, tokensOf_append,
      List.append_assoc, List.cons_append]
    exact v.separated_append ((rest.separated_append h).cons_punct _)

theorem Members.separated_append (m : Members) {l : List Token} (h : Follows l) :
    Separated (tokensOf m.lexemes ++ l) := by
  cases m with
  | one before name after before' v after' =>
    simp only [Members.lexemes, tokensOf_space, tokensOf_token, tokensOf_append, tokensOf_nil,
      List.append_nil, List.cons_append]
    exact ((v.separated_append h).cons_punct _).cons _
  | more before name after before' v after' rest =>
    simp only [Members.lexemes, tokensOf_space, tokensOf_token, tokensOf_append,
      List.append_assoc, List.cons_append]
    exact ((v.separated_append ((rest.separated_append h).cons_punct _)).cons_punct _).cons _

end

/-- What follows a token does not make it longer. -/
def Token.Stops (t : Token) (r : Text) : Prop :=
  t.isPunct = true ∨ ∀ c ∈ r.head?, isWordChar c = false

theorem Separated.stops {t : Token} {l : List Token} (h : Separated (t :: l)) :
    t.Stops (l.flatMap Token.text) := by
  cases l with
  | nil => exact Or.inr fun _ hc => nomatch hc
  | cons u l =>
    refine (List.isChain_cons_cons.mp h).1.imp_right fun hu c hc => ?_
    cases u with
    | punct p =>
      obtain rfl := Option.some.inj hc
      exact p.isWordChar_char
    | string s => cases hu
    | word w => cases hu

theorem Word.exists_cons (w : Word) : ∃ c t, w.text = c :: t ∧ Json.isWordChar c = true := by
  obtain ⟨c, t, hw⟩ := List.exists_cons_of_ne_nil w.ne_nil
  refine ⟨c, t, hw, List.all_eq_true.mp w.isWordChar c ?_⟩
  rw [hw]
  exact List.mem_cons_self

theorem Word.takeWhile_append (w : Word) {r : Text} (h : (Token.word w).Stops r) :
    (w.text ++ r).takeWhile Json.isWordChar = w.text := by
  have hr : r.takeWhile Json.isWordChar = [] := by
    rcases h with h | h
    · cases h
    · cases r with
      | nil => rfl
      | cons c r => exact List.takeWhile_cons_of_neg (by rw [h c rfl]; exact Bool.false_ne_true)
  rw [List.takeWhile_append_of_pos (List.all_eq_true.mp w.isWordChar), hr, List.append_nil]

/-- The first character tells what a token is, and then where it ends. -/
theorem Token.text_inj {t t' : Token} {r r' : Text} (ht : t.Stops r) (ht' : t'.Stops r')
    (h : t.text ++ r = t'.text ++ r') : t = t' ∧ r = r' := by
  have hpunct : ∀ {p : Punct} {w : Word} {r r' : Text}, p.char :: r ≠ w.text ++ r' := by
    intro p w r r' heq
    obtain ⟨c, u, hw, hc⟩ := w.exists_cons
    rw [hw] at heq
    obtain ⟨rfl, -⟩ := List.cons.inj heq
    rw [p.isWordChar_char] at hc
    cases hc
  have hquote : ∀ {w : Word} {r r' : Text}, '"' :: r ≠ w.text ++ r' := by
    intro w r r' heq
    obtain ⟨c, u, hw, hc⟩ := w.exists_cons
    rw [hw] at heq
    obtain ⟨rfl, -⟩ := List.cons.inj heq
    exact absurd hc (by decide)
  cases t with
  | punct p =>
    cases t' with
    | punct p' =>
      obtain ⟨hp, hr⟩ := List.cons.inj h
      exact ⟨congrArg Token.punct (Punct.char_injective hp), hr⟩
    | string s' => exact absurd (List.cons.inj h).1 p.char_ne_quote
    | word w' => exact absurd h hpunct
  | string s =>
    cases t' with
    | punct p' => exact absurd (List.cons.inj h).1.symm p'.char_ne_quote
    | string s' =>
      obtain ⟨hs, hr⟩ := Str.tail_inj (List.cons.inj h).2
      exact ⟨congrArg (fun ps => Token.string ⟨ps⟩) hs, hr⟩
    | word w' => exact absurd h hquote
  | word w =>
    cases t' with
    | punct p' => exact absurd h.symm hpunct
    | string s' => exact absurd h.symm hquote
    | word w' =>
      have hw := congrArg (List.takeWhile isWordChar) h
      simp only [Token.text] at h hw
      rw [w.takeWhile_append ht, w'.takeWhile_append ht'] at hw
      rw [hw] at h
      obtain ⟨text, hword⟩ := w
      obtain ⟨text', hword'⟩ := w'
      obtain rfl := hw
      exact ⟨rfl, List.append_cancel_left h⟩

theorem Token.text_ne_nil (t : Token) : t.text ≠ [] := by
  cases t with
  | punct p => exact List.cons_ne_nil _ _
  | string s => exact List.cons_ne_nil _ _
  | word w => exact w.ne_nil

/-- Tokens that are separated can be read back from their texts. -/
theorem tokens_inj {l l' : List Token} (h : Separated l) (h' : Separated l')
    (heq : l.flatMap Token.text = l'.flatMap Token.text) : l = l' := by
  induction l generalizing l' with
  | nil =>
    cases l' with
    | nil => rfl
    | cons t' l' => exact absurd (List.append_eq_nil_iff.mp heq.symm).1 t'.text_ne_nil
  | cons t l ih =>
    cases l' with
    | nil => exact absurd (List.append_eq_nil_iff.mp heq).1 t.text_ne_nil
    | cons t' l' =>
      obtain ⟨rfl, hrest⟩ := Token.text_inj h.stops h'.stops heq
      rw [ih (List.isChain_cons.mp h).2 (List.isChain_cons.mp h').2 hrest]

theorem Document.separated_tokens (d : Document) : Separated d.tokens := by
  unfold Document.tokens Document.lexemes
  simp only [tokensOf_space, tokensOf_append, tokensOf_nil]
  exact d.value.separated_append Follows.nil

end Kubenyx.Common.Json
