import Kubenyx.Common.Json
import Kubenyx.Common.RustStr

/-!
# CPU templates

Model of `canonicalize_json` and `template_hash` (kubenyx-snap lib.rs:561-604): a template
is identified by the hash of its JSON text without the white space outside strings.

* `canonicalizeJson_spec`: of a JSON text the tokens are left. It follows that a canonical
  text stays as it is, and that two texts have one canonical form if and only if they have the
  same tokens.
-/

namespace Kubenyx.Snap

open Kubenyx.Common
open Kubenyx.Common.Json

/-! ## The canonical text -/

/-- The state of the loop of `canonicalize_json`. -/
structure Canon where
  out : Text
  inStr : Bool
  esc : Bool
  deriving DecidableEq

/-- The loop body (lib.rs:573-590). -/
def Canon.push (s : Canon) (c : Char) : Canon :=
  if s.inStr then
    if s.esc then { s with out := s.out ++ [c], esc := false }
    else if c = '\\' then { s with out := s.out ++ [c], esc := true }
    else if c = '"' then { s with out := s.out ++ [c], inStr := false }
    else { s with out := s.out ++ [c] }
  else if c = '"' then { s with out := s.out ++ [c], inStr := true }
  else if !isWhitespace c then { s with out := s.out ++ [c] }
  else s

/-- `canonicalize_json` (lib.rs:569-592). -/
def canonicalizeJson (raw : Text) : Text := (raw.foldl Canon.push ⟨[], false, false⟩).out

/-- Two hexadecimal digits (`{b:02x}`). -/
def hexByte (b : UInt8) : Text := [Nat.digitChar (b.toNat / 16), Nat.digitChar (b.toNat % 16)]

/-- `template_hash` (lib.rs:595-604), with the digest as a parameter. -/
def templateHash (sha256 : List UInt8 → List UInt8) (raw : Text) : Text :=
  "sha256:".toList ++ (sha256 (utf8 (canonicalizeJson raw))).flatMap hexByte

/-- Outside a string, after `out`. -/
abbrev Canon.outside (out : Text) : Canon := ⟨out, false, false⟩

abbrev Canon.inside (out : Text) : Canon := ⟨out, true, false⟩

theorem isWhitespace_of_isWs {c : Char} (h : isWs c = true) : isWhitespace c = true := by
  have hall : [' ', '\t', '\n', '\r'].all isWhitespace = true := by decide
  exact List.all_eq_true.mp hall c (of_decide_eq_true h)

theorem ne_quote_of_isWs {c : Char} (h : isWs c = true) : c ≠ '"' := by
  rintro rfl
  exact absurd h (by decide)

theorem foldl_push_space (w : Ws) (out : Text) :
    w.text.foldl Canon.push (.outside out) = .outside out := by
  obtain ⟨t, ht⟩ := w
  induction t with
  | nil => rfl
  | cons c t ih =>
    rw [List.all_cons, Bool.and_eq_true] at ht
    have hpush : (Canon.outside out).push c = .outside out := by
      simp [Canon.push, ne_quote_of_isWs ht.1, isWhitespace_of_isWs ht.1]
    show t.foldl Canon.push ((Canon.outside out).push c) = _
    rw [hpush]
    exact ih ht.2

/-- What is neither white space nor a quote is kept. -/
theorem foldl_push_plain {t : Text} (h : ∀ c ∈ t, c ≠ '"' ∧ isWhitespace c = false) (out : Text) :
    t.foldl Canon.push (.outside out) = .outside (out ++ t) := by
  induction t generalizing out with
  | nil => rw [List.append_nil, List.foldl_nil]
  | cons c t ih =>
    obtain ⟨hc, ht⟩ := List.forall_mem_cons.mp h
    have hpush : (Canon.outside out).push c = .outside (out ++ [c]) := by
      simp [Canon.push, hc.1, hc.2]
    rw [List.foldl_cons, hpush, ih ht, List.append_assoc, List.singleton_append]

theorem foldl_push_code {t : Text} (h : t.all isHex = true) (out : Text) :
    t.foldl Canon.push (.inside out) = .inside (out ++ t) := by
  induction t generalizing out with
  | nil => rw [List.append_nil, List.foldl_nil]
  | cons c t ih =>
    rw [List.all_cons, Bool.and_eq_true] at h
    have hpush : (Canon.inside out).push c = .inside (out ++ [c]) := by
      simp [Canon.push, ne_quote_of_isHex h.1]
    rw [List.foldl_cons, hpush, ih h.2, List.append_assoc, List.singleton_append]

theorem foldl_push_piece (p : Piece) (out : Text) :
    p.text.foldl Canon.push (.inside out) = .inside (out ++ p.text) := by
  cases p with
  | plain c hc =>
    obtain ⟨hquote, hback⟩ := ne_quote_of_isUnescaped hc
    simp [Piece.text, Canon.push, hquote, hback]
  | escape c hc => simp [Piece.text, Canon.push]
  | code digits hlen hhex =>
    have hstart : ['\\', 'u'].foldl Canon.push (.inside out) = .inside (out ++ ['\\', 'u']) := by
      simp [Canon.push]
    show (['\\', 'u'] ++ digits).foldl Canon.push (.inside out) =
      .inside (out ++ (['\\', 'u'] ++ digits))
    rw [List.foldl_append, hstart, foldl_push_code hhex, List.append_assoc]

theorem foldl_push_tail (ps : List Piece) (out : Text) :
    (Str.tail ps).foldl Canon.push (.inside out) = .outside (out ++ Str.tail ps) := by
  induction ps generalizing out with
  | nil => simp [Str.tail_nil, Canon.push]
  | cons p ps ih => rw [Str.tail_cons, List.foldl_append, foldl_push_piece, ih, List.append_assoc]

theorem isWordChar_plain {c : Char} (h : isWordChar c = true) :
    c ≠ '"' ∧ isWhitespace c = false := by
  have hrange : 43 ≤ c.toNat ∧ c.toNat ≤ 122 := by
    unfold isWordChar at h
    rw [Bool.or_eq_true] at h
    rcases h with h | h
    · have hrange := toNat_of_isAlphanum h
      omega
    · have hmem : c = '+' ∨ c = '-' ∨ c = '.' := by simpa using h
      rcases hmem with rfl | rfl | rfl
      · decide
      · decide
      · decide
  constructor
  · rintro rfl
    exact absurd hrange (by decide)
  · unfold isWhitespace
    simp only [decide_eq_false_iff_not, List.mem_cons, List.not_mem_nil, or_false]
    omega

/-- A token is kept. -/
theorem foldl_push_token (t : Token) (out : Text) :
    t.text.foldl Canon.push (.outside out) = .outside (out ++ t.text) := by
  cases t with
  | punct p =>
    refine foldl_push_plain (List.forall_mem_singleton.mpr ⟨p.char_ne_quote, ?_⟩) out
    cases p <;> decide
  | word w =>
    exact foldl_push_plain
      (fun c hc => isWordChar_plain (List.all_eq_true.mp w.isWordChar c hc)) out
  | string s =>
    show (Str.tail s.pieces).foldl Canon.push (.inside (out ++ ['"'])) = _
    rw [foldl_push_tail, List.append_assoc]
    rfl

/-- Of a list of lexemes the tokens are kept. -/
theorem foldl_push_lexemes (l : List Lexeme) (out : Text) :
    (textOf l).foldl Canon.push (.outside out) =
      .outside (out ++ (tokensOf l).flatMap Token.text) := by
  induction l generalizing out with
  | nil => simp
  | cons x l ih =>
    cases x with
    | space w => rw [textOf_space, List.foldl_append, foldl_push_space, ih, tokensOf_space]
    | token t =>
      rw [textOf_token, List.foldl_append, foldl_push_token, ih, tokensOf_token, List.flatMap_cons,
        List.append_assoc]

theorem canonicalizeJson_textOf (l : List Lexeme) :
    canonicalizeJson (textOf l) = (tokensOf l).flatMap Token.text := by
  unfold canonicalizeJson
  rw [foldl_push_lexemes, List.nil_append]

/-- The tokens of a text, one after another, are a list of lexemes without white space. -/
theorem canonicalizeJson_tokens (l : List Token) :
    canonicalizeJson (l.flatMap Token.text) = l.flatMap Token.text := by
  have htext : textOf (l.map .token) = l.flatMap Token.text := List.flatMap_map ..
  have htokens : tokensOf (l.map .token) = l := by
    unfold tokensOf
    rw [List.filterMap_map]
    exact List.filterMap_some
  have hcanon := canonicalizeJson_textOf (l.map .token)
  rwa [htext, htokens] at hcanon

/-- Of a JSON text the tokens are left, with every string as it is spelled. Once more changes
    nothing, and two JSON texts have one canonical form if and only if they have the same
    tokens. -/
theorem canonicalizeJson_spec (d d' : Document) :
    canonicalizeJson d.text = d.tokens.flatMap Token.text ∧
      canonicalizeJson (canonicalizeJson d.text) = canonicalizeJson d.text ∧
      (canonicalizeJson d.text = canonicalizeJson d'.text ↔ d.tokens = d'.tokens) := by
  have hcanon : ∀ d : Document, canonicalizeJson d.text = d.tokens.flatMap Token.text :=
    fun d => canonicalizeJson_textOf d.lexemes
  refine ⟨hcanon d, ?_, ?_⟩
  · rw [hcanon, canonicalizeJson_tokens]
  · rw [hcanon, hcanon]
    exact ⟨tokens_inj d.separated_tokens d'.separated_tokens, congrArg _⟩

example : canonicalizeJson "\x7b\n  \"a\": \"x y\\\" z\",\n  \"b\": [ 1, 2 ]\n\x7d\n".toList =
    "\x7b\"a\":\"x y\\\" z\",\"b\":[1,2]\x7d".toList := by decide +kernel

/-- So the renderings of one document have one hash. -/
theorem templateHash_congr (sha256 : List UInt8 → List UInt8) {d d' : Document}
    (h : d.tokens = d'.tokens) : templateHash sha256 d.text = templateHash sha256 d'.text := by
  unfold templateHash Document.text
  rw [canonicalizeJson_textOf, canonicalizeJson_textOf]
  unfold Document.tokens at h
  rw [h]

end Kubenyx.Snap
