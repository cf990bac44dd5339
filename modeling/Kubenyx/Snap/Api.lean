import Kubenyx.Common.Decimal
import Kubenyx.Common.RustStr
import Kubenyx.Common.Slice
import Kubenyx.Common.Utf8
import Kubenyx.Snap.Take

/-!
# Calls of the firecracker API

Model of `api` (lib.rs:126-174), which reads a reply of HTTP/1.x off a socket that the peer
keeps open. The first loop reads until the blank line after the headers has arrived, the second
one until there are as many bytes behind it as the Content-Length header says. A read that is
not answered ends in a timeout, and then the command dies.

* `api_reply`: a reply is read to its end and not further, in whatever pieces it arrives.
-/

namespace Kubenyx.Snap

open Kubenyx.Common

/-! ## The calls -/

/-- The result of a `read` of the socket: bytes, none at the end of the stream, or an error. -/
abbrev Read := Except Text (List UInt8)

/-- What becomes of a connection: `connect`, `write_all` of a request, and the results of the
    reads, one after another. When there are no more, the peer is silent. -/
structure Socket where
  connect : Except Text Unit
  write : List UInt8 → Except Text Unit
  reads : List Read

/-- The error of a read that timed out. -/
def timedOut : Text := "Resource temporarily unavailable (os error 11)".toList

/-- The request (lib.rs:134-137). -/
def request (method path body : Text) : Text :=
  method ++ [' '] ++ path ++ " HTTP/1.1\r\nHost: localhost\r\n".toList ++
    "Content-Type: application/json\r\nContent-Length: ".toList ++
    decimal (utf8 body).length ++ "\r\n\r\n".toList ++ body

/-- The end of the headers. -/
def terminator : List UInt8 := [13, 10, 13, 10]

/-- The loop that reads the headers (lib.rs:141-152): where they end, and what was read. -/
def readHeaders (raw : List UInt8) (reads : List Read) :
    Except ApiOutcome (ℕ × List UInt8 × List Read) :=
  match position terminator raw with
  | some pos => .ok (pos + 4, raw, reads)
  | none =>
    match reads with
    | [] => .error (.readError timedOut)
    | .error e :: _ => .error (.readError e)
    | .ok [] :: reads => .ok (raw.length, raw, reads)
    | .ok (b :: bs) :: reads => readHeaders (raw ++ b :: bs) reads
termination_by structural reads

/-- The closure of the `find_map` (lib.rs:156-160). A length that is no number is passed over. -/
def lengthOfLine (l : Text) : Option ℕ := do
  let (k, v) ← splitOnce ':' l
  if eqIgnoreAsciiCase k "content-length".toList then parseUnsigned 64 (trim v) else none

/-- `content_length` (lib.rs:154-161). -/
def contentLength (headers : Text) : ℕ := ((lines headers).findSome? lengthOfLine).getD 0

/-- The loop that reads the body (lib.rs:162-168). -/
def readBody (goal : ℕ) (raw : List UInt8) (reads : List Read) :
    Except ApiOutcome (List UInt8 × List Read) :=
  if raw.length < goal then
    match reads with
    | [] => .error (.readError timedOut)
    | .error e :: _ => .error (.readError e)
    | .ok [] :: reads => .ok (raw, reads)
    | .ok (b :: bs) :: reads => readBody goal (raw ++ b :: bs) reads
  else .ok (raw, reads)
termination_by structural reads

/-- `status` (lib.rs:169-172). -/
def statusOf (headers : Text) : Option ℕ := (splitWhitespace headers)[1]?.bind (parseUnsigned 16)

/-- `api` (lib.rs:126-174): the status, the body and the reads that are left, or what it dies
    of. The sum is not checked for overflow. -/
def api (s : Socket) (method path body : Text) : Except ApiOutcome (ℕ × Text × List Read) := do
  s.connect.mapError ApiOutcome.connectError
  (s.write (utf8 (request method path body))).mapError ApiOutcome.writeError
  let (headerEnd, raw, reads) ← readHeaders [] s.reads
  let headers := fromUtf8Lossy (raw.take headerEnd)
  let (raw, reads) ← readBody ((headerEnd + contentLength headers) % 2 ^ 64) raw reads
  match statusOf headers with
  | none => throw (.badResponse headers)
  | some status => return (status, fromUtf8Lossy (raw.drop headerEnd), reads)

/-! ## Replies -/

/-- The characters of a field name. -/
def isTchar (c : Char) : Bool := c.isAlphanum || "!#$%&'*+-.^_`|~".toList.contains c

/-- A header field: a name and the bytes behind the colon. -/
structure Field where
  name : Text
  value : List UInt8
  name_ne_nil : name ≠ []
  tchar : ∀ c ∈ name, isTchar c = true
  value_line : 13 ∉ value ∧ 10 ∉ value

namespace Field

/-- The line of a field. -/
def line (f : Field) : List UInt8 := utf8 (f.name ++ [':']) ++ f.value

/-- The field gives the length of the body. -/
def IsLength (f : Field) : Prop := eqIgnoreAsciiCase f.name "Content-Length".toList = true

/-- The value is a number of bytes, with spaces or tabs around it. -/
def Gives (f : Field) (n : ℕ) : Prop :=
  ∃ before digits after : Text, (∀ c ∈ before, c = ' ' ∨ c = '\t') ∧ digits ≠ [] ∧
    (∀ c ∈ digits, c.isDigit = true) ∧ (∀ c ∈ after, c = ' ' ∨ c = '\t') ∧
    f.value = utf8 (before ++ digits ++ after) ∧ Nat.ofDigitChars 10 digits 0 = n

end Field

/-- A reply of HTTP/1.x: the status line, the header fields, and a body of the length that
    they give, or none if they give none. -/
structure Reply where
  minor : Char
  code : Text
  /-- What follows the code: nothing, or a space and a phrase. -/
  reason : List UInt8
  fields : List Field
  body : List UInt8
  minor_digit : minor.isDigit = true
  code_length : code.length = 3
  code_digits : ∀ c ∈ code, c.isDigit = true
  reason_space : ∀ b ∈ reason.head?, b = 32
  reason_line : 13 ∉ reason ∧ 10 ∉ reason
  length_eq : ∀ f ∈ fields, f.IsLength → f.Gives body.length
  no_length : (∀ f ∈ fields, ¬ f.IsLength) → body = []

namespace Reply

/-- The status code. -/
def status (r : Reply) : ℕ := Nat.ofDigitChars 10 r.code 0

/-- `HTTP/1.1 204 No Content`. -/
def statusLine (r : Reply) : List UInt8 :=
  utf8 ("HTTP/1.".toList ++ [r.minor, ' '] ++ r.code) ++ r.reason

/-- The lines up to the blank one. -/
def lines (r : Reply) : List (List UInt8) := r.statusLine :: r.fields.map Field.line

/-- Everything before the body. -/
def head (r : Reply) : List UInt8 := (r.lines ++ [[]]).flatMap (· ++ [13, 10])

/-- The bytes of the reply. -/
def bytes (r : Reply) : List UInt8 := r.head ++ r.body

end Reply

/-- Bytes arrive in pieces that each fit the buffer. -/
structure Pieces (bytes : List UInt8) (pieces : List (List UInt8)) : Prop where
  flatten_eq : pieces.flatten = bytes
  ne_nil : ∀ piece ∈ pieces, piece ≠ []
  length_le : ∀ piece ∈ pieces, piece.length ≤ 1024

/-! ## The end of the headers -/

/-- Lines that are not empty do not make a blank line, and the one behind them is found. -/
theorem position_lines {ls : List (List UInt8)} (hne : ls ≠ [])
    (hls : ∀ l ∈ ls, l ≠ [] ∧ 13 ∉ l) :
    ∃ p, position terminator ((ls ++ [[]]).flatMap (· ++ [13, 10])) = some p ∧
      p + 4 = ((ls ++ [[]]).flatMap (· ++ [13, 10])).length := by
  unfold terminator
  induction ls with
  | nil => exact absurd rfl hne
  | cons l ls ih =>
    obtain ⟨⟨-, hl⟩, hrest⟩ := List.forall_mem_cons.mp hls
    rw [List.cons_append, List.flatMap_cons, List.append_assoc, position_append_of_not_mem hl]
    by_cases hnil : ls = []
    · subst hnil
      exact ⟨l.length, by simp [position, windows], by simp⟩
    · obtain ⟨p, hp, hlen⟩ := ih hnil hrest
      -- a carriage return and a newline before the first byte of a line are no end
      obtain ⟨l', ls, rfl⟩ := List.exists_cons_of_ne_nil hnil
      obtain ⟨⟨hne', hl'⟩, -⟩ := List.forall_mem_cons.mp hrest
      obtain ⟨b, l', rfl⟩ := List.exists_cons_of_ne_nil hne'
      have hb : 13 ≠ b := fun heq => hl' (heq ▸ List.mem_cons_self)
      generalize hrest : (((b :: l') :: ls) ++ [[]]).flatMap (· ++ [13, 10]) = rest at hp hlen ⊢
      obtain ⟨rest', rfl⟩ : ∃ rest', rest = b :: rest' := ⟨_, hrest.symm⟩
      have hskip : position [13, 10, 13, 10] ([13, 10] ++ b :: rest') = some (p + 2) := by
        rw [List.cons_append, position_cons, if_neg (by simp [hb]), List.cons_append,
          position_cons, if_neg (by simp), List.nil_append, hp]
        rfl
      exact ⟨p + 2 + l.length, by rw [hskip]; rfl, by simp at hlen ⊢; omega⟩

theorem Field.not_mem_name (f : Field) {c : Char} (hc : isTchar c = false) : c ∉ f.name := by
  intro hmem
  rw [f.tchar c hmem] at hc
  exact absurd hc (by decide)

theorem Field.not_mem_line (f : Field) {b : UInt8} (hb : b.toNat < 0x80)
    (htext : isTchar (Char.ofNat b.toNat) = false ∧ Char.ofNat b.toNat ≠ ':')
    (hvalue : b ∉ f.value) : b ∉ f.line := by
  intro hmem
  rcases List.mem_append.mp hmem with hmem | hmem
  · rcases List.mem_append.mp (mem_of_mem_utf8 hb hmem) with hmem | hmem
    · exact f.not_mem_name htext.1 hmem
    · exact htext.2 (List.mem_singleton.mp hmem)
  · exact hvalue hmem

theorem utf8_ne_nil {t : Text} (h : t ≠ []) : utf8 t ≠ [] := fun hnil =>
  h (utf8_injective hnil)

section reply

variable (r : Reply)

theorem Reply.not_mem_statusLine {b : UInt8} (hb : b.toNat < 0x80)
    (htext : Char.ofNat b.toNat ∉ "HTTP/1. ".toList ∧ (Char.ofNat b.toNat).isDigit = false)
    (hreason : b ∉ r.reason) : b ∉ r.statusLine := by
  intro hmem
  rcases List.mem_append.mp hmem with hmem | hmem
  · have hchar := mem_of_mem_utf8 hb hmem
    rcases List.mem_append.mp hchar with hchar | hchar
    · rcases List.mem_append.mp hchar with hchar | hchar
      · exact htext.1 (List.mem_append_left [' '] hchar)
      · rcases List.mem_pair.mp hchar with hchar | hchar
        · rw [hchar, r.minor_digit] at htext
          exact absurd htext.2 (by decide)
        · rw [hchar] at htext
          exact htext.1 (by decide)
    · rw [r.code_digits _ hchar] at htext
      exact absurd htext.2 (by decide)
  · exact hreason hmem

theorem Reply.line_spec : ∀ l ∈ r.lines, l ≠ [] ∧ 13 ∉ l ∧ 10 ∉ l := by
  intro l hl
  rcases List.mem_cons.mp hl with rfl | hl
  · exact ⟨List.append_ne_nil_of_left_ne_nil (utf8_ne_nil (by simp)) _,
      r.not_mem_statusLine (by decide) (by decide) r.reason_line.1,
      r.not_mem_statusLine (by decide) (by decide) r.reason_line.2⟩
  · obtain ⟨f, -, rfl⟩ := List.mem_map.mp hl
    exact ⟨List.append_ne_nil_of_left_ne_nil (utf8_ne_nil (by simp)) _,
      f.not_mem_line (by decide) (by decide) f.value_line.1,
      f.not_mem_line (by decide) (by decide) f.value_line.2⟩

theorem Reply.position_head :
    ∃ p, position terminator r.head = some p ∧ p + 4 = r.head.length :=
  position_lines (List.cons_ne_nil _ _) fun l hl => ⟨(r.line_spec l hl).1, (r.line_spec l hl).2.1⟩

/-! ## What the headers say -/

theorem fromUtf8Lossy_flatMap (ls : List (List UInt8)) :
    fromUtf8Lossy (ls.flatMap (· ++ [13, 10])) =
      (ls.map fromUtf8Lossy).flatMap (· ++ ['\r', '\n']) := by
  induction ls with
  | nil => rfl
  | cons l ls ih =>
    rw [List.flatMap_cons, List.map_cons, List.flatMap_cons, ← ih, List.append_assoc]
    show fromUtf8Lossy (l ++ 13 :: ([] ++ 10 :: _)) = _
    rw [fromUtf8Lossy_cons (by decide), fromUtf8Lossy_cons (by decide), List.append_assoc]
    rfl

theorem Reply.lines_head :
    Common.lines (fromUtf8Lossy r.head) = (r.lines ++ [[]]).map fromUtf8Lossy := by
  unfold Reply.head
  rw [fromUtf8Lossy_flatMap, lines_flatMap_crlf]
  intro t ht
  obtain ⟨l, hl, rfl⟩ := List.mem_map.mp ht
  intro hmem
  obtain ⟨b, hb, hten⟩ := mem_of_mem_fromUtf8Lossy (by decide) (by decide) hmem
  obtain rfl : b = 10 := UInt8.toNat_inj.mp hten
  rcases List.mem_append.mp hl with hl | hl
  · exact (r.line_spec l hl).2.2 hb
  · rw [List.mem_singleton.mp hl] at hb
    simp at hb

/-- The status line begins like no header of a length. -/
theorem Reply.lengthOfLine_statusLine : lengthOfLine (fromUtf8Lossy r.statusLine) = none := by
  unfold Reply.statusLine
  rw [fromUtf8Lossy_append]
  unfold lengthOfLine splitOnce
  split_ifs
  · rfl
  · rfl

theorem Field.isLength_iff (f : Field) :
    eqIgnoreAsciiCase f.name "content-length".toList = true ↔ f.IsLength := by
  have hlower : "content-length".toList.map Char.toLower =
      "Content-Length".toList.map Char.toLower := by
    decide
  unfold Field.IsLength eqIgnoreAsciiCase
  rw [hlower]

theorem Field.lengthOfLine_line (f : Field) : lengthOfLine (fromUtf8Lossy f.line) =
    if eqIgnoreAsciiCase f.name "content-length".toList then
      parseUnsigned 64 (trim (fromUtf8Lossy f.value)) else none := by
  have hcolon : ':' ∉ f.name := f.not_mem_name (by decide)
  unfold Field.line lengthOfLine
  rw [fromUtf8Lossy_append, List.append_assoc, List.singleton_append, splitOnce_append hcolon]
  rfl

theorem Field.parse_value {f : Field} {n : ℕ} (h : f.Gives n) (hn : n < 2 ^ 64) :
    parseUnsigned 64 (trim (fromUtf8Lossy f.value)) = some n := by
  obtain ⟨before, digits, after, hbefore, hne, hdigits, hafter, hvalue, rfl⟩ := h
  have hspace : ∀ {c}, c = ' ' ∨ c = '\t' → isWhitespace c = true := by
    rintro c (rfl | rfl) <;> decide
  rw [hvalue, fromUtf8Lossy_utf8, trim_append (fun c hc => hspace (hbefore c hc))
    ⟨fun c hc => isWhitespace_of_isDigit (hdigits c (List.mem_of_mem_head? hc)),
      fun c hc => isWhitespace_of_isDigit (hdigits c (List.mem_of_mem_getLast? hc))⟩ hne
    fun c hc => hspace (hafter c hc)]
  exact parseUnsigned_digits hne hdigits hn

theorem Reply.contentLength_head (hn : r.body.length < 2 ^ 64) :
    contentLength (fromUtf8Lossy r.head) = r.body.length := by
  have hline : ∀ {l n}, l ∈ (r.lines ++ [[]]).map fromUtf8Lossy → lengthOfLine l = some n →
      n = r.body.length := by
    intro l n hl hlength
    obtain ⟨bytes, hbytes, rfl⟩ := List.mem_map.mp hl
    clear hl
    rcases List.mem_append.mp hbytes with hl | hl
    · rcases List.mem_cons.mp hl with rfl | hl
      · rw [r.lengthOfLine_statusLine] at hlength
        exact absurd hlength (by simp)
      · obtain ⟨f, hf, rfl⟩ := List.mem_map.mp hl
        rw [f.lengthOfLine_line] at hlength
        split_ifs at hlength with hname
        rw [Field.parse_value (r.length_eq f hf (f.isLength_iff.mp hname)) hn] at hlength
        exact (Option.some.inj hlength).symm
    · rw [List.mem_singleton.mp hl, show lengthOfLine (fromUtf8Lossy []) = none by decide] at hlength
      exact absurd hlength (by simp)
  unfold contentLength
  rw [r.lines_head]
  cases hfind : ((r.lines ++ [[]]).map fromUtf8Lossy).findSome? lengthOfLine with
  | some n =>
    obtain ⟨l, hl, hlength⟩ := List.exists_of_findSome?_eq_some hfind
    exact hline hl hlength
  | none =>
    -- no field gives a length, so there is no body
    rw [r.no_length]
    · rfl
    · intro f hf hlength
      have hnone := List.findSome?_eq_none_iff.mp hfind (fromUtf8Lossy f.line)
        (List.mem_map_of_mem (List.mem_append_left _
          (List.mem_cons_of_mem _ (List.mem_map_of_mem hf))))
      rw [f.lengthOfLine_line, if_pos (f.isLength_iff.mpr hlength),
        Field.parse_value (r.length_eq f hf hlength) hn] at hnone
      exact absurd hnone (by simp)

/-- After the code there is white space, and before it there is the version. -/
theorem Reply.head_eq : ∃ w rest, isWhitespace w = true ∧
    fromUtf8Lossy r.head = ("HTTP/1.".toList ++ [r.minor]) ++ ' ' :: (r.code ++ w :: rest) := by
  have hhead : fromUtf8Lossy r.head = fromUtf8Lossy r.statusLine ++ '\r' :: '\n' ::
      fromUtf8Lossy ((r.fields.map Field.line ++ [[]]).flatMap (· ++ [13, 10])) := by
    unfold Reply.head Reply.lines
    rw [fromUtf8Lossy_flatMap, fromUtf8Lossy_flatMap]
    simp
  have hstatus : fromUtf8Lossy r.statusLine =
      "HTTP/1.".toList ++ [r.minor] ++ ' ' :: (r.code ++ fromUtf8Lossy r.reason) := by
    unfold Reply.statusLine
    rw [fromUtf8Lossy_append]
    simp
  rw [hhead, hstatus]
  match hreason : r.reason with
  | [] => exact ⟨'\r', _, by decide, by simp [fromUtf8Lossy, Utf8.run, Utf8.flush]; rfl⟩
  | b :: reason =>
    obtain rfl : b = 32 := r.reason_space b (by rw [hreason]; rfl)
    have hspace : fromUtf8Lossy (32 :: reason) = ' ' :: fromUtf8Lossy reason :=
      @fromUtf8Lossy_cons 32 (by decide) [] reason
    rw [hspace]
    exact ⟨' ', _, by decide, by simp; rfl⟩

theorem Reply.statusOf_head : statusOf (fromUtf8Lossy r.head) = some r.status := by
  obtain ⟨w, rest, hw, heq⟩ := r.head_eq
  have hdigit : ∀ {c : Char}, c.isDigit = true → isWhitespace c = false := isWhitespace_of_isDigit
  have hversion : ∀ c ∈ "HTTP/1.".toList ++ [r.minor], isWhitespace c = false := by
    intro c hc
    rcases List.mem_append.mp hc with hc | hc
    · have hall : "HTTP/1.".toList.all (fun c => isWhitespace c = false) = true := by decide
      exact of_decide_eq_true (List.all_eq_true.mp hall c hc)
    · rw [List.mem_singleton.mp hc]
      exact hdigit r.minor_digit
  have hcode : r.code ≠ [] := by
    intro hnil
    have := r.code_length
    rw [hnil] at this
    exact absurd this (by decide)
  unfold statusOf
  rw [heq, splitWhitespace_cons (by simp) hversion (by decide),
    splitWhitespace_cons hcode (fun c hc => hdigit (r.code_digits c hc)) hw]
  show parseUnsigned 16 r.code = _
  refine parseUnsigned_digits hcode r.code_digits ?_
  have hlt := ofDigitChars_lt r.code_digits
  rw [r.code_length] at hlt
  omega

end reply

/-! ## The loops -/

theorem readHeaders_found {raw : List UInt8} {p : ℕ} (h : position terminator raw = some p)
    (reads : List Read) : readHeaders raw reads = .ok (p + 4, raw, reads) := by
  rw [readHeaders.eq_def, h]

theorem readHeaders_more {raw piece : List UInt8} (h : position terminator raw = none)
    (hne : piece ≠ []) (reads : List Read) :
    readHeaders raw (.ok piece :: reads) = readHeaders (raw ++ piece) reads := by
  obtain ⟨b, bs, rfl⟩ := List.exists_cons_of_ne_nil hne
  rw [readHeaders.eq_def, h]

theorem readBody_done {goal : ℕ} {raw : List UInt8} (h : goal ≤ raw.length) (reads : List Read) :
    readBody goal raw reads = .ok (raw, reads) := by
  rw [readBody.eq_def, if_neg (Nat.not_lt_of_le h)]

theorem readBody_more {goal : ℕ} {raw piece : List UInt8} (h : raw.length < goal)
    (hne : piece ≠ []) (reads : List Read) :
    readBody goal raw (.ok piece :: reads) = readBody goal (raw ++ piece) reads := by
  obtain ⟨b, bs, rfl⟩ := List.exists_cons_of_ne_nil hne
  rw [readBody.eq_def, if_pos h]

section loops

variable {head body : List UInt8} {p : ℕ} {raw : List UInt8} {pieces : List (List UInt8)}
  {later : List Read}

/-- The terminator is found as soon as the whole head is there. -/
theorem position_of_append (hpos : position terminator head = some p)
    (hend : p + 4 = head.length) {rest : List UInt8} (h : raw ++ rest = head ++ body) :
    position terminator raw = if head.length ≤ raw.length then some p else none := by
  split_ifs with hle
  · obtain ⟨tail, rfl⟩ : ∃ tail, raw = head ++ tail := by
      refine ⟨raw.drop head.length, ?_⟩
      have htake : raw.take head.length = head := by
        have := congrArg (List.take head.length) h
        rwa [List.take_append_of_le_length hle, List.take_left] at this
      nth_rewrite 1 [← List.take_append_drop head.length raw]
      rw [htake]
    exact position_append hpos tail
  · cases hq : position terminator raw with
    | none => rfl
    | some q =>
      have hsame := position_append hq rest
      rw [h, position_append hpos body] at hsame
      have hbound := position_le hq
      obtain rfl := Option.some.inj hsame
      rw [show terminator.length = 4 from rfl] at hbound
      omega

theorem readHeaders_pieces (hpos : position terminator head = some p)
    (hend : p + 4 = head.length) (hne : ∀ piece ∈ pieces, piece ≠ [])
    (h : raw ++ pieces.flatten = head ++ body) :
    ∃ (raw' : List UInt8) (pieces' : List (List UInt8)),
      readHeaders raw (pieces.map .ok ++ later) =
        .ok (head.length, raw', pieces'.map .ok ++ later) ∧ head.length ≤ raw'.length ∧
      raw' ++ pieces'.flatten = head ++ body ∧ ∀ piece ∈ pieces', piece ≠ [] := by
  have hstop : ∀ {raw : List UInt8} {pieces : List (List UInt8)},
      raw ++ pieces.flatten = head ++ body → head.length ≤ raw.length →
      readHeaders raw (pieces.map .ok ++ later) =
        .ok (head.length, raw, pieces.map .ok ++ later) := by
    intro raw pieces h hle
    have hfound := position_of_append hpos hend h
    rw [if_pos hle] at hfound
    rw [readHeaders_found hfound, hend]
  induction pieces generalizing raw with
  | nil =>
    have hle : head.length ≤ raw.length := by
      have := congrArg List.length h
      rw [List.length_append, List.length_append, List.flatten_nil, List.length_nil] at this
      omega
    exact ⟨raw, [], hstop h hle, hle, h, hne⟩
  | cons piece pieces ih =>
    by_cases hle : head.length ≤ raw.length
    · exact ⟨raw, piece :: pieces, hstop h hle, hle, h, hne⟩
    · have hfound := position_of_append hpos hend h
      obtain ⟨hpiece, hpieces⟩ := List.forall_mem_cons.mp hne
      rw [if_neg hle] at hfound
      rw [List.map_cons, List.cons_append, readHeaders_more hfound hpiece]
      rw [List.flatten_cons, ← List.append_assoc] at h
      exact ih hpieces h

theorem readBody_pieces {bytes : List UInt8} (hne : ∀ piece ∈ pieces, piece ≠ [])
    (h : raw ++ pieces.flatten = bytes) :
    readBody bytes.length raw (pieces.map .ok ++ later) = .ok (bytes, later) := by
  induction pieces generalizing raw with
  | nil =>
    obtain rfl : raw = bytes := by simpa using h
    exact readBody_done le_rfl later
  | cons piece pieces ih =>
    obtain ⟨hpiece, hpieces⟩ := List.forall_mem_cons.mp hne
    have hlt : raw.length < bytes.length := by
      have hlen := congrArg List.length h
      have hpos : 0 < piece.length := List.length_pos_iff.mpr hpiece
      rw [List.length_append, List.flatten_cons, List.length_append] at hlen
      omega
    rw [List.map_cons, List.cons_append, readBody_more hlt hpiece]
    refine ih hpieces ?_
    rw [← h, List.flatten_cons, List.append_assoc]

end loops

/-! ## Reading a reply -/

/-- The call, if the loops end and there is a status. -/
theorem api_of_reads {s : Socket} (hconnect : s.connect = .ok ()) (method path body : Text)
    (hwrite : s.write (utf8 (request method path body)) = .ok ()) {headerEnd status : ℕ}
    {raw raw' : List UInt8} {reads reads' : List Read} {headers : Text}
    (hheaders : readHeaders [] s.reads = .ok (headerEnd, raw, reads))
    (htext : fromUtf8Lossy (raw.take headerEnd) = headers)
    (hbody : readBody ((headerEnd + contentLength headers) % 2 ^ 64) raw reads = .ok (raw', reads'))
    (hstatus : statusOf headers = some status) :
    api s method path body = .ok (status, fromUtf8Lossy (raw'.drop headerEnd), reads') := by
  subst htext
  unfold api
  rw [hconnect, hwrite, hheaders]
  simp only [Except.mapError, bind, Except.bind, hbody, hstatus, pure, Except.pure]

section api

variable (r : Reply) (hfits : r.bytes.length < 2 ^ 64) {pieces : List (List UInt8)}
  (hpieces : Pieces r.bytes pieces) (later : List Read) {s : Socket}
  (hconnect : s.connect = .ok ()) (hwrite : ∀ req, s.write req = .ok ())
  (hreads : s.reads = pieces.map .ok ++ later) (method path body : Text)

include hfits hpieces hconnect hwrite hreads

theorem api_pieces : api s method path body = .ok (r.status, fromUtf8Lossy r.body, later) := by
  obtain ⟨p, hpos, hend⟩ := r.position_head
  obtain ⟨raw, pieces', hheaders, hle, hsplit, hne⟩ :=
    @readHeaders_pieces r.head r.body p [] pieces later hpos hend hpieces.ne_nil
      hpieces.flatten_eq
  have hraw : raw.take r.head.length = r.head := by
    have := congrArg (List.take r.head.length) hsplit
    rwa [List.take_append_of_le_length hle, List.take_left] at this
  have hbody : r.body.length < 2 ^ 64 := by
    unfold Reply.bytes at hfits
    rw [List.length_append] at hfits
    omega
  have hgoal : (r.head.length + contentLength (fromUtf8Lossy r.head)) % 2 ^ 64 =
      r.bytes.length := by
    rw [r.contentLength_head hbody, ← List.length_append]
    exact Nat.mod_eq_of_lt hfits
  have hread := @readBody_pieces raw pieces' later r.bytes hne hsplit
  rw [← hreads] at hheaders
  rw [← hgoal] at hread
  rw [api_of_reads hconnect method path body (hwrite _) hheaders (congrArg fromUtf8Lossy hraw) hread
    r.statusOf_head]
  unfold Reply.bytes
  rw [List.drop_left]

/-- However a reply is cut into pieces, `api` reads all of them and nothing after them, and
    returns the status code and the body. -/
theorem api_reply :
    api s method path body = .ok (r.status, fromUtf8Lossy r.body, later) ∧
      ∀ t, r.body = utf8 t → fromUtf8Lossy r.body = t := by
  refine ⟨api_pieces r hfits hpieces later hconnect hwrite hreads method path body, fun t ht => ?_⟩
  rw [ht, fromUtf8Lossy_utf8]

end api

/-- Pieces that cut the end of the headers in three. -/
theorem api_reply_torn : api ⟨.ok (), fun _ => .ok (),
    [.ok (utf8 "HTTP/1.1 200 \r\nconTENT-length: 2\r".toList), .ok (utf8 "\n\r".toList),
      .ok (utf8 "\nok".toList)]⟩ "GET".toList "/".toList [] = .ok (200, "ok".toList, []) := by
  let field : Field :=
    { name := "conTENT-length".toList
      value := utf8 " 2".toList
      name_ne_nil := by decide
      tchar := List.all_eq_true.mp (by decide)
      value_line := by decide }
  let reply : Reply :=
    { minor := '1'
      code := "200".toList
      reason := [32]
      fields := [field]
      body := utf8 "ok".toList
      minor_digit := by decide
      code_length := by decide
      code_digits := List.all_eq_true.mp (by decide)
      reason_space := fun b hb => (Option.some.inj hb).symm
      reason_line := by decide
      length_eq := fun f hf _ => ⟨[' '], ['2'], [], by simp, by decide, by simp, by simp,
        by rw [List.mem_singleton.mp hf]; rfl, by decide⟩
      no_length := fun h =>
        absurd (by unfold Field.IsLength; decide) (h field (List.mem_singleton_self field)) }
  have hpieces : Pieces reply.bytes [utf8 "HTTP/1.1 200 \r\nconTENT-length: 2\r".toList,
      utf8 "\n\r".toList, utf8 "\nok".toList] := ⟨by decide +kernel, by decide, by decide⟩
  have h := (@api_reply reply (by decide +kernel) _ hpieces []
    ⟨.ok (), fun _ => .ok (), _⟩ rfl (fun _ => rfl) rfl "GET".toList "/".toList []).1
  rw [show fromUtf8Lossy reply.body = "ok".toList from fromUtf8Lossy_utf8 _] at h
  exact h

end Kubenyx.Snap
