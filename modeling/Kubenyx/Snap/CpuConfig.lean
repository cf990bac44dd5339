import Kubenyx.Snap.Template

/-!
# The CPU template of a VMM

Model of `json_value_after_key` and `vmm_cpu_template` (kubenyx-snap lib.rs:605-686): the
template that a VMM was launched with is looked up in its config file, by a search for the
key in the text of the file.

* `jsonValueAfterKey_eq`: what the search gives on a JSON text, in terms of the strings in it.
  The first string whose spelling ends in the quoted key decides, at whatever depth it is and
  whether or not it is the name of a member.
* `jsonValueAfterKey_detects_iff`: when that is the template of the config.
* `vmmCpuTemplate_eq_none_iff`: then a VMM with a template is not taken for one without.
-/

namespace Kubenyx.Snap

open Kubenyx.Common
open Kubenyx.Common.Json

/-! ## The program -/

/-- The state of the loop over an object. -/
structure Braces where
  depth : ℕ
  inStr : Bool
  esc : Bool
  deriving DecidableEq

/-- The loop body (lib.rs:628-645). The loop starts at an opening brace and returns at depth 0,
    so `depth -= 1` does not underflow. -/
def Braces.step (s : Braces) (c : Char) : Braces :=
  if s.inStr then
    if s.esc then { s with esc := false }
    else if c = '\\' then { s with esc := true }
    else if c = '"' then { s with inStr := false }
    else s
  else if c = '"' then { s with inStr := true }
  else if c = '{' then { s with depth := s.depth + 1 }
  else if c = '}' then { s with depth := s.depth - 1 }
  else s

/-- The loop: the text up to the brace that closes the object. -/
def scanObject (s : Braces) : Text → Option Text
  | [] => none
  | c :: t =>
    if s.inStr = false ∧ c = '}' ∧ (s.step c).depth = 0 then some [c]
    else (scanObject (s.step c) t).map (c :: ·)

/-- The text of a string or an object at the front (lib.rs:619-650). -/
def readValue : Text → Option Text
  | [] => none
  | c :: t =>
    -- Store paths carry no escapes, so a string is cut at the next quote.
    if c = '"' then (splitOnce '"' t).map fun p => '"' :: (p.1 ++ ['"'])
    else if c = '{' then scanObject ⟨0, false, false⟩ (c :: t)
    else none

/-- What is read after the key (lib.rs:614-650). -/
def valueAfter (after : Text) : Option Text :=
  (stripPrefix [':'] (trimStart after)).bind fun rest => readValue (trimStart rest)

/-- The key between quotes. -/
def quoted (key : Text) : Text := '"' :: (key ++ ['"'])

/-- `json_value_after_key` (lib.rs:611-651). -/
def jsonValueAfterKey (obj key : Text) : Option Text := (findAfter (quoted key) obj).bind valueAfter

/-- The argument after `--config-file` (lib.rs:667-669). -/
def configFile : List Text → Option Text
  | flag :: path :: args =>
    if flag = "--config-file".toList then some path else configFile (path :: args)
  | _ => none

/-- `strip_suffix('"').unwrap_or(quoted)`. -/
def unquoteEnd (t : Text) : Text := if t.getLast? = some '"' then t.dropLast else t

/-- `vmm_cpu_template` (lib.rs:661-686), from the arguments of the VMM on, with the digest and
    the files as parameters. An error is what the process dies with. -/
def vmmCpuTemplate (sha256 : List UInt8 → List UInt8) (readToString : Text → Except Text Text)
    (args : List Text) : Except Text (Option Text) :=
  match configFile args with
  | none => .ok none
  | some cfgPath =>
    match readToString cfgPath with
    | .error e => .error ("read VMM config ".toList ++ cfgPath ++ ": ".toList ++ e)
    | .ok cfg =>
      match jsonValueAfterKey cfg "cpu-config".toList with
      | none => .ok none
      | some val =>
        match stripPrefix ['"'] val with
        | none => .ok (some (templateHash sha256 val))
        | some rest =>
          let path := unquoteEnd rest
          if '\\' ∈ path then
            .error ("cpu-config path ".toList ++ path ++ ": unexpected escape".toList)
          else
            match readToString path with
            | .error e => .error ("read cpu-config ".toList ++ path ++ ": ".toList ++ e)
            | .ok template => .ok (some (templateHash sha256 template))

/-! ## The loop over an object -/

abbrev Braces.outside (n : ℕ) : Braces := ⟨n, false, false⟩

abbrev Braces.inside (n : ℕ) : Braces := ⟨n, true, false⟩

/-- The loop gets over a text without returning, from one state to another. -/
def Moves (s : Braces) (t : Text) (s' : Braces) : Prop :=
  ∀ r, scanObject s (t ++ r) = (scanObject s' r).map (t ++ ·)

theorem Moves.nil (s : Braces) : Moves s [] s := by
  intro r
  simp

theorem Moves.append {s s' s'' : Braces} {t u : Text} (ht : Moves s t s') (hu : Moves s' u s'') :
    Moves s (t ++ u) s'' := by
  intro r
  rw [List.append_assoc, ht, hu, Option.map_map]
  congr 1
  funext x
  exact (List.append_assoc t u x).symm

theorem Moves.cons {s s' s'' : Braces} {c : Char} {t : Text} (hstep : s.step c = s')
    (hgo : s.inStr = true ∨ c ≠ '}' ∨ s'.depth ≠ 0) (ht : Moves s' t s'') :
    Moves s (c :: t) s'' := by
  have hc : Moves s [c] s' := by
    intro r
    show scanObject s (c :: r) = _
    subst hstep
    rw [scanObject, if_neg]
    · rfl
    · rintro ⟨hstr, hc, hdepth⟩
      rcases hgo with h | h | h
      · rw [hstr] at h
        cases h
      · exact h hc
      · exact h hdepth
  exact hc.append ht

/-- Outside a string the depth stays, without braces. -/
theorem moves_outside {t : Text} (h : ∀ c ∈ t, c ≠ '"' ∧ c ≠ '{' ∧ c ≠ '}') (n : ℕ) :
    Moves (.outside n) t (.outside n) := by
  induction t with
  | nil => exact Moves.nil _
  | cons c t ih =>
    obtain ⟨⟨hquote, hopen, hclose⟩, ht⟩ := List.forall_mem_cons.mp h
    have hstep : (Braces.outside n).step c = .outside n := by
      simp [Braces.step, hquote, hopen, hclose]
    exact Moves.cons hstep (Or.inr (Or.inl hclose)) (ih ht)

/-- Inside a string everything stays up to a quote or a backslash. -/
theorem moves_inside {t : Text} (h : ∀ c ∈ t, c ≠ '"' ∧ c ≠ '\\') (n : ℕ) :
    Moves (.inside n) t (.inside n) := by
  induction t with
  | nil => exact Moves.nil _
  | cons c t ih =>
    obtain ⟨⟨hquote, hback⟩, ht⟩ := List.forall_mem_cons.mp h
    have hstep : (Braces.inside n).step c = .inside n := by
      simp [Braces.step, hquote, hback]
    exact Moves.cons hstep (Or.inl rfl) (ih ht)

theorem moves_escaped (c : Char) {n : ℕ} {t : Text} {s : Braces} (ht : Moves (.inside n) t s) :
    Moves (.inside n) ('\\' :: c :: t) s := by
  have hesc : Moves ⟨n, true, true⟩ (c :: t) s := Moves.cons rfl (Or.inl rfl) ht
  exact Moves.cons rfl (Or.inl rfl) hesc

theorem moves_piece (p : Piece) (n : ℕ) : Moves (.inside n) p.text (.inside n) := by
  cases p with
  | plain c hc => exact moves_inside (List.forall_mem_singleton.mpr (ne_quote_of_isUnescaped hc)) n
  | escape c hc => exact moves_escaped c (Moves.nil _)
  | code digits hlen hhex =>
    exact moves_escaped 'u'
      (moves_inside (fun c hc => ne_quote_of_isHex (List.all_eq_true.mp hhex c hc)) n)

theorem moves_str (s : Str) (n : ℕ) : Moves (.outside n) s.text (.outside n) := by
  have htail : ∀ ps : List Piece, Moves (.inside n) (Str.tail ps) (.outside n) := by
    intro ps
    induction ps with
    | nil => exact Moves.cons rfl (Or.inl rfl) (Moves.nil _)
    | cons p ps ih =>
      rw [Str.tail_cons]
      exact (moves_piece p n).append ih
  exact Moves.cons rfl (Or.inr (Or.inl (by decide))) (htail s.pieces)

theorem moves_space (w : Ws) (n : ℕ) : Moves (.outside n) w.text (.outside n) := by
  refine moves_outside (fun c hc => ?_) n
  have hws := List.all_eq_true.mp w.isWs_text c hc
  refine ⟨ne_quote_of_isWs hws, ?_, ?_⟩
  · rintro rfl
    exact absurd hws (by decide)
  · rintro rfl
    exact absurd hws (by decide)

theorem moves_word (w : Json.Word) (n : ℕ) : Moves (.outside n) w.text (.outside n) := by
  refine moves_outside (fun c hc => ?_) n
  have hword := List.all_eq_true.mp w.isWordChar c hc
  refine ⟨(isWordChar_plain hword).1, ?_, ?_⟩
  · rintro rfl
    exact absurd hword (by decide)
  · rintro rfl
    exact absurd hword (by decide)

theorem moves_punct (p : Punct) (hopen : p ≠ .beginObject) (hclose : p ≠ .endObject) (n : ℕ) :
    Moves (.outside n) [p.char] (.outside n) := by
  refine moves_outside (List.forall_mem_singleton.mpr ⟨p.char_ne_quote, ?_, ?_⟩) n
  · exact fun h => hopen (Punct.char_injective h)
  · exact fun h => hclose (Punct.char_injective h)

mutual

/-- Inside an object a value leaves the depth as it is. -/
theorem moves_value (v : Value) (n : ℕ) :
    Moves (.outside (n + 1)) (textOf v.lexemes) (.outside (n + 1)) := by
  cases v with
  | word w => exact (moves_word w _).append (Moves.nil _)
  | string s => exact (moves_str s _).append (Moves.nil _)
  | emptyArray w =>
    exact (moves_punct .beginArray nofun nofun _).append
      ((moves_space w _).append (moves_punct .endArray nofun nofun _))
  | array e =>
    simp only [Value.lexemes, textOf_token, textOf_append, textOf_nil, List.append_nil]
    exact (moves_punct .beginArray nofun nofun _).append
      ((moves_elements e n).append (moves_punct .endArray nofun nofun _))
  | emptyObject w =>
    refine Moves.cons rfl (Or.inr (Or.inl (by decide))) ((moves_space w (n + 2)).append ?_)
    exact Moves.cons rfl (Or.inr (Or.inr n.succ_ne_zero)) (Moves.nil _)
  | object m =>
    simp only [Value.lexemes, textOf_token, textOf_append, textOf_nil, List.append_nil]
    refine Moves.cons rfl (Or.inr (Or.inl (by decide))) ((moves_members m (n + 1)).append ?_)
    exact Moves.cons rfl (Or.inr (Or.inr n.succ_ne_zero)) (Moves.nil _)

theorem moves_elements (e : Elements) (n : ℕ) :
    Moves (.outside (n + 1)) (textOf e.lexemes) (.outside (n + 1)) := by
  cases e with
  | one before v after =>
    simp only [Elements.lexemes, textOf_space, textOf_append, textOf_nil, List.append_nil]
    exact (moves_space before _).append ((moves_value v n).append (moves_space after _))
  | more before v after rest =>
    simp only [Elements.lexemes, textOf_space, textOf_token, textOf_append]
    exact (moves_space before _).append ((moves_value v n).append ((moves_space after _).append
      ((moves_punct .valueSeparator nofun nofun _).append (moves_elements rest n))))

theorem moves_members (m : Members) (n : ℕ) :
    Moves (.outside (n + 1)) (textOf m.lexemes) (.outside (n + 1)) := by
  cases m with
  | one before name after before' v after' =>
    simp only [Members.lexemes, textOf_space, textOf_token, textOf_append, textOf_nil,
      List.append_nil]
    exact (moves_space before _).append ((moves_str name _).append ((moves_space after _).append
      ((moves_punct .nameSeparator nofun nofun _).append ((moves_space before' _).append
        ((moves_value v n).append (moves_space after' _))))))
  | more before name after before' v after' rest =>
    simp only [Members.lexemes, textOf_space, textOf_token, textOf_append]
    exact (moves_space before _).append ((moves_str name _).append ((moves_space after _).append
      ((moves_punct .nameSeparator nofun nofun _).append ((moves_space before' _).append
        ((moves_value v n).append ((moves_space after' _).append
          ((moves_punct .valueSeparator nofun nofun _).append (moves_members rest n))))))))

end

/-- The loop returns the text of an object. -/
theorem scanObject_braces {t : Text} (h : Moves (.outside 1) t (.outside 1)) (r : Text) :
    scanObject (.outside 0) ('{' :: (t ++ '}' :: r)) = some ('{' :: (t ++ ['}'])) := by
  have hopen : Moves (.outside 0) ('{' :: t) (.outside 1) :=
    Moves.cons rfl (Or.inr (Or.inl (by decide))) h
  have hscan := hopen ('}' :: r)
  rw [scanObject, if_pos ⟨rfl, rfl, rfl⟩] at hscan
  exact hscan

/-! ## The search for the key -/

/-- A key without escapes that does not start as something outside a string can. -/
structure Findable (key : Text) : Prop where
  clean : ∀ c ∈ key, c ≠ '"' ∧ c ≠ '\\'
  ne_nil : key ≠ []
  head : ∀ c ∈ key.head?, isWs c = false ∧ ∀ p : Punct, c ≠ p.char

/-- What can follow a string. -/
def Apart (r : Text) : Prop := ∀ c ∈ r.head?, isWs c = true ∨ ∃ p : Punct, c = p.char

/-- The spelling of the string ends in the quoted key. -/
def endsIn (key : Text) (s : Str) : Bool := quoted key <:+ s.text

section search

variable {key : Text}

/-- A key in a string up to a quote is the whole rest of the string. -/
theorem prefix_tail_iff (hkey : ∀ c ∈ key, c ≠ '"' ∧ c ≠ '\\') (ps : List Piece) (r : Text) :
    key ++ ['"'] <+: Str.tail ps ++ r ↔ key ++ ['"'] = Str.tail ps := by
  constructor
  · intro h
    induction key generalizing ps with
    | nil =>
      cases ps with
      | nil => rfl
      | cons p ps =>
        rw [Str.tail_cons, List.append_assoc] at h
        obtain ⟨t, ht⟩ := h
        exact absurd ht.symm (p.text_ne_quote _ t)
    | cons k key ih =>
      obtain ⟨hk, hkey'⟩ := List.forall_mem_cons.mp hkey
      cases ps with
      | nil => exact absurd (List.cons_prefix_cons.mp h).1 hk.1
      | cons p ps =>
        rw [Str.tail_cons, List.append_assoc] at h
        cases p with
        | plain c hc =>
          obtain ⟨rfl, hpre⟩ := List.cons_prefix_cons.mp h
          rw [Str.tail_cons, List.cons_append, ih hkey' ps hpre]
          rfl
        | escape c hc => exact absurd (List.cons_prefix_cons.mp h).1 hk.2
        | code digits hlen hhex => exact absurd (List.cons_prefix_cons.mp h).1 hk.2
  · intro h
    rw [h]
    exact List.prefix_append _ _

/-- The search at a quote before the rest of a string, from the search in that rest. -/
theorem findAfter_quote (hkey : Findable key) {ps : List Piece} {r : Text}
    (htail : findAfter (quoted key) (Str.tail ps ++ r) =
      if quoted key <:+ Str.tail ps then some r else findAfter (quoted key) r) :
    findAfter (quoted key) ('"' :: (Str.tail ps ++ r)) =
      if quoted key <:+ '"' :: Str.tail ps then some r else findAfter (quoted key) r := by
  have hpre : quoted key <+: '"' :: (Str.tail ps ++ r) ↔ key ++ ['"'] = Str.tail ps := by
    unfold quoted
    rw [List.cons_prefix_cons, prefix_tail_iff hkey.clean]
    exact and_iff_right rfl
  have hsuffix : quoted key <:+ '"' :: Str.tail ps ↔
      key ++ ['"'] = Str.tail ps ∨ quoted key <:+ Str.tail ps := by
    unfold quoted
    rw [List.suffix_cons_iff, List.cons_eq_cons, and_iff_right rfl]
  rw [findAfter]
  by_cases heq : key ++ ['"'] = Str.tail ps
  · rw [if_pos (hpre.mpr heq), if_pos (hsuffix.mpr (Or.inl heq))]
    unfold quoted
    rw [heq, List.length_cons, List.drop_succ_cons, List.drop_left]
  · rw [if_neg (mt hpre.mp heq), htail]
    simp only [hsuffix, heq, false_or]

theorem quote_mem_piece {p : Piece} (h : '"' ∈ p.text) : p.text = ['\\', '"'] := by
  cases p with
  | plain c hc =>
    obtain rfl := List.mem_singleton.mp h
    exact absurd rfl (ne_quote_of_isUnescaped hc).1
  | escape c hc =>
    rcases List.mem_cons.mp h with h | h
    · exact absurd h (by decide)
    · obtain rfl := List.mem_singleton.mp h
      rfl
  | code digits hlen hhex =>
    rcases List.mem_cons.mp h with h | h
    · exact absurd h (by decide)
    · rcases List.mem_cons.mp h with h | h
      · exact absurd h (by decide)
      · exact absurd rfl (ne_quote_of_isHex (List.all_eq_true.mp hhex _ h)).1

/-- The search in the rest of a string. -/
theorem findAfter_tail (hkey : Findable key) (ps : List Piece) {r : Text} (hr : Apart r) :
    findAfter (quoted key) (Str.tail ps ++ r) =
      if quoted key <:+ Str.tail ps then some r else findAfter (quoted key) r := by
  induction ps with
  | nil =>
    -- The closing quote: what follows does not start as the key does.
    obtain ⟨k, key', rfl⟩ := List.exists_cons_of_ne_nil hkey.ne_nil
    have hsuffix : ¬ quoted (k :: key') <:+ Str.tail [] := by
      intro h
      have hlen := h.length_le
      simp [quoted, Str.tail] at hlen
    have hpre : ¬ quoted (k :: key') <+: '"' :: r := by
      intro h
      obtain ⟨t, ht⟩ := (List.cons_prefix_cons.mp h).2
      rw [← ht] at hr
      obtain ⟨hws, hpunct⟩ := hkey.head k rfl
      rcases hr k rfl with h | ⟨p, h⟩
      · rw [hws] at h
        cases h
      · exact hpunct p h
    rw [if_neg hsuffix, Str.tail_nil, List.singleton_append, findAfter, if_neg hpre]
  | cons p ps ih =>
    rw [Str.tail_cons]
    by_cases hquote : '"' ∈ p.text
    · have hsuffix : quoted key <:+ '\\' :: '"' :: Str.tail ps ↔
          quoted key <:+ '"' :: Str.tail ps :=
        suffix_append_iff (a := ['\\']) (by decide)
      rw [quote_mem_piece hquote]
      show findAfter (quoted key) ('\\' :: '"' :: (Str.tail ps ++ r)) =
        if quoted key <:+ '\\' :: '"' :: Str.tail ps then _ else _
      simp only [hsuffix]
      exact (findAfter_cons_of_ne (by decide)).trans (findAfter_quote hkey ih)
    · have hsuffix : quoted key <:+ p.text ++ Str.tail ps ↔ quoted key <:+ Str.tail ps :=
        suffix_append_iff hquote
      have hskip : findAfter (quoted key) (p.text ++ (Str.tail ps ++ r)) =
          findAfter (quoted key) (Str.tail ps ++ r) := findAfter_append hquote
      rw [List.append_assoc, hskip, ih]
      simp only [hsuffix]

/-- The search in a string. -/
theorem findAfter_str (hkey : Findable key) (s : Str) {r : Text} (hr : Apart r) :
    findAfter (quoted key) (s.text ++ r) =
      if endsIn key s then some r else findAfter (quoted key) r := by
  have hfind := findAfter_quote hkey (findAfter_tail hkey s.pieces hr)
  unfold endsIn Str.text
  simp only [decide_eq_true_eq]
  exact hfind

end search

/-! ## What is read after the key -/

/-- What is read of a value: a string up to its first quote, an object as a whole. -/
def valueSlice : Value → Option Text
  | .string s => some ('"' :: ((Str.tail s.pieces).takeWhile (· ≠ '"') ++ ['"']))
  | .emptyObject w => some (Value.emptyObject w).text
  | .object m => some (Value.object m).text
  | _ => none

/-- What can follow a value: white space, and then the end of the text, of the element or
    member, or of the array or object. -/
def Ended (r : Text) : Prop :=
  ∃ (w : Ws) (t : Text), r = w.text ++ t ∧ ∀ c ∈ t.head?, c = ',' ∨ c = ']' ∨ c = '}'

theorem quote_notMem_space (w : Ws) : '"' ∉ w.text :=
  fun h => ne_quote_of_isWs (List.all_eq_true.mp w.isWs_text _ h) rfl

theorem apart_space (w : Ws) {r : Text} (h : Apart r) : Apart (w.text ++ r) := by
  intro c hc
  rcases hw : w.text with _ | ⟨d, t⟩
  · rw [hw] at hc
    exact h c hc
  · rw [hw] at hc
    obtain rfl := Option.some.inj hc
    refine Or.inl (List.all_eq_true.mp w.isWs_text d ?_)
    rw [hw]
    exact List.mem_cons_self

theorem apart_punct (p : Punct) (r : Text) : Apart (p.char :: r) := by
  intro c hc
  exact Or.inr ⟨p, (Option.some.inj hc).symm⟩

theorem Ended.apart {r : Text} (h : Ended r) : Apart r := by
  obtain ⟨w, t, rfl, ht⟩ := h
  refine apart_space w fun c hc => Or.inr ?_
  rcases ht c hc with rfl | rfl | rfl
  · exact ⟨.valueSeparator, rfl⟩
  · exact ⟨.endArray, rfl⟩
  · exact ⟨.endObject, rfl⟩

theorem Ended.space {r : Text} (h : Ended r) (w : Ws) : Ended (w.text ++ r) := by
  obtain ⟨w', t, rfl, ht⟩ := h
  refine ⟨⟨w.text ++ w'.text, ?_⟩, t, (List.append_assoc ..).symm, ht⟩
  rw [List.all_append, w.isWs_text, w'.isWs_text]
  rfl

theorem ended_nil : Ended [] := ⟨⟨[], rfl⟩, [], rfl, fun _ h => nomatch h⟩

theorem ended_cons {c : Char} (h : c = ',' ∨ c = ']' ∨ c = '}') (r : Text) : Ended (c :: r) :=
  ⟨⟨[], rfl⟩, c :: r, rfl, fun _ hd => Option.some.inj hd ▸ h⟩

theorem trimStart_space (w : Ws) {t : Text} (h : ∀ c ∈ t.head?, isWhitespace c = false) :
    trimStart (w.text ++ t) = t := by
  unfold trimStart
  rw [List.dropWhile_append_of_pos
    fun c hc => isWhitespace_of_isWs (List.all_eq_true.mp w.isWs_text c hc)]
  cases t with
  | nil => rfl
  | cons c t => exact List.dropWhile_cons_of_neg (by rw [h c rfl]; exact Bool.false_ne_true)

/-- Nothing is read after a string that is not a name. -/
theorem valueAfter_ended {r : Text} (h : Ended r) : valueAfter r = none := by
  obtain ⟨w, t, rfl, ht⟩ := h
  have hws : ∀ c ∈ t.head?, isWhitespace c = false := by
    intro c hc
    rcases ht c hc with rfl | rfl | rfl
    · decide
    · decide
    · decide
  have hcolon : ¬ [':'] <+: t := by
    rintro ⟨u, rfl⟩
    rcases ht ':' rfl with h | h | h
    · exact absurd h (by decide)
    · exact absurd h (by decide)
    · exact absurd h (by decide)
  unfold valueAfter
  rw [trimStart_space w hws, stripPrefix_eq_none hcolon, Option.bind_none]

/-- The first character of a value. -/
theorem value_head (v : Value) (r : Text) :
    ∀ c ∈ (textOf v.lexemes ++ r).head?, isWhitespace c = false := by
  intro c hc
  cases v with
  | word w =>
    obtain ⟨d, t, hw, hd⟩ := w.exists_cons
    rw [textOf_word, hw] at hc
    obtain rfl := Option.some.inj hc
    exact (isWordChar_plain hd).2
  | string s =>
    obtain rfl := Option.some.inj hc
    decide
  | emptyArray w =>
    obtain rfl := Option.some.inj hc
    decide
  | array e =>
    obtain rfl := Option.some.inj hc
    decide
  | emptyObject w =>
    obtain rfl := Option.some.inj hc
    decide
  | object m =>
    obtain rfl := Option.some.inj hc
    decide

theorem splitOnce_tail (ps : List Piece) (r : Text) :
    (splitOnce '"' (Str.tail ps ++ r)).map (fun p => '"' :: (p.1 ++ ['"'])) =
      some ('"' :: ((Str.tail ps).takeWhile (· ≠ '"') ++ ['"'])) := by
  have hmem : '"' ∈ Str.tail ps := List.mem_append_right _ List.mem_cons_self
  obtain ⟨a, b, htail, ha⟩ := List.eq_append_cons_of_mem hmem
  have hne : ∀ c ∈ a, decide (c ≠ '"') = true := fun c hc => decide_eq_true fun h => ha (h ▸ hc)
  rw [htail, List.append_assoc, List.cons_append, splitOnce_append ha, Option.map_some,
    List.takeWhile_append_of_pos hne, List.takeWhile_cons_of_neg (by decide), List.append_nil]

/-- What is read where a value starts. -/
theorem readValue_value (v : Value) (r : Text) :
    readValue (textOf v.lexemes ++ r) = valueSlice v := by
  cases v with
  | word w =>
    obtain ⟨c, t, hw, hc⟩ := w.exists_cons
    have hopen : c ≠ '{' := by
      rintro rfl
      exact absurd hc (by decide)
    rw [textOf_word, hw]
    show (if c = '"' then _ else if c = '{' then _ else none) = none
    rw [if_neg (isWordChar_plain hc).1, if_neg hopen]
  | string s =>
    rw [textOf_string]
    exact splitOnce_tail s.pieces r
  | emptyArray w => rfl
  | array e => rfl
  | emptyObject w =>
    show scanObject (.outside 0) ('{' :: ((w.text ++ ['}']) ++ r)) = _
    rw [List.append_assoc]
    exact scanObject_braces (moves_space w 1) r
  | object m =>
    have htext : textOf (Value.object m).lexemes = '{' :: (textOf m.lexemes ++ ['}']) := by
      simp only [Value.lexemes, textOf_token, textOf_append, textOf_nil]
      rfl
    have hslice : valueSlice (.object m) = some ('{' :: (textOf m.lexemes ++ ['}'])) :=
      congrArg some htext
    rw [hslice, htext, List.cons_append, List.append_assoc]
    exact scanObject_braces (moves_members m 0) r

/-- The value of a member is read after its name. -/
theorem valueAfter_name (w w' : Ws) (v : Value) (r : Text) :
    valueAfter (w.text ++ ':' :: (w'.text ++ (textOf v.lexemes ++ r))) = valueSlice v := by
  have hcolon : ∀ c ∈ (':' :: (w'.text ++ (textOf v.lexemes ++ r))).head?,
      isWhitespace c = false := by
    intro c hc
    obtain rfl := Option.some.inj hc
    decide
  have hstrip := stripPrefix_append [':'] (w'.text ++ (textOf v.lexemes ++ r))
  rw [List.singleton_append] at hstrip
  unfold valueAfter
  rw [trimStart_space w hcolon, hstrip, Option.bind_some, trimStart_space w' (value_head v r),
    readValue_value]

/-! ## The search in a JSON text -/

/-- What is read at a string of the text. -/
def readAt : Occurrence → Option Text
  | .name _ v => valueSlice v
  | .value _ => none

/-- What is read at the first string that ends in the key. -/
def readFirst (key : Text) (l : List Occurrence) : Option Text :=
  (l.find? fun o => endsIn key o.str).bind readAt

section look

variable {key : Text}

/-- What is read at the strings `l`, or else `x`. -/
def firstOr (key : Text) (l : List Occurrence) (x : Option Text) : Option Text :=
  l.foldr (fun o x => if endsIn key o.str then readAt o else x) x

theorem firstOr_append (l l' : List Occurrence) (x : Option Text) :
    firstOr key (l ++ l') x = firstOr key l (firstOr key l' x) := List.foldr_append ..

theorem look_skip {a : Text} (h : '"' ∉ a) (r : Text) :
    jsonValueAfterKey (a ++ r) key = jsonValueAfterKey r key := by
  unfold jsonValueAfterKey quoted
  rw [findAfter_append h]

theorem look_cons {c : Char} (h : '"' ∉ [c]) (r : Text) :
    jsonValueAfterKey (c :: r) key = jsonValueAfterKey r key := look_skip h r

theorem look_space (w : Ws) (r : Text) :
    jsonValueAfterKey (w.text ++ r) key = jsonValueAfterKey r key :=
  look_skip (quote_notMem_space w) r

theorem look_str (hkey : Findable key) (s : Str) {r : Text} (hr : Apart r) :
    jsonValueAfterKey (s.text ++ r) key =
      if endsIn key s then valueAfter r else jsonValueAfterKey r key := by
  unfold jsonValueAfterKey
  rw [findAfter_str hkey s hr]
  split_ifs with h
  · rfl
  · rfl

/-- A member, up to its value. -/
theorem look_name (hkey : Findable key) (name : Str) (w w' : Ws) (v : Value) (r : Text) :
    jsonValueAfterKey (name.text ++ (w.text ++ ':' :: (w'.text ++ (textOf v.lexemes ++ r)))) key =
      if endsIn key name then valueSlice v else jsonValueAfterKey (textOf v.lexemes ++ r) key := by
  have hcolon : Apart (':' :: (w'.text ++ (textOf v.lexemes ++ r))) := apart_punct .nameSeparator _
  rw [look_str hkey name (apart_space w hcolon), valueAfter_name, look_space,
    look_cons (by decide), look_space]

mutual

/-- The search in a value and in what follows it: the strings of the value come first. -/
theorem look_value (hkey : Findable key) (v : Value) {r : Text} (hr : Ended r) :
    jsonValueAfterKey (textOf v.lexemes ++ r) key =
      firstOr key v.strings (jsonValueAfterKey r key) := by
  cases v with
  | word w =>
    have hquote : '"' ∉ w.text := fun h =>
      (isWordChar_plain (List.all_eq_true.mp w.isWordChar _ h)).1 rfl
    rw [textOf_word]
    exact look_skip hquote r
  | string s =>
    -- A string that is not a name has no colon after it.
    rw [textOf_string, look_str hkey s hr.apart, valueAfter_ended hr]
    rfl
  | emptyArray w =>
    show jsonValueAfterKey ('[' :: (w.text ++ [']'] ++ r)) key = _
    rw [look_cons (by decide), List.append_assoc, look_space]
    exact look_cons (by decide) r
  | array e =>
    simp only [Value.lexemes, textOf_token, textOf_append, textOf_nil, List.append_nil,
      List.append_assoc]
    show jsonValueAfterKey ('[' :: (textOf e.lexemes ++ ']' :: r)) key = _
    rw [look_cons (by decide), look_elements hkey e (ended_cons (by decide) r),
      look_cons (by decide)]
    rfl
  | emptyObject w =>
    show jsonValueAfterKey ('{' :: (w.text ++ ['}'] ++ r)) key = _
    rw [look_cons (by decide), List.append_assoc, look_space]
    exact look_cons (by decide) r
  | object m =>
    simp only [Value.lexemes, textOf_token, textOf_append, textOf_nil, List.append_nil,
      List.append_assoc]
    show jsonValueAfterKey ('{' :: (textOf m.lexemes ++ '}' :: r)) key = _
    rw [look_cons (by decide), look_members hkey m (ended_cons (by decide) r),
      look_cons (by decide)]
    rfl

theorem look_elements (hkey : Findable key) (e : Elements) {r : Text} (hr : Ended r) :
    jsonValueAfterKey (textOf e.lexemes ++ r) key =
      firstOr key e.strings (jsonValueAfterKey r key) := by
  cases e with
  | one before v after =>
    simp only [Elements.lexemes, textOf_space, textOf_append, textOf_nil, List.append_nil,
      List.append_assoc]
    rw [look_space, look_value hkey v (hr.space after), look_space]
    rfl
  | more before v after rest =>
    simp only [Elements.lexemes, textOf_space, textOf_token, textOf_append, List.append_assoc]
    have hcomma : Ended (',' :: (textOf rest.lexemes ++ r)) := ended_cons (by decide) _
    show jsonValueAfterKey (before.text ++ (textOf v.lexemes ++ (after.text ++
      ',' :: (textOf rest.lexemes ++ r)))) key = _
    rw [look_space, look_value hkey v (hcomma.space after), look_space, look_cons (by decide),
      look_elements hkey rest hr, ← firstOr_append]
    rfl

theorem look_members (hkey : Findable key) (m : Members) {r : Text} (hr : Ended r) :
    jsonValueAfterKey (textOf m.lexemes ++ r) key =
      firstOr key m.strings (jsonValueAfterKey r key) := by
  cases m with
  | one before name after before' v after' =>
    simp only [Members.lexemes, textOf_space, textOf_token, textOf_append, textOf_nil,
      List.append_nil, List.append_assoc]
    show jsonValueAfterKey (before.text ++ (name.text ++ (after.text ++ ':' ::
      (before'.text ++ (textOf v.lexemes ++ (after'.text ++ r)))))) key = _
    rw [look_space, look_name hkey, look_value hkey v (hr.space after'), look_space]
    rfl
  | more before name after before' v after' rest =>
    simp only [Members.lexemes, textOf_space, textOf_token, textOf_append, List.append_assoc]
    have hcomma : Ended (',' :: (textOf rest.lexemes ++ r)) := ended_cons (by decide) _
    show jsonValueAfterKey (before.text ++ (name.text ++ (after.text ++ ':' ::
      (before'.text ++ (textOf v.lexemes ++ (after'.text ++
        ',' :: (textOf rest.lexemes ++ r))))))) key = _
    rw [look_space, look_name hkey, look_value hkey v (hcomma.space after'), look_space,
      look_cons (by decide), look_members hkey rest hr, ← firstOr_append]
    rfl

end

theorem firstOr_none (l : List Occurrence) : firstOr key l none = readFirst key l := by
  unfold readFirst
  induction l with
  | nil => rfl
  | cons o l ih =>
    show (if endsIn key o.str then readAt o else firstOr key l none) = _
    rw [List.find?_cons, ih]
    cases endsIn key o.str with
    | true => rfl
    | false => rfl

/-- The first string of a JSON text that ends in the key decides what is read. -/
theorem jsonValueAfterKey_eq (hkey : Findable key) (d : Document) :
    jsonValueAfterKey d.text key = readFirst key d.value.strings := by
  have hend : jsonValueAfterKey [] key = none := rfl
  unfold Document.text Document.lexemes
  simp only [textOf_space, textOf_append, textOf_nil]
  rw [look_space, look_value hkey d.value (ended_nil.space d.after), look_space, hend, firstOr_none]

end look

/-! ## The template of a config -/

/-- A value that names a template: an object, or a string without escapes. -/
def isTemplate : Value → Bool
  | .string s => s.isPlain
  | v => v.isObject

/-- A value that is read: an object or a string. -/
def isReadable : Value → Bool
  | .string _ => true
  | v => v.isObject

/-- What is read of a config is the text of its template, and nothing if it has none. -/
def Detects (d : Document) (read : Option Text) : Prop :=
  match d.value.member "cpu-config".toList with
  | some v => isTemplate v = true → read = some v.text
  | none => read = none

/-- The first string of the config whose spelling ends in the quoted key. -/
def firstHit (d : Document) : Option Occurrence :=
  d.value.strings.find? fun o => endsIn "cpu-config".toList o.str

/-- The first such string is the name of a value that is spelled as the template is. Without a
    template it is not the name of an object or a string. -/
def Unshadowed (d : Document) : Prop :=
  match d.value.member "cpu-config".toList with
  | some v => isTemplate v = true → ∃ s v', firstHit d = some (.name s v') ∧ v'.text = v.text
  | none => ∀ s v', firstHit d = some (.name s v') → isReadable v' = false

theorem findable_cpuConfig : Findable "cpu-config".toList where
  clean := by
    have hall : ("cpu-config".toList.all fun c => c ≠ '"' ∧ c ≠ '\\') = true := by decide
    exact fun c hc => of_decide_eq_true (List.all_eq_true.mp hall c hc)
  ne_nil := by decide
  head := by
    intro c hc
    obtain rfl := Option.some.inj hc
    refine ⟨by decide, fun p => ?_⟩
    cases p <;> decide

theorem valueSlice_eq_none_iff (v : Value) : valueSlice v = none ↔ isReadable v = false := by
  cases v with
  | word w => exact ⟨fun _ => rfl, fun _ => rfl⟩
  | string s => exact ⟨nofun, nofun⟩
  | emptyArray w => exact ⟨fun _ => rfl, fun _ => rfl⟩
  | array e => exact ⟨fun _ => rfl, fun _ => rfl⟩
  | emptyObject w => exact ⟨nofun, nofun⟩
  | object m => exact ⟨nofun, nofun⟩

/-- The characters of a string without escapes. -/
theorem tail_plain {ps : List Piece} (h : Str.isPlain ⟨ps⟩ = true) :
    ∃ t : Text, Str.tail ps = t ++ ['"'] ∧ ∀ c ∈ t, c ≠ '"' ∧ c ≠ '\\' := by
  induction ps with
  | nil => exact ⟨[], rfl, List.forall_mem_nil _⟩
  | cons p ps ih =>
    unfold Str.isPlain at h
    rw [List.all_cons, Bool.and_eq_true] at h
    obtain ⟨t, ht, hclean⟩ := ih h.2
    cases p with
    | plain c hc =>
      refine ⟨c :: t, ?_, List.forall_mem_cons.mpr ⟨ne_quote_of_isUnescaped hc, hclean⟩⟩
      rw [Str.tail_cons, ht]
      rfl
    | escape c hc => exact absurd h.1 Bool.false_ne_true
    | code digits hlen hhex => exact absurd h.1 Bool.false_ne_true

/-- A string without escapes is read as a whole, and no other string is read as it. -/
theorem valueSlice_string_iff {s s' : Str} (h : s.isPlain = true) :
    valueSlice (.string s') = some s.text ↔ s'.text = s.text := by
  obtain ⟨t, ht, hclean⟩ := tail_plain h
  have hmem : '"' ∈ Str.tail s'.pieces := List.mem_append_right _ List.mem_cons_self
  obtain ⟨a, b, htail, ha⟩ := List.eq_append_cons_of_mem hmem
  have hne : ∀ c ∈ a, decide (c ≠ '"') = true := fun c hc => decide_eq_true fun h => ha (h ▸ hc)
  have hslice : valueSlice (.string s') = some ('"' :: (a ++ ['"'])) := by
    show some ('"' :: ((Str.tail s'.pieces).takeWhile (· ≠ '"') ++ ['"'])) = _
    rw [htail, List.takeWhile_append_of_pos hne, List.takeWhile_cons_of_neg (by decide),
      List.append_nil]
  have htext : s.text = '"' :: (t ++ ['"']) := congrArg (List.cons '"') ht
  rw [hslice, htext, Option.some_inj, List.cons_inj_right, List.append_left_inj]
  constructor
  · rintro rfl
    have hpre : a ++ ['"'] <+: Str.tail s'.pieces ++ [] := by
      rw [htail, List.append_nil, ← List.singleton_append (l := b), ← List.append_assoc]
      exact List.prefix_append _ _
    exact congrArg (List.cons '"') ((prefix_tail_iff hclean _ _).mp hpre).symm
  · intro heq
    have htail' : a ++ '"' :: b = t ++ '"' :: [] := htail.symm.trans (List.cons.inj heq).2
    exact (append_cons_inj ha (fun hq => (hclean _ hq).1 rfl) htail').1

/-- A template is read exactly where a value is spelled as it is. -/
theorem valueSlice_eq_iff {v : Value} (h : isTemplate v = true) (v' : Value) :
    valueSlice v' = some v.text ↔ v'.text = v.text := by
  have hhead : ∃ c t, v.text = c :: t ∧ (c = '"' ∨ c = '{') := by
    cases v with
    | word w => cases h
    | string s => exact ⟨'"', _, rfl, Or.inl rfl⟩
    | emptyArray w => cases h
    | array e => cases h
    | emptyObject w => exact ⟨'{', _, rfl, Or.inr rfl⟩
    | object m => exact ⟨'{', _, rfl, Or.inr rfl⟩
  obtain ⟨c, t, hv, hc⟩ := hhead
  cases v' with
  | word w =>
    refine ⟨nofun, fun heq => ?_⟩
    obtain ⟨d, u, hw, hd⟩ := w.exists_cons
    rw [Value.text, textOf_word, hw, hv] at heq
    obtain ⟨rfl, -⟩ := List.cons.inj heq
    rcases hc with rfl | rfl
    · exact absurd hd (by decide)
    · exact absurd hd (by decide)
  | string s' =>
    cases v with
    | word w => cases h
    | string s =>
      rw [Value.text, Value.text, textOf_string, textOf_string]
      exact valueSlice_string_iff h
    | emptyArray w => cases h
    | array e => cases h
    | emptyObject w => exact ⟨fun heq => absurd (List.cons.inj (Option.some.inj heq)).1 (by decide),
        fun heq => absurd (List.cons.inj heq).1 (by decide)⟩
    | object m => exact ⟨fun heq => absurd (List.cons.inj (Option.some.inj heq)).1 (by decide),
        fun heq => absurd (List.cons.inj heq).1 (by decide)⟩
  | emptyArray w =>
    refine ⟨nofun, fun heq => ?_⟩
    rw [hv] at heq
    obtain ⟨rfl, -⟩ := List.cons.inj heq
    exact absurd hc (by decide)
  | array e =>
    refine ⟨nofun, fun heq => ?_⟩
    rw [hv] at heq
    obtain ⟨rfl, -⟩ := List.cons.inj heq
    exact absurd hc (by decide)
  | emptyObject w => exact Option.some_inj
  | object m => exact Option.some_inj

/-- What is read of the config of a VMM is its template if and only if no other string of the
    config comes before its name. -/
theorem jsonValueAfterKey_detects_iff (d : Document) :
    Detects d (jsonValueAfterKey d.text "cpu-config".toList) ↔ Unshadowed d := by
  rw [jsonValueAfterKey_eq findable_cpuConfig]
  unfold Detects Unshadowed readFirst
  show (match d.value.member "cpu-config".toList with
    | some v => isTemplate v = true → (firstHit d).bind readAt = some v.text
    | none => (firstHit d).bind readAt = none) ↔ _
  cases d.value.member "cpu-config".toList with
  | some v =>
    refine imp_congr_right fun hv => ?_
    rw [Option.bind_eq_some_iff]
    constructor
    · rintro ⟨o, ho, hread⟩
      cases o with
      | name s v' => exact ⟨s, v', ho, (valueSlice_eq_iff hv v').mp hread⟩
      | value s => cases hread
    · rintro ⟨s, v', ho, htext⟩
      exact ⟨_, ho, (valueSlice_eq_iff hv v').mpr htext⟩
  | none =>
    rw [Option.bind_eq_none_iff]
    constructor
    · intro h s v' ho
      exact (valueSlice_eq_none_iff v').mp (h _ ho)
    · intro h o ho
      cases o with
      | name s v' => exact (valueSlice_eq_none_iff v').mpr (h s v' ho)
      | value s => rfl

example : jsonValueAfterKey
    "\x7b \"cpu-config\": \x7b\"m\":[\x7b\"bitmap\":\"0bx\x7bx\"\x7d]\x7d, \"x\": 1 \x7d".toList
    "cpu-config".toList =
      some "\x7b\"m\":[\x7b\"bitmap\":\"0bx\x7bx\"\x7d]\x7d".toList := by decide +kernel

/-- A VMM with such a config is taken to have no template exactly when it has none. -/
theorem vmmCpuTemplate_eq_none_iff {sha256 : List UInt8 → List UInt8}
    {readToString : Text → Except Text Text} {args : List Text} {path : Text} {d : Document}
    (hargs : configFile args = some path) (hread : readToString path = .ok d.text)
    (hd : Unshadowed d)
    (hvalue : ∀ v, d.value.member "cpu-config".toList = some v → isTemplate v = true) :
    vmmCpuTemplate sha256 readToString args = .ok none ↔
      d.value.member "cpu-config".toList = none := by
  have hdetects := (jsonValueAfterKey_detects_iff d).mpr hd
  unfold Detects at hdetects
  unfold vmmCpuTemplate
  simp only [hargs, hread]
  cases hmember : d.value.member "cpu-config".toList with
  | none =>
    rw [hmember] at hdetects
    simp only [hdetects]
  | some v =>
    rw [hmember] at hdetects
    simp only [hdetects (hvalue v hmember), reduceCtorEq, iff_false]
    -- The process dies or has a template in every other case.
    cases stripPrefix ['"'] v.text with
    | none => nofun
    | some rest =>
      simp only
      split_ifs with hescape
      · nofun
      · cases readToString (unquoteEnd rest) with
        | error e => nofun
        | ok template => nofun

/-- A string without escapes, of the characters that need none. -/
def plainStr (t : Text) : Str :=
  ⟨t.filterMap fun c => if h : isUnescaped c = true then some (.plain c h) else none⟩

def noSpace : Ws := ⟨[], rfl⟩

/-- A config with a template, after a logger that filters on a module named as the key. -/
def loggerConfig : Document where
  before := noSpace
  value := .object
    (.more noSpace (plainStr "logger".toList) noSpace noSpace
      (.object (.one noSpace (plainStr "module".toList) noSpace noSpace
        (.string (plainStr "cpu-config".toList)) noSpace)) noSpace
      (.one noSpace (plainStr "cpu-config".toList) noSpace noSpace
        (.string (plainStr "/nix/store/cpu.json".toList)) noSpace))
  after := noSpace

/-- The VMM is taken to have no template. -/
theorem loggerConfig_undetected :
    loggerConfig.text = "\x7b\"logger\":\x7b\"module\":\"cpu-config\"\x7d,".toList ++
        "\"cpu-config\":\"/nix/store/cpu.json\"\x7d".toList ∧
      (loggerConfig.value.member "cpu-config".toList).map Value.text =
        some "\"/nix/store/cpu.json\"".toList ∧
      jsonValueAfterKey loggerConfig.text "cpu-config".toList = none ∧
      ¬ Detects loggerConfig (jsonValueAfterKey loggerConfig.text "cpu-config".toList) := by
  have hnone : jsonValueAfterKey loggerConfig.text "cpu-config".toList = none := by decide +kernel
  refine ⟨by decide +kernel, by decide +kernel, hnone, ?_⟩
  have hmember : loggerConfig.value.member "cpu-config".toList =
      some (.string (plainStr "/nix/store/cpu.json".toList)) := by rfl
  rw [hnone]
  unfold Detects
  rw [hmember]
  intro h
  cases h (by decide +kernel)

end Kubenyx.Snap
