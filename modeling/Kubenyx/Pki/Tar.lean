import Kubenyx.Common.Slice
import Kubenyx.Pki.Mint

/-!
# The tar stream of the custody files

Model of `tar_header` and `tar_bundle` (lib.rs:847-889), which put the custody files into
one ustar stream for the servers of a mesh. A copy that is out of bounds panics.

* `parseTar`: a reader of ustar streams, as the one of the tests (lib.rs:1015-1039), that
  returns the contents as well.
* `tarHeader_spec`: what the reader finds in a header.
* `tarBundle_reads`: it reads from the stream what the custody files are.
-/

namespace Kubenyx.Pki

open Kubenyx.Common

/-! ## The writer -/

/-- `{x:0w$o}`: octal, with zeros in front up to a width. -/
def octal (w x : ℕ) : Text := List.replicate (w - (Nat.toDigits 8 x).length) '0' ++ Nat.toDigits 8 x

/-- `h.iter().map(|b| u32::from(*b)).sum()`. -/
def byteSum (h : List UInt8) : ℕ := (h.map UInt8.toNat).sum

/-- `tar_header` (lib.rs:851-873), `none` where it panics. -/
def tarHeader (name : Text) (size : ℕ) : Option (List UInt8) := do
  let h := List.replicate 512 0
  let h ← copyFromSlice h 0 (utf8 name).length (utf8 name)
  let h ← copyFromSlice h 100 108 (utf8 "0000600\x00".toList)
  let h ← copyFromSlice h 108 116 (utf8 "0000000\x00".toList)
  let h ← copyFromSlice h 116 124 (utf8 "0000000\x00".toList)
  let h ← copyFromSlice h 124 136 (utf8 (octal 11 size ++ "\x00".toList))
  let h ← copyFromSlice h 136 148 (utf8 "00000000000\x00".toList)
  let h ← copyFromSlice h 156 157 (utf8 "0".toList)
  let h ← copyFromSlice h 257 263 (utf8 "ustar\x00".toList)
  let h ← copyFromSlice h 263 265 (utf8 "00".toList)
  let h ← copyFromSlice h 148 156 (utf8 "        ".toList)
  let sum := byteSum h
  let h ← copyFromSlice h 148 155 (utf8 (octal 6 sum ++ "\x00".toList))
  copyFromSlice h 155 156 (utf8 " ".toList)

/-- `next_multiple_of`. -/
def nextMultipleOf (n m : ℕ) : ℕ := if n % m = 0 then n else n + (m - n % m)

/-- `out.resize(len, 0)`, of a vector that is not longer. -/
def resize (out : List UInt8) (len : ℕ) : List UInt8 := out ++ List.replicate (len - out.length) 0

/-- One custody file (lib.rs:880-885). -/
def tarFile (out : List UInt8) (f : Text) : Prog (List UInt8) := do
  match ← FileProg.readFile (inPki f) with
  | none => die ("serve: read ".toList ++ f ++ ": ".toList ++ IoError.notFound.display)
  | some c =>
    match tarHeader f c.bytes.length with
    | none => panic "copy_from_slice".toList
    | some h =>
      let out := out ++ h ++ c.bytes
      return resize out (nextMultipleOf out.length 512)

/-- `tar_bundle` (lib.rs:878-889). -/
def tarBundle : Prog (List UInt8) := do
  let out ← CUSTODY_FILES.foldlM tarFile []
  return resize out (out.length + 1024)

/-! ## The reader -/

/-- The number that octal digits denote. -/
def parseOctal (s : List UInt8) : Option ℕ :=
  if s ≠ [] ∧ ∀ b ∈ s, 48 ≤ b.toNat ∧ b.toNat ≤ 55 then
    some (s.foldl (fun n b => 8 * n + (b.toNat - 48)) 0)
  else none

/-- An entry of the stream. -/
structure TarEntry where
  name : List UInt8
  size : ℕ
  data : List UInt8
  deriving DecidableEq, Repr

/-- The name and the size in a header, if its magic and its checksum are right. The checksum
    is that of the header with blanks for the checksum. -/
def parseHeader (h : List UInt8) : Option (List UInt8 × ℕ) := do
  guard (slice h 257 263 = utf8 "ustar\x00".toList)
  let stored ← parseOctal (slice h 148 154)
  guard (stored = byteSum h - byteSum (slice h 148 156) + 8 * 32)
  guard (0 ∈ h)
  let size ← parseOctal (slice h 124 135)
  return (h.takeWhile (· ≠ 0), size)

/-- Headers and contents up to two zero blocks, which end the stream. -/
def parseTar (p : List UInt8) : Option (List TarEntry) :=
  if 512 ≤ p.length then
    if (p.take 512).any (· ≠ 0) then
      match parseHeader (p.take 512) with
      | none => none
      | some (name, size) =>
        if size ≤ (p.drop 512).length then
          (parseTar ((p.drop 512).drop (nextMultipleOf size 512))).map
            (⟨name, size, (p.drop 512).take size⟩ :: ·)
        else none
    else if p = List.replicate 1024 0 then some [] else none
  else none
  termination_by p.length
  decreasing_by
    rw [List.length_drop, List.length_drop]
    omega

/-! ## Octal numbers -/

theorem octal_digits (x : ℕ) : ∀ c ∈ Nat.toDigits 8 x, 48 ≤ c.toNat ∧ c.toNat ≤ 55 := by
  induction x using Nat.strongRecOn with
  | ind x ih =>
    have hdigit : ∀ n < 8, 48 ≤ (Nat.digitChar n).toNat ∧ (Nat.digitChar n).toNat ≤ 55 := by decide
    by_cases hlt : x < 8
    · rw [Nat.toDigits_of_lt_base hlt]
      exact List.forall_mem_singleton.mpr (hdigit x hlt)
    · rw [Nat.toDigits_of_base_le (by decide) (by omega)]
      refine List.forall_mem_append.mpr ⟨ih (x / 8) (by omega), ?_⟩
      exact List.forall_mem_singleton.mpr (hdigit _ (Nat.mod_lt _ (by decide)))

theorem mem_octal {w x : ℕ} : ∀ c ∈ octal w x, 48 ≤ c.toNat ∧ c.toNat ≤ 55 := by
  refine List.forall_mem_append.mpr ⟨fun c hc => ?_, octal_digits x⟩
  rw [List.eq_of_mem_replicate hc]
  decide

theorem ascii_octal {w x : ℕ} : ∀ c ∈ octal w x, c.toNat < 128 := by
  intro c hc
  have := mem_octal c hc
  omega

/-- A number that fits has the width. -/
theorem length_octal {w x : ℕ} (hw : 0 < w) (hx : x < 8 ^ w) : (utf8 (octal w x)).length = w := by
  have hle := (Nat.length_toDigits_le_iff (b := 8) (by decide) hw).mpr hx
  rw [utf8_of_ascii ascii_octal, List.length_map]
  unfold octal
  rw [List.length_append, List.length_replicate]
  omega

/-- Reading back what was formatted. -/
theorem parseOctal_octal {w x : ℕ} : parseOctal (utf8 (octal w x)) = some x := by
  have hne : octal w x ≠ [] := List.append_ne_nil_of_right_ne_nil _ Nat.toDigits_ne_nil
  have hbyte : ∀ c ∈ octal w x, (UInt8.ofNat c.toNat).toNat = c.toNat := fun c hc =>
    UInt8.toNat_ofNat_of_lt' ((ascii_octal c hc).trans (by decide))
  rw [utf8_of_ascii ascii_octal, parseOctal, if_pos]
  · rw [List.foldl_map]
    have hfold : (octal w x).foldl (fun n c => 8 * n + ((UInt8.ofNat c.toNat).toNat - 48)) 0 =
        Nat.ofDigitChars 8 (octal w x) 0 := by
      rw [Nat.ofDigitChars_eq_foldl]
      refine List.foldl_ext _ _ _ fun n c hc => ?_
      rw [hbyte c hc]
      rfl
    rw [hfold, octal, Nat.ofDigitChars_append, Nat.ofDigitChars_replicate_zero, Nat.mul_zero,
      Nat.ofDigitChars_toDigits (by decide) (by decide)]
  · refine ⟨by simpa using hne, fun b hb => ?_⟩
    obtain ⟨c, hc, rfl⟩ := List.mem_map.mp hb
    rw [hbyte c hc]
    exact mem_octal c hc

/-! ## The header -/

/-- The fields of a header, with blanks for the checksum. -/
def tarFields (name : Text) (size : ℕ) : List (ℕ × List UInt8) :=
  [(0, utf8 name), (100, utf8 "0000600\x00".toList), (108, utf8 "0000000\x00".toList),
    (116, utf8 "0000000\x00".toList), (124, utf8 (octal 11 size ++ "\x00".toList)),
    (136, utf8 "00000000000\x00".toList), (156, utf8 "0".toList), (257, utf8 "ustar\x00".toList),
    (263, utf8 "00".toList), (148, utf8 "        ".toList)]

theorem length_utf8_octal {w x : ℕ} (hw : 0 < w) (hx : x < 8 ^ w) :
    (utf8 (octal w x ++ "\x00".toList)).length = w + 1 := by
  rw [utf8_append, List.length_append, length_octal hw hx]
  rfl

theorem tarHeader_eq (name : Text) {size : ℕ} (hsize : size < 8 ^ 11) :
    tarHeader name size =
      (copyFields (List.replicate 512 0) (tarFields name size)).bind fun h =>
        (copyFromSlice h 148 155 (utf8 (octal 6 (byteSum h) ++ "\x00".toList))).bind fun h =>
          copyFromSlice h 155 156 (utf8 " ".toList) := by
  have hlen := length_utf8_octal (w := 11) (by decide) hsize
  unfold tarFields
  simp only [copyFields, hlen, Option.bind_assoc, Option.bind_some, Nat.zero_add]
  rfl

theorem byteSum_append (s t : List UInt8) : byteSum (s ++ t) = byteSum s + byteSum t := by
  unfold byteSum
  rw [List.map_append, List.sum_append]

theorem byteSum_le (h : List UInt8) : byteSum h ≤ h.length * 255 := by
  unfold byteSum
  refine (List.sum_le_card_nsmul _ 255 fun x hx => ?_).trans (by rw [List.length_map, smul_eq_mul])
  obtain ⟨b, -, rfl⟩ := List.mem_map.mp hx
  exact Nat.le_of_lt_succ b.toNat_lt

/-- The sum over a block, in three parts. -/
theorem byteSum_parts {h : List UInt8} (hlen : h.length = 512) :
    byteSum h = byteSum (slice h 0 148) + byteSum (slice h 148 156) + byteSum (slice h 156 512) := by
  rw [← byteSum_append, ← byteSum_append, slice_append_slice (by omega) (by omega) (by omega),
    slice_append_slice (by omega) (by omega) (by omega), ← hlen, slice_self]

/-- What is in a header. -/
structure HeaderOf (name : Text) (size : ℕ) (h : List UInt8) : Prop where
  length : h.length = 512
  nameAt : slice h 0 (utf8 name).length = utf8 name
  nameEnd : slice h (utf8 name).length ((utf8 name).length + 1) = [0]
  sizeAt : slice h 124 136 = utf8 (octal 11 size ++ "\x00".toList)
  magic : slice h 257 263 = utf8 "ustar\x00".toList
  /-- The sum is that of the header with blanks for the checksum. -/
  checksum : slice h 148 155 = utf8 (octal 6 (byteSum (slice h 0 148) + 256 +
    byteSum (slice h 156 512)) ++ "\x00".toList)

/-- The places of the fields. -/
theorem tarFields_lengths (name : Text) {size : ℕ} (hsize : size < 8 ^ 11) :
    (tarFields name size).map (fun f => (f.1, f.2.length)) =
      [(0, (utf8 name).length), (100, 8), (108, 8), (116, 8), (124, 12), (136, 12), (156, 1), (257, 6),
        (263, 2), (148, 8)] := by
  unfold tarFields
  simp only [List.map_cons, List.map_nil, length_utf8_octal (w := 11) (by decide) hsize]
  rfl

/-- They are in bounds and disjoint, and the byte after the name is in none of them. -/
theorem tarFields_disjoint {name : Text} {size : ℕ} (hname : (utf8 name).length < 100)
    (hsize : size < 8 ^ 11) :
    (∀ f ∈ tarFields name size, f.1 + f.2.length ≤ 512 ∧
      ((utf8 name).length + 1 ≤ f.1 ∨ f.1 + f.2.length ≤ (utf8 name).length)) ∧
    (tarFields name size).Pairwise fun f g => f.1 + f.2.length ≤ g.1 ∨ g.1 + g.2.length ≤ f.1 := by
  have hplaces := tarFields_lengths name hsize
  constructor
  · intro f hf
    have hmem : (f.1, f.2.length) ∈ (tarFields name size).map fun f => (f.1, f.2.length) :=
      List.mem_map_of_mem hf
    rw [hplaces] at hmem
    simp only [List.mem_cons, Prod.mk.injEq, List.not_mem_nil, or_false] at hmem
    omega
  · have hpairs : ((tarFields name size).map fun f => (f.1, f.2.length)).Pairwise fun p q =>
        p.1 + p.2 ≤ q.1 ∨ q.1 + q.2 ≤ p.1 := by
      rw [hplaces]
      simp only [List.pairwise_cons, List.forall_mem_cons, List.not_mem_nil, false_implies,
        implies_true, List.Pairwise.nil, and_true]
      omega
    exact List.pairwise_map.mp hpairs

theorem tarHeader_ok {name : Text} {size : ℕ} (hname : (utf8 name).length < 100)
    (hsize : size < 8 ^ 11) : ∃ h, tarHeader name size = some h ∧ HeaderOf name size h := by
  obtain ⟨hplaces, hdisj⟩ := tarFields_disjoint hname hsize
  obtain ⟨h₁, hfields, hlen₁, hself, hframe⟩ := copyFields_spec (l := List.replicate 512 0)
    (fun f hf => List.length_replicate ▸ (hplaces f hf).1) hdisj
  rw [List.length_replicate] at hlen₁
  have hsum : byteSum h₁ < 8 ^ 6 := by
    have := byteSum_le h₁
    rw [hlen₁] at this
    omega
  obtain ⟨h₂, hcopy₂, hcopied₂⟩ := copyFromSlice_of_le h₁ 148 155
    (utf8 (octal 6 (byteSum h₁) ++ "\x00".toList)) (by omega) (by omega)
    (length_utf8_octal (by decide) hsum)
  have hlen₂ := hcopied₂.length.trans hlen₁
  obtain ⟨h₃, hcopy₃, hcopied₃⟩ := copyFromSlice_of_le h₂ 155 156 (utf8 " ".toList) (by omega)
    (by omega) rfl
  have hrest : ∀ a b, b ≤ 148 ∨ 156 ≤ a → slice h₃ a b = slice h₁ a b := by
    intro a b hab
    rw [hcopied₃.frame a b (by omega), hcopied₂.frame a b (by omega)]
  have hfield : ∀ {i : ℕ} {f : ℕ × List UInt8}, (tarFields name size)[i]? = some f →
      slice h₁ f.1 (f.1 + f.2.length) = f.2 := fun hf => hself _ (List.mem_of_getElem? hf)
  refine ⟨h₃, ?_, hcopied₃.length.trans hlen₂, ?_, ?_, ?_, ?_, ?_⟩
  · rw [tarHeader_eq name hsize, hfields, Option.bind_some, hcopy₂, Option.bind_some, hcopy₃]
  · have := hfield (i := 0) rfl
    rw [Nat.zero_add] at this
    rw [hrest _ _ (by omega), this]
  · rw [hrest _ _ (by omega), hframe _ _ fun f hf => (hplaces f hf).2]
    unfold slice
    rw [List.take_replicate, List.drop_replicate, Nat.min_eq_left (by omega),
      Nat.add_sub_cancel_left]
    rfl
  · have := hfield (i := 4) rfl
    rw [length_utf8_octal (by decide) hsize] at this
    rw [hrest _ _ (by omega), this]
  · rw [hrest _ _ (by omega)]
    exact hfield (i := 7) rfl
  · have hblanks : slice h₁ 148 156 = utf8 "        ".toList := hfield (i := 9) rfl
    rw [hcopied₃.frame _ _ (by omega), hcopied₂.self, hrest _ _ (by omega), hrest _ _ (by omega),
      byteSum_parts hlen₁, hblanks]
    rfl

/-- The reader finds in a header what was put into it. -/
theorem HeaderOf.parse {name : Text} {size : ℕ} {h : List UInt8} (hh : HeaderOf name size h)
    (hzero : 0 ∉ utf8 name) (hname : (utf8 name).length < 100) (hsize : size < 8 ^ 11) :
    h.any (· ≠ 0) = true ∧ parseHeader h = some (utf8 name, size) := by
  have hlen := hh.length
  have hlow := byteSum_le (slice h 0 148)
  have hhigh := byteSum_le (slice h 156 512)
  rw [length_slice (by omega)] at hlow hhigh
  have hsum : byteSum (slice h 0 148) + 256 + byteSum (slice h 156 512) < 8 ^ 6 := by omega
  have hsizeDigits : slice h 124 135 = utf8 (octal 11 size) := by
    have := slice_left (hh.sizeAt.trans (utf8_append _ _)) (by omega) (by omega)
    rwa [length_octal (by decide) hsize] at this
  have hsumDigits : slice h 148 154 =
      utf8 (octal 6 (byteSum (slice h 0 148) + 256 + byteSum (slice h 156 512))) := by
    have := slice_left (hh.checksum.trans (utf8_append _ _)) (by omega) (by omega)
    rwa [length_octal (by decide) hsum] at this
  have hstored : byteSum (slice h 0 148) + 256 + byteSum (slice h 156 512) =
      byteSum h - byteSum (slice h 148 156) + 8 * 32 := by
    rw [byteSum_parts hlen]
    omega
  have hsplit : h = utf8 name ++ 0 :: slice h ((utf8 name).length + 1) 512 := by
    have hfront := slice_append_slice (l := h) (a := 0) (b := (utf8 name).length) (by omega)
      (Nat.le_add_right _ 1) (by omega)
    have hall := slice_append_slice (l := h) (a := 0) (b := (utf8 name).length + 1) (by omega)
      (show _ ≤ 512 by omega) (by omega)
    rw [← hfront, hh.nameAt, hh.nameEnd, List.append_assoc] at hall
    have hself := slice_self h
    rw [hlen] at hself
    exact hself.symm.trans hall.symm
  constructor
  · rw [List.any_eq_true]
    have hu : (117 : UInt8) ∈ slice h 257 263 := by
      rw [hh.magic]
      decide
    exact ⟨117, mem_of_mem_slice hu, by decide⟩
  · have hmem : 0 ∈ h := by
      rw [hsplit]
      exact List.mem_append_right _ List.mem_cons_self
    have htake : h.takeWhile (· ≠ 0) = utf8 name := by
      have hpos : ∀ b ∈ utf8 name, decide (b ≠ 0) = true :=
        fun b hb => decide_eq_true fun hb0 => hzero (hb0 ▸ hb)
      rw [hsplit, List.takeWhile_append_of_pos hpos, List.takeWhile_cons_of_neg (by decide),
        List.append_nil]
    unfold parseHeader
    rw [hh.magic, hsumDigits, parseOctal_octal, hsizeDigits, parseOctal_octal, htake]
    rw [hstored]
    simp only [guard, if_pos hmem, if_true]
    show (if _ = _ then some () else none).bind _ = _
    rw [if_pos rfl]
    rfl

/-! ## The stream -/

/-- The contents of a file, padded to whole blocks. -/
def padded (data : List UInt8) : List UInt8 :=
  data ++ List.replicate (nextMultipleOf data.length 512 - data.length) 0

theorem length_padded (data : List UInt8) : (padded data).length = nextMultipleOf data.length 512 := by
  unfold padded nextMultipleOf
  rw [List.length_append, List.length_replicate]
  split_ifs <;> omega

theorem dvd_nextMultipleOf (n : ℕ) : 512 ∣ nextMultipleOf n 512 := by
  unfold nextMultipleOf
  split_ifs <;> omega

theorem le_nextMultipleOf (n : ℕ) : n ≤ nextMultipleOf n 512 := by
  unfold nextMultipleOf
  split_ifs <;> omega

/-- Whole blocks before a file do not change its padding. -/
theorem resize_padded {out : List UInt8} (hout : 512 ∣ out.length) (data : List UInt8) :
    resize (out ++ data) (nextMultipleOf (out ++ data).length 512) = out ++ padded data := by
  have hpad : nextMultipleOf (out ++ data).length 512 - (out ++ data).length =
      nextMultipleOf data.length 512 - data.length := by
    rw [List.length_append]
    unfold nextMultipleOf
    split_ifs <;> omega
  unfold resize padded
  rw [hpad, List.append_assoc]

/-- The reader takes an entry off the stream. -/
theorem parseTar_entry {name : Text} {h data : List UInt8} (hh : HeaderOf name data.length h)
    (hzero : 0 ∉ utf8 name) (hname : (utf8 name).length < 100) (hsize : data.length < 8 ^ 11)
    (rest : List UInt8) :
    parseTar (h ++ (padded data ++ rest)) =
      (parseTar rest).map (⟨utf8 name, data.length, data⟩ :: ·) := by
  obtain ⟨hany, hparse⟩ := hh.parse hzero hname hsize
  have hlen : 512 ≤ (h ++ (padded data ++ rest)).length := by
    rw [List.length_append, hh.length]
    omega
  have htake : (h ++ (padded data ++ rest)).take 512 = h := List.take_left' hh.length
  have hdrop : (h ++ (padded data ++ rest)).drop 512 = padded data ++ rest := List.drop_left' hh.length
  have hdata : (padded data ++ rest).take data.length = data := by
    unfold padded
    rw [List.append_assoc, List.take_left]
  have hle : data.length ≤ (padded data ++ rest).length := by
    have := le_nextMultipleOf data.length
    rw [List.length_append, length_padded]
    omega
  rw [parseTar, if_pos hlen, htake, if_pos hany, hparse, hdrop]
  simp only
  rw [if_pos hle, hdata, List.drop_left' (length_padded data)]

theorem parseTar_end : parseTar (List.replicate 1024 0) = some [] := by
  have hzero : ((List.replicate 1024 (0 : UInt8)).take 512).any (· ≠ 0) = false := by
    rw [List.take_replicate, List.any_replicate]
    rfl
  rw [parseTar, if_pos (by rw [List.length_replicate]; omega), hzero, if_neg Bool.false_ne_true,
    if_pos rfl]

/-- The entry that a reader should find for a file. -/
def tarEntry (f : Text) (c : Content) : TarEntry := ⟨utf8 f, c.bytes.length, c.bytes⟩

/-- A file that the format can hold. -/
structure Archivable (f : Text) (c : Content) : Prop where
  nameLength : (utf8 f).length < 100
  nameZero : 0 ∉ utf8 f
  size : c.bytes.length < 8 ^ 11

theorem run_tarFile {d : Disk} {f : Text} {c : Content} {out : List UInt8}
    (hfile : d (inPki f) = some c) (hf : Archivable f c) (hout : 512 ∣ out.length) :
    ∃ h, HeaderOf f c.bytes.length h ∧
      (tarFile out f).run d = (.ok (out ++ (h ++ padded c.bytes)), d) := by
  obtain ⟨h, hheader, hh⟩ := tarHeader_ok hf.nameLength hf.size
  refine ⟨h, hh, ?_⟩
  show FileProg.run (match d (inPki f) with
    | none => die _
    | some c =>
      match tarHeader f c.bytes.length with
      | none => panic _
      | some h =>
        pure (resize (out ++ h ++ c.bytes) (nextMultipleOf (out ++ h ++ c.bytes).length 512))) d = _
  rw [hfile]
  simp only [hheader]
  rw [resize_padded (by rw [List.length_append, hh.length]; omega), List.append_assoc]
  rfl

/-- Files one after another. -/
theorem run_tarFiles {d : Disk} {contents : Text → Content} {fs : List Text} {out : List UInt8}
    (hfiles : ∀ f ∈ fs, d (inPki f) = some (contents f)) (hfs : ∀ f ∈ fs, Archivable f (contents f))
    (hout : 512 ∣ out.length) :
    ∃ stream, (fs.foldlM tarFile out).run d = (.ok (out ++ stream), d) ∧ 512 ∣ stream.length ∧
      ∀ rest, parseTar (stream ++ rest) =
        (parseTar rest).map (fs.map (fun f => tarEntry f (contents f)) ++ ·) := by
  induction fs generalizing out with
  | nil =>
    refine ⟨[], ?_, dvd_zero _, fun rest => ?_⟩
    · rw [List.append_nil]
      rfl
    · rw [List.map_nil, List.nil_append]
      exact Option.map_id'.symm
  | cons f fs ih =>
    obtain ⟨hfile, hfiles⟩ := List.forall_mem_cons.mp hfiles
    obtain ⟨hf, hfs⟩ := List.forall_mem_cons.mp hfs
    obtain ⟨h, hh, hrun⟩ := run_tarFile hfile hf hout
    have hblocks : 512 ∣ (h ++ padded (contents f).bytes).length := by
      rw [List.length_append, hh.length, length_padded]
      exact Dvd.dvd.add (dvd_refl 512) (dvd_nextMultipleOf _)
    have hnext : 512 ∣ (out ++ (h ++ padded (contents f).bytes)).length := by
      rw [List.length_append]
      exact dvd_add hout hblocks
    obtain ⟨stream, hstream, hdvd, hparse⟩ := ih hfiles hfs hnext
    refine ⟨h ++ padded (contents f).bytes ++ stream, ?_, ?_, fun rest => ?_⟩
    · show (tarFile out f >>= fun out => fs.foldlM tarFile out).run d = _
      rw [FileProg.run_bind, hrun]
      simp only
      rw [hstream, List.append_assoc]
    · rw [List.length_append]
      exact dvd_add hblocks hdvd
    · rw [List.append_assoc, List.append_assoc,
        parseTar_entry hh hf.nameZero hf.nameLength hf.size, hparse, Option.map_map]
      rfl

/-- A reader of the stream finds the custody files, in their order, with their sizes and
    contents, and then the two zero blocks that end it. No copy into a header is out of
    bounds. -/
theorem tarBundle_reads {d : Disk} {contents : Text → Content}
    (hfiles : ∀ f ∈ CUSTODY_FILES, d (inPki f) = some (contents f))
    (hsizes : ∀ f ∈ CUSTODY_FILES, (contents f).bytes.length < 8 ^ 11) :
    ∃ stream, tarBundle.run d = (.ok stream, d) ∧
      parseTar stream = some (CUSTODY_FILES.map fun f => tarEntry f (contents f)) ∧
      512 ∣ stream.length := by
  have hnames : ∀ f ∈ CUSTODY_FILES, (utf8 f).length < 100 ∧ 0 ∉ utf8 f := by decide
  have hnil : 512 ∣ ([] : List UInt8).length := dvd_zero _
  obtain ⟨stream, hrun, hdvd, hparse⟩ := run_tarFiles hfiles
    (fun f hf => ⟨(hnames f hf).1, (hnames f hf).2, hsizes f hf⟩) hnil
  refine ⟨stream ++ List.replicate 1024 0, ?_, ?_, ?_⟩
  · unfold tarBundle
    rw [FileProg.run_bind, hrun]
    simp only [List.nil_append]
    unfold resize
    rw [Nat.add_sub_cancel_left]
    rfl
  · rw [hparse, parseTar_end, Option.map_some, List.append_nil]
  · rw [List.length_append, List.length_replicate]
    exact dvd_add hdvd (by decide)

/-- Six files with the same text. -/
theorem tarBundle_reads_shipped :
    ∃ stream, tarBundle.run (shipped CUSTODY_FILES) = (.ok stream, shipped CUSTODY_FILES) ∧
      parseTar stream = some (CUSTODY_FILES.map fun f => tarEntry f (.text "old".toList)) ∧
      512 ∣ stream.length :=
  tarBundle_reads (fun _ hf => if_pos ⟨rfl, hf⟩) (by decide)

end Kubenyx.Pki
