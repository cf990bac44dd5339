import Kubenyx.EtcdMem.KeySelection

/-!
# Listing in pages

A client that lists a range with a limit asks again, from just after the last key it
got, for as long as the answer says that there is more. The key just after a key is
that key with a zero byte at its end.

* `append_zero_le_iff`: there is no key between a key and the one just after it.
* `matching_after`: what is left after a page is what the next request selects.
* `listPages_complete`: in every reachable state the pages add up to the unlimited
  answer, and each says how much is left.
-/

namespace Kubenyx.EtcdMem

open Kubenyx.Common

/-! ## The client -/

/-- An answer of `range_kvs`. -/
structure Page where
  kvs : List Kv
  more : Bool
  count : ℤ

/-- The entries of pages, one page after the other. -/
def pagesKvs (pages : List Page) : List Kv := pages.flatMap Page.kvs

namespace Store

/-- A listing in pages: `none` where a request panics, where the answer promises more
    after an empty page, and where `fuel` requests do not suffice. -/
def listPages (s : Store) : ℕ → RangeRequest → Option (List Page)
  | 0, _ => none
  | fuel + 1, r =>
    match s.rangeKvs r with
    | .error _ => none
    | .ok (kvs, false, count) => some [⟨kvs, false, count⟩]
    | .ok (kvs, true, count) =>
      kvs.getLast?.bind fun last =>
        (s.listPages fuel { r with key := last.key ++ [0] }).map (⟨kvs, true, count⟩ :: ·)

/-- One request, and what follows from its answer. -/
theorem listPages_succ (s : Store) (fuel : ℕ) (r : RangeRequest) :
    s.listPages (fuel + 1) r =
      match s.rangeKvs r with
      | .error _ => none
      | .ok (kvs, false, count) => some [⟨kvs, false, count⟩]
      | .ok (kvs, true, count) =>
        kvs.getLast?.bind fun last =>
          (s.listPages fuel { r with key := last.key ++ [0] }).map (⟨kvs, true, count⟩ :: ·) := rfl

/-- What `range_kvs` finds before it cuts a page off. -/
def matching (s : Store) (r : RangeRequest) : List Kv :=
  (s.selectedKvs r.key r.rangeEnd).filter (rangeFilter r (s.atRev r))

theorem rangeKvs_matching {s : Store} {r : RangeRequest} (ho : Ordered r.key r.rangeEnd) :
    s.rangeKvs r = .ok (page r.limit (s.matching r)) := rangeKvs_of_ordered ho

end Store

/-! ## The key just after a key -/

theorem append_zero_le_iff {a k : Bytes} : a ++ [0] ≤ k ↔ a < k := by
  rw [← not_lt]
  induction a generalizing k with
  | nil =>
    cases k with
    | nil => simp
    | cons c k => simp [List.cons_lt_cons_iff]
  | cons c a ih =>
    cases k with
    | nil => simp
    | cons d k =>
      rw [List.cons_append, List.cons_lt_cons_iff, List.cons_lt_cons_iff, ← ih]
      rcases lt_trichotomy c d with h | rfl | h
      · simp [h, h.not_gt, h.ne']
      · simp
      · simp [h, h.not_gt, h.ne']

variable {key rangeEnd last k : Bytes}

/-- A range from just after one of its keys is in order. -/
theorem ordered_after (hend : rangeEnd ≠ []) (hlast : inInterval key rangeEnd last = true) :
    Ordered (last ++ [0]) rangeEnd := by
  unfold inInterval at hlast
  unfold Ordered
  rw [if_neg hend] at hlast
  split_ifs at hlast with hopen
  · exact Or.inr (Or.inl hopen)
  · exact Or.inr (Or.inr (append_zero_le_iff.mpr (of_decide_eq_true hlast).2))

/-- It has the keys of the range that are greater. -/
theorem inInterval_after (hend : rangeEnd ≠ []) (hlast : inInterval key rangeEnd last = true) :
    inInterval (last ++ [0]) rangeEnd k = (inInterval key rangeEnd k && decide (last < k)) := by
  unfold inInterval at hlast ⊢
  rw [if_neg hend] at hlast ⊢
  rw [if_neg hend, Bool.eq_iff_iff]
  split_ifs at hlast ⊢ with hopen
  · have hkey : key ≤ last := of_decide_eq_true hlast
    simp only [append_zero_le_iff, Bool.and_eq_true, decide_eq_true_eq]
    exact ⟨fun h => ⟨hkey.trans h.le, h⟩, fun h => h.2⟩
  · have hkey : key ≤ last := (of_decide_eq_true hlast).1
    simp only [append_zero_le_iff, Bool.and_eq_true, decide_eq_true_eq]
    exact ⟨fun h => ⟨⟨hkey.trans h.1.le, h.2⟩, h.1⟩, fun h => ⟨h.2, h.1.2⟩⟩

/-! ## What is left after a page -/

/-- In a list in ascending order, what is greater than the last of the first elements is
    the rest. -/
theorem filter_lt_eq_drop {α β : Type} [Preorder β] [DecidableLT β] {f : α → β} {l : List α}
    (h : l.Pairwise fun a b => f a < f b) {n : ℕ} {x : α} (hx : (l.take n).getLast? = some x) :
    l.filter (fun a => f x < f a) = l.drop n := by
  have hsplit := List.pairwise_append.mp ((List.take_append_drop n l).symm ▸ h)
  obtain ⟨htake, -, hcross⟩ := hsplit
  have hbefore : (l.take n).filter (fun a => f x < f a) = [] := by
    rw [List.filter_eq_nil_iff]
    intro a ha
    obtain ⟨init, hinit⟩ := List.getLast?_eq_some_iff.mp hx
    rw [hinit] at ha htake
    rcases List.mem_append.mp ha with ha | ha
    · have hlt := (List.pairwise_append.mp htake).2.2 a ha x (List.mem_singleton.mpr rfl)
      simpa using lt_asymm hlt
    · obtain rfl := List.mem_singleton.mp ha
      simp
  have hafter : (l.drop n).filter (fun a => f x < f a) = l.drop n := by
    rw [List.filter_eq_self]
    intro a ha
    simpa using hcross x (List.mem_of_getLast? hx) a ha
  conv_lhs => rw [← List.take_append_drop n l]
  rw [List.filter_append, hbefore, hafter, List.nil_append]

namespace Store

variable {s : Store} {r : RangeRequest}

/-- The entries that a request finds are in ascending order of their keys. -/
theorem Reachable.matching_sorted (hs : s.Reachable) (r : RangeRequest) :
    (s.matching r).Pairwise fun a b => a.key < b.key := by
  have hkeys : (s.selectedKvs r.key r.rangeEnd).Pairwise fun a b => a.key < b.key := by
    rw [← List.pairwise_map (R := (· < ·)), hs.map_key_selectedKvs]
    exact selected_sorted s r.key r.rangeEnd
  exact hkeys.filter _

theorem Reachable.inInterval_of_mem_matching (hs : s.Reachable) {kv : Kv}
    (h : kv ∈ s.matching r) : inInterval r.key r.rangeEnd kv.key = true :=
  (hs.mem_selectedKvs.mp (List.mem_of_mem_filter h)).2

/-- The next request finds what the page has left out. -/
theorem Reachable.matching_after (hs : s.Reachable) (hend : r.rangeEnd ≠ []) {n : ℕ} {last : Kv}
    (hlast : ((s.matching r).take n).getLast? = some last) :
    s.matching { r with key := last.key ++ [0] } = (s.matching r).drop n := by
  have hin : inInterval r.key r.rangeEnd last.key = true :=
    hs.inInterval_of_mem_matching (List.mem_of_mem_take (List.mem_of_getLast? hlast))
  have hselected : s.selectedKvs (last.key ++ [0]) r.rangeEnd =
      (s.selectedKvs r.key r.rangeEnd).filter fun kv => last.key < kv.key := by
    unfold selectedKvs
    rw [List.filter_map, List.filter_filter]
    refine congrArg _ (List.filter_congr ?_)
    rintro ⟨k, kv⟩ hmem
    obtain rfl : kv.key = k := (hs.entry (OrdMap.mem_entries_iff.mp hmem)).1
    rw [inInterval_after hend hin, Bool.and_comm]
    rfl
  rw [← filter_lt_eq_drop (hs.matching_sorted r) hlast]
  show (s.selectedKvs (last.key ++ [0]) r.rangeEnd).filter (rangeFilter r (s.atRev r)) = _
  unfold matching
  rw [hselected, List.filter_filter, List.filter_filter]
  refine List.filter_congr fun kv _ => ?_
  exact Bool.and_comm _ _

/-! ## All pages -/

/-- What a page has to say of the pages that come after it. -/
def PageOk (limit : ℤ) (p : Page) (after : List Page) : Prop :=
  (p.kvs.length : ℤ) ≤ limit ∧ (p.more = true ↔ pagesKvs after ≠ []) ∧
    p.count = (p.kvs ++ pagesKvs after).length

/-- A listing with as many requests as there are entries, and one more. -/
theorem Reachable.listPages_spec (hs : s.Reachable) (hend : r.rangeEnd ≠ [])
    (ho : Ordered r.key r.rangeEnd) (hlimit : 1 ≤ r.limit) {fuel : ℕ}
    (hfuel : (s.matching r).length < fuel) :
    ∃ pages, s.listPages fuel r = some pages ∧ pagesKvs pages = s.matching r ∧
      ∀ before p after, pages = before ++ p :: after → PageOk r.limit p after := by
  induction fuel generalizing r with
  | zero => omega
  | succ fuel ih =>
    have hpos : ¬ r.limit ≤ 0 := by omega
    have hrange : s.rangeKvs r = .ok ((s.matching r).take r.limit.toNat,
        decide ((s.matching r).length > r.limit.toNat), ((s.matching r).length : ℤ)) := by
      rw [rangeKvs_matching ho, page, if_neg hpos]
    rw [listPages_succ, hrange]
    by_cases hmore : (s.matching r).length > r.limit.toNat
    · -- the page is full, so it has a last entry to go on from
      have hlen : ((s.matching r).take r.limit.toNat).length = r.limit.toNat :=
        List.length_take_of_le hmore.le
      obtain ⟨last, hlast⟩ : ∃ last, ((s.matching r).take r.limit.toNat).getLast? = some last := by
        have hne : (s.matching r).take r.limit.toNat ≠ [] := by
          rw [← List.length_pos_iff, hlen]
          omega
        exact ⟨_, List.getLast?_eq_some_getLast hne⟩
      have hin : inInterval r.key r.rangeEnd last.key = true :=
        hs.inInterval_of_mem_matching (List.mem_of_mem_take (List.mem_of_getLast? hlast))
      have hrest := hs.matching_after hend hlast
      obtain ⟨pages, hpages, hkvs, hok⟩ := @ih { r with key := last.key ++ [0] } hend
        (ordered_after hend hin) hlimit (by rw [hrest, List.length_drop]; omega)
      rw [hrest] at hkvs
      refine ⟨⟨(s.matching r).take r.limit.toNat, true, (s.matching r).length⟩ :: pages, ?_, ?_, ?_⟩
      · simp only [hmore, decide_true, hlast, Option.bind_some, hpages, Option.map_some]
      · show (s.matching r).take r.limit.toNat ++ pagesKvs pages = _
        rw [hkvs, List.take_append_drop]
      · intro before p after hsplit
        cases before with
        | nil =>
          obtain ⟨rfl, rfl⟩ := List.cons.inj hsplit
          refine ⟨by rw [hlen]; omega, ?_, ?_⟩
          · rw [hkvs]
            simpa using hmore
          · rw [hkvs, List.take_append_drop]
        | cons q before => exact hok before p after (List.cons.inj hsplit).2
    · refine ⟨[⟨(s.matching r).take r.limit.toNat, false, (s.matching r).length⟩], ?_, ?_, ?_⟩
      · simp only [hmore, decide_false]
      · show (s.matching r).take r.limit.toNat ++ [] = _
        rw [List.append_nil, List.take_of_length_le (by omega)]
      · intro before p after hsplit
        cases before with
        | nil =>
          obtain ⟨rfl, rfl⟩ := List.cons.inj hsplit
          refine ⟨?_, by simp [pagesKvs], ?_⟩
          · rw [List.length_take]
            omega
          · rw [List.take_of_length_le (by omega)]
            simp [pagesKvs]
        | cons q before => exact absurd (List.cons.inj hsplit).2 (by simp)

/-- A listing in pages ends without a panic, its pages together are the unlimited answer,
    and every page has at most `limit` entries, says `more` exactly when entries are left,
    and counts the entries from itself on. -/
theorem listPages_complete {s : Store} (hs : s.Reachable) (r : RangeRequest)
    (hend : r.rangeEnd ≠ []) (ho : Ordered r.key r.rangeEnd) (hlimit : 1 ≤ r.limit) {fuel : ℕ}
    (hfuel : s.kvs.entries.length < fuel) :
    ∃ pages all, s.listPages fuel r = some pages ∧
      s.rangeKvs { r with limit := 0 } = .ok (all, false, all.length) ∧ pagesKvs pages = all ∧
      ∀ before p after, pages = before ++ p :: after → PageOk r.limit p after := by
  have hle : (s.matching r).length ≤ s.kvs.entries.length := by
    unfold matching selectedKvs
    refine (List.length_filter_le _ _).trans ?_
    rw [List.length_map]
    exact List.length_filter_le _ _
  obtain ⟨pages, hpages, hkvs, hok⟩ := hs.listPages_spec hend ho hlimit (hle.trans_lt hfuel)
  exact ⟨pages, s.matching r, hpages, rangeKvs_matching (r := { r with limit := 0 }) ho, hkvs, hok⟩

/-- Three keys under `a`, two on a page; the second page starts after `a` and a zero byte. -/
theorem listPages_complete_three :
    let s := Store.new.run
      [.put { key := [97] }, .put { key := [97, 0] }, .put { key := [97, 1] }]
    ∃ pages all, s.listPages 4 { key := [97], rangeEnd := [98], limit := 2 } = some pages ∧
      s.rangeKvs { key := [97], rangeEnd := [98] } = .ok (all, false, all.length) ∧
      pagesKvs pages = all ∧ all.map Kv.key = [[97], [97, 0], [97, 1]] := by
  intro s
  have hfuel : s.kvs.entries.length < 4 := by decide
  obtain ⟨pages, all, hpages, hall, hkvs, -⟩ :=
    listPages_complete (s := s) ⟨_, rfl⟩ { key := [97], rangeEnd := [98], limit := 2 } (by decide)
      (by decide) (by decide) hfuel
  refine ⟨pages, all, hpages, hall, hkvs, ?_⟩
  have hkeys : (s.rangeKvs { key := [97], rangeEnd := [98] }).map (fun a => a.1.map Kv.key) =
      .ok [[97], [97, 0], [97, 1]] := by decide
  rw [hall] at hkeys
  exact Except.ok.inj hkeys

end Store

end Kubenyx.EtcdMem
