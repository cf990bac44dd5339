import Kubenyx.Common.Cidr
import Mathlib.Data.List.MinMax

/-!
# Routing tables

A routing table is known by its routes, by the match that it has for an address, and by what
becomes of it when a route is replaced. `Routing.Lawful` says what may be relied on: the match is
the longest route, and the one of the lowest metric among these.

* `Routing.Clear.replace`: routes that are made keep out of the way of each other.
* `lawful_fib`: lists of routes with these matches are lawful.
-/

namespace Kubenyx.Common

/-- A route: its destination, its metric, and what is done with the packets. -/
structure Route (H : Type) where
  dest : Block
  metric : ℕ
  hop : H

/-- Routing tables in which the routes that are made have the metric of their family. -/
structure Routing (H : Type) where
  Table : Type
  /-- The routes in a table. -/
  routes : Table → Set (Route H)
  /-- What is done with the packets to an address. -/
  lookup : Table → Family × ℕ → Option H
  /-- The table after the route to a destination is replaced, or made if there is none. -/
  replace : Table → Block → H → Table
  metric : Family → ℕ

namespace Block

/-- The address is one of the block. -/
def contains (B : Block) (a : Family × ℕ) : Bool :=
  a.1 = B.family ∧ a.2 < 2 ^ B.family.bits ∧ a.2 / 2 ^ B.free = B.base / 2 ^ B.free

/-- The blocks are the same destination. -/
def same (B C : Block) : Bool :=
  B.family = C.family ∧ B.len = C.len ∧ B.base / 2 ^ B.free = C.base / 2 ^ C.free

variable {B C : Block}

theorem contains_iff {a : Family × ℕ} : B.contains a = true ↔ a ∈ B.addresses := decide_eq_true_iff

theorem addresses_eq_of_same (h : B.same C = true) : B.addresses = C.addresses := by
  obtain ⟨hfamily, hlen, hbase⟩ := of_decide_eq_true h
  have hfree : B.free = C.free := by
    unfold free
    rw [hfamily, hlen]
  ext a
  show (_ ∧ _ ∧ _) ↔ (_ ∧ _ ∧ _)
  rw [hfamily, ← hbase, hfree]

/-- Blocks of one length with an address in common are the same destination. -/
theorem same_of_mem {a : Family × ℕ} (hlen : B.len = C.len) (ha : a ∈ B.addresses)
    (ha' : a ∈ C.addresses) : B.same C = true := by
  obtain ⟨hf, -, hquot⟩ := ha
  obtain ⟨hf', -, hquot'⟩ := ha'
  have hfamily : B.family = C.family := hf.symm.trans hf'
  have hfree : B.free = C.free := by
    unfold free
    rw [hfamily, hlen]
  rw [hfree] at hquot
  refine decide_eq_true ⟨hfamily, hlen, ?_⟩
  rw [hfree]
  exact hquot.symm.trans hquot'

end Block

variable {H : Type}

namespace Routing

/-- The route is preferred to a new one to `P` by the addresses that both lead to. -/
def Prefers (R : Routing H) (r : Route H) (P : Block) : Prop :=
  P.len < r.dest.len ∨ r.dest.len = P.len ∧ r.metric < R.metric P.family

/-- No route in the table is preferred to a new one to `P`. -/
def Clear (R : Routing H) (P : Block) (t : R.Table) : Prop :=
  ∀ r ∈ R.routes t, (∃ a ∈ r.dest.addresses, a ∈ P.addresses) → ¬ R.Prefers r P

/-- What is relied on of routing tables. -/
structure Lawful (R : Routing H) : Prop where
  /-- A new route is the match of its addresses unless another is preferred. -/
  lookup_replace : ∀ {t P h a}, R.Clear P t → a ∈ P.addresses → R.lookup (R.replace t P h) a = some h
  /-- It changes nothing for the other addresses. -/
  lookup_replace_of_notMem : ∀ {t P h a}, a ∉ P.addresses →
    R.lookup (R.replace t P h) a = R.lookup t a
  /-- It is the only route that comes. -/
  routes_replace : ∀ {t P h r}, r ∈ R.routes (R.replace t P h) →
    r ∈ R.routes t ∨ r = ⟨P, R.metric P.family, h⟩

/-- A new route does not make addresses prefer another to one of the same family that is no
    shorter. -/
theorem Clear.replace {R : Routing H} (hR : R.Lawful) {P Q : Block} {t : R.Table} (h : R.Clear P t)
    (hfamily : Q.family = P.family) (hlen : Q.len ≤ P.len) (hop : H) :
    R.Clear P (R.replace t Q hop) := by
  intro r hr hmeet
  rcases hR.routes_replace hr with hr | rfl
  · exact h r hr hmeet
  · rintro (hlonger | ⟨-, hlower⟩)
    · exact absurd hlonger (not_lt.mpr hlen)
    · rw [hfamily] at hlower
      exact lt_irrefl _ hlower

end Routing

/-! ## Lists of routes -/

section lists

variable {t : List (Route H)} {new : Route H} {a : Family × ℕ}

/-- The longest route comes first, and of the longest the one with the lowest metric. -/
def Route.rank (r : Route H) : ℕ ×ₗ ℕᵒᵈ := toLex (r.dest.len, OrderDual.toDual r.metric)

/-- The match of an address. -/
def longest (t : List (Route H)) (a : Family × ℕ) : Option H :=
  ((t.filter (·.dest.contains a)).argmax Route.rank).map (·.hop)

/-- A route in the place of those to the same destination with the same metric. -/
def replaceRoute (t : List (Route H)) (new : Route H) : List (Route H) :=
  new :: t.filter fun r => !(r.dest.same new.dest && r.metric == new.metric)

theorem longest_replaceRoute (hnew : a ∈ new.dest.addresses)
    (hrank : ∀ r ∈ t, a ∈ r.dest.addresses → r.rank ≤ new.rank) :
    longest (replaceRoute t new) a = some new.hop := by
  have hmem : new ∈ (replaceRoute t new).filter (·.dest.contains a) :=
    List.mem_filter.mpr ⟨List.mem_cons_self, Block.contains_iff.mpr hnew⟩
  unfold longest
  cases hmax : ((replaceRoute t new).filter (·.dest.contains a)).argmax Route.rank with
  | none =>
    rw [List.argmax_eq_none.mp hmax] at hmem
    cases hmem
  | some m =>
    have hle : new.rank ≤ m.rank := List.le_of_mem_argmax hmem hmax
    obtain ⟨hm, hcontains⟩ := List.mem_filter.mp (List.argmax_mem hmax)
    rcases List.mem_cons.mp hm with rfl | hm
    · rfl
    -- Another route of this rank to the address has been replaced.
    obtain ⟨hm, hkept⟩ := List.mem_filter.mp hm
    have ham := Block.contains_iff.mp hcontains
    have hrank := toLex.injective ((hrank m hm ham).antisymm hle)
    have hmetric : m.metric = new.metric := OrderDual.toDual.injective (Prod.ext_iff.mp hrank).2
    rw [Block.same_of_mem (Prod.ext_iff.mp hrank).1 ham hnew, hmetric, beq_self_eq_true] at hkept
    cases hkept

theorem longest_replaceRoute_of_notMem (hnew : a ∉ new.dest.addresses) :
    longest (replaceRoute t new) a = longest t a := by
  have hfilter : (replaceRoute t new).filter (·.dest.contains a) = t.filter (·.dest.contains a) := by
    unfold replaceRoute
    rw [List.filter_cons, if_neg fun h => hnew (Block.contains_iff.mp h), List.filter_filter]
    refine List.filter_congr fun r _ => ?_
    cases hcontains : r.dest.contains a with
    | false => rfl
    | true =>
      have hother : r.dest.same new.dest = false := Bool.eq_false_iff.mpr fun hsame => hnew <|
        Block.addresses_eq_of_same hsame ▸ Block.contains_iff.mp hcontains
      rw [hother]
      rfl
  unfold longest
  rw [hfilter]

end lists

/-- Lists of routes with at most one for each destination and metric. -/
def fib (H : Type) (metric : Family → ℕ) : Routing H where
  Table := List (Route H)
  routes t := {r | r ∈ t}
  lookup := longest
  replace t P h := replaceRoute t ⟨P, metric P.family, h⟩
  metric := metric

theorem lawful_fib (metric : Family → ℕ) : (fib H metric).Lawful where
  lookup_replace {t P h a} hclear ha := by
    refine longest_replaceRoute ha fun r hr hmem => Prod.Lex.toLex_le_toLex.mpr ?_
    have hnot := not_or.mp (hclear r hr ⟨a, hmem, ha⟩)
    refine (not_lt.mp hnot.1).lt_or_eq.imp_right fun hlen => ⟨hlen, ?_⟩
    exact not_lt.mp fun hlower => hnot.2 ⟨hlen, hlower⟩
  lookup_replace_of_notMem {t P h a} :=
    @longest_replaceRoute_of_notMem _ t ⟨P, metric P.family, h⟩ a
  routes_replace {t P h r} hr := by
    rcases List.mem_cons.mp hr with rfl | hr
    · exact Or.inr rfl
    · exact Or.inl (List.mem_of_mem_filter hr)

end Kubenyx.Common
