import Kubenyx.Common.Encoding

/-!
# Parsing IP addresses

`IpAddr::from_str` of the standard library: an IPv4 address in dotted decimal
without leading zeros, or an IPv6 address in groups of up to four hexadecimal
digits, at most one `::` and possibly an IPv4 address in the last two groups. A
parser takes a text and returns a value and the rest; the whole text has to be used
up.
-/

namespace Kubenyx.Common

/-- `std::net::IpAddr`. -/
inductive IpAddr where
  | v4 (octets : List ℕ)
  | v6 (segments : List ℕ)
  deriving DecidableEq, Repr, Encodable

namespace IpAddr

/-- `char::to_digit`. -/
def toDigit (radix : ℕ) (c : Char) : Option ℕ :=
  let d :=
    if c.isDigit then c.toNat - 48
    else if 'a' ≤ c ∧ c ≤ 'z' then c.toNat - 97 + 10
    else if 'A' ≤ c ∧ c ≤ 'Z' then c.toNat - 65 + 10
    else radix
  if d < radix then some d else none

/-- A number of up to `maxDigits` digits and below `bound`; a further digit makes it
    no number. -/
def readNumber (radix maxDigits bound : ℕ) (allowZeroPrefix : Bool) (t : Text) :
    Option (ℕ × Text) :=
  let digits := t.takeWhile fun c => (toDigit radix c).isSome
  let value := digits.foldl (fun acc c => acc * radix + (toDigit radix c).getD 0) 0
  if digits.length = 0 ∨ maxDigits < digits.length then none
  else if allowZeroPrefix = false ∧ digits.head? = some '0' ∧ 1 < digits.length then none
  else if value < bound then some (value, t.drop digits.length)
  else none

/-- A given character. -/
def readChar (c : Char) : Text → Option Text
  | c' :: t => if c' = c then some t else none
  | [] => none

/-- A separator before every item but the first. -/
def readSeparator {α : Type} (sep : Char) (index : ℕ) (inner : Text → Option (α × Text))
    (t : Text) : Option (α × Text) :=
  if index = 0 then inner t else (readChar sep t).bind inner

/-- The octets `i`, `i + 1`, … up to the fourth. -/
def readOctets : ℕ → ℕ → Text → Option (List ℕ × Text)
  | _, 0, t => some ([], t)
  | i, n + 1, t =>
    match readSeparator '.' i (readNumber 10 3 256 false) t with
    | none => none
    | some (o, t) => (readOctets (i + 1) n t).map fun (os, t) => (o :: os, t)

/-- `read_ipv4_addr`. -/
def readIpv4Addr (t : Text) : Option (List ℕ × Text) := readOctets 0 4 t

/-- `read_groups`: up to `n` more groups after the first `i`, whether they end in an
    IPv4 address, and the rest. -/
def readGroups : ℕ → ℕ → Text → List ℕ × Bool × Text
  | _, 0, t => ([], false, t)
  | i, n + 1, t =>
    -- an embedded IPv4 address needs two groups
    match (if 0 < n then readSeparator ':' i readIpv4Addr t else none) with
    | some ([a, b, c, d], t) => ([a * 256 + b, c * 256 + d], true, t)
    | _ =>
      match readSeparator ':' i (readNumber 16 4 65536 true) t with
      | none => ([], false, t)
      | some (g, t) =>
        let (gs, endsV4, t) := readGroups (i + 1) n t
        (g :: gs, endsV4, t)

/-- `read_ipv6_addr`. -/
def readIpv6Addr (t : Text) : Option (List ℕ × Text) :=
  let (head, headV4, t) := readGroups 0 8 t
  if head.length = 8 then some (head, t)
  else if headV4 then none
  else
    match (readChar ':' t).bind (readChar ':') with
    | none => none
    | some t =>
      let (tail, _, t) := readGroups 0 (8 - (head.length + 1)) t
      some (head ++ List.replicate (8 - head.length - tail.length) 0 ++ tail, t)

/-- `IpAddr::from_str`. -/
def parse (t : Text) : Option IpAddr :=
  match readIpv4Addr t with
  | some (os, []) => some (.v4 os)
  | some (_, _ :: _) => none
  | none =>
    match readIpv6Addr t with
    | some (gs, []) => some (.v6 gs)
    | _ => none

example : parse "10.96.0.1".toList = some (.v4 [10, 96, 0, 1]) := by decide

example : parse "fe80::1:127.0.0.1".toList = some (.v6 [65152, 0, 0, 0, 0, 1, 32512, 1]) := by
  decide

example : parse "10.096.0.1".toList = none ∧ parse "::1::".toList = none := by decide

end IpAddr

end Kubenyx.Common
