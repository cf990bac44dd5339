import Kubenyx.Common.Decimal

/-!
# Arguments of kubenyx-lb

Model of `parse_args` (kubenyx-lb lib.rs:96-150). Durations are in milliseconds.

* `parseArgs_spec`: what the three checks at the end guarantee of an accepted configuration.
-/

namespace Kubenyx.Lb

open Kubenyx.Common

/-- `Cfg` (lib.rs:75-94). -/
structure Cfg where
  listen : Text
  backends : List Text
  probeInterval : ℕ
  failThreshold : ℕ
  drainTimeout : ℕ
  dialTimeout : ℕ
  probeHttp : Bool
  probeCert : Option Text
  probeKey : Option Text
  deriving DecidableEq

/-- The defaults (lib.rs:97-107). -/
def Cfg.default : Cfg where
  listen := "127.0.0.1:6444".toList
  backends := []
  probeInterval := 500
  failThreshold := 3
  drainTimeout := 10000
  dialTimeout := 3000
  probeHttp := false
  probeCert := none
  probeKey := none

/-- The value of a numeric flag, of a type of `bits` bits. -/
def number (bits : ℕ) (flag v : Text) : Except Text ℕ :=
  match parseUnsigned bits v with
  | some n => .ok n
  | none => .error ("bad ".toList ++ flag ++ " value ".toList ++ v)

/-- The flags that take a value (lib.rs:123-135), and what they set. -/
def valueFlags : List (Text × (Cfg → Text → Text → Except Text Cfg)) :=
  [("--listen".toList, fun cfg _ v => .ok { cfg with listen := v }),
    ("--backend".toList, fun cfg _ v => .ok { cfg with backends := cfg.backends ++ [v] }),
    ("--probe-interval-ms".toList, fun cfg flag v =>
      (number 64 flag v).map fun n => { cfg with probeInterval := n }),
    ("--fail-threshold".toList, fun cfg flag v =>
      (number 32 flag v).map fun n => { cfg with failThreshold := n }),
    ("--drain-timeout-ms".toList, fun cfg flag v =>
      (number 64 flag v).map fun n => { cfg with drainTimeout := n }),
    ("--dial-timeout-ms".toList, fun cfg flag v =>
      (number 64 flag v).map fun n => { cfg with dialTimeout := n }),
    ("--probe-cert".toList, fun cfg _ v => .ok { cfg with probeCert := some v }),
    ("--probe-key".toList, fun cfg _ v => .ok { cfg with probeKey := some v })]

/-- The loop over the arguments (lib.rs:108-138). -/
def parseFlags (cfg : Cfg) : List Text → Except Text Cfg
  | [] => .ok cfg
  | [flag] =>
    if flag = "--probe-http".toList then .ok { cfg with probeHttp := true }
    else
      match valueFlags.lookup flag with
      | none => .error ("unknown flag ".toList ++ flag)
      | some _ => .error ("missing value for ".toList ++ flag)
  | flag :: v :: args =>
    if flag = "--probe-http".toList then parseFlags { cfg with probeHttp := true } (v :: args)
    else
      match valueFlags.lookup flag with
      | none => .error ("unknown flag ".toList ++ flag)
      | some set =>
        match set cfg flag v with
        | .error e => .error e
        | .ok cfg => parseFlags cfg args

/-- `parse_args` (lib.rs:96-150). -/
def parseArgs (args : List Text) : Except Text Cfg :=
  match parseFlags .default args with
  | .error e => .error e
  | .ok cfg =>
    if cfg.backends = [] then .error "at least one --backend is required".toList
    else if cfg.failThreshold = 0 then .error "--fail-threshold must be >= 1".toList
    else if cfg.probeCert.isSome ≠ cfg.probeKey.isSome then
      .error "--probe-cert and --probe-key must be given together".toList
    else .ok cfg

theorem lt_of_number {bits n : ℕ} {flag v : Text} (h : number bits flag v = .ok n) : n < 2 ^ bits := by
  unfold number at h
  cases hparse : parseUnsigned bits v with
  | none => rw [hparse] at h; cases h
  | some m =>
    rw [hparse] at h
    obtain rfl := Except.ok.inj h
    exact lt_of_parseUnsigned hparse

/-- Every flag leaves the threshold a number of 32 bits. -/
theorem threshold_of_valueFlags : ∀ f ∈ valueFlags, ∀ cfg flag v cfg',
    f.2 cfg flag v = .ok cfg' → cfg.failThreshold < 2 ^ 32 → cfg'.failThreshold < 2 ^ 32 := by
  have hmap : ∀ {bits} {flag v : Text} {g : ℕ → Cfg} {cfg' : Cfg},
      (number bits flag v).map g = .ok cfg' → ∃ n < 2 ^ bits, cfg' = g n := by
    intro bits flag v g cfg' h
    cases hn : number bits flag v with
    | error e => rw [hn] at h; cases h
    | ok n =>
      rw [hn] at h
      exact ⟨n, lt_of_number hn, (Except.ok.inj h).symm⟩
  unfold valueFlags
  simp only [List.forall_mem_cons]
  refine ⟨?_, ?_, ?_, ?_, ?_, ?_, ?_, ?_, List.forall_mem_nil _⟩
  · rintro cfg flag v cfg' ⟨⟩ hlt
    exact hlt
  · rintro cfg flag v cfg' ⟨⟩ hlt
    exact hlt
  · intro cfg flag v cfg' h hlt
    obtain ⟨n, -, rfl⟩ := hmap h
    exact hlt
  · intro cfg flag v cfg' h _
    obtain ⟨n, hn, rfl⟩ := hmap h
    exact hn
  · intro cfg flag v cfg' h hlt
    obtain ⟨n, -, rfl⟩ := hmap h
    exact hlt
  · intro cfg flag v cfg' h hlt
    obtain ⟨n, -, rfl⟩ := hmap h
    exact hlt
  · rintro cfg flag v cfg' ⟨⟩ hlt
    exact hlt
  · rintro cfg flag v cfg' ⟨⟩ hlt
    exact hlt

theorem threshold_of_parseFlags {cfg cfg' : Cfg} {args : List Text}
    (h : parseFlags cfg args = .ok cfg') (hlt : cfg.failThreshold < 2 ^ 32) :
    cfg'.failThreshold < 2 ^ 32 := by
  fun_induction parseFlags cfg args with
  | case1 cfg =>
    obtain rfl := Except.ok.inj h
    exact hlt
  | case2 cfg =>
    obtain rfl := Except.ok.inj h
    exact hlt
  | case3 => cases h
  | case4 => cases h
  | case5 cfg v args ih => exact ih h hlt
  | case6 => cases h
  | case7 => cases h
  | case8 cfg flag v args hflag set hset cfg₁ hcfg₁ ih =>
    have hmem : (flag, set) ∈ valueFlags := by
      obtain ⟨before, after, heq, -⟩ := List.lookup_eq_some_iff.mp hset
      rw [heq]
      exact List.mem_append_right _ List.mem_cons_self
    exact ih h (threshold_of_valueFlags _ hmem cfg flag v cfg₁ hcfg₁ hlt)

/-- An accepted configuration has a backend, a threshold that can be reached and a client
    certificate with its key or neither. -/
theorem parseArgs_spec {args : List Text} {cfg : Cfg} (h : parseArgs args = .ok cfg) :
    cfg.backends ≠ [] ∧ 1 ≤ cfg.failThreshold ∧ cfg.failThreshold < 2 ^ 32 ∧
      cfg.probeCert.isSome = cfg.probeKey.isSome := by
  unfold parseArgs at h
  cases hflags : parseFlags .default args with
  | error e => rw [hflags] at h; cases h
  | ok cfg' =>
    rw [hflags] at h
    dsimp only at h
    split_ifs at h with hbackends hzero hpair
    obtain rfl := Except.ok.inj h
    exact ⟨hbackends, Nat.one_le_iff_ne_zero.mpr hzero,
      threshold_of_parseFlags hflags (by decide), not_not.mp hpair⟩

end Kubenyx.Lb
