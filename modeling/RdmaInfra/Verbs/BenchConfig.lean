/-
The options of the phase 1 benchmarks (`bench_config.h`).
-/
import RdmaInfra.BenchUtils
import RdmaInfra.CInt
import RdmaInfra.Verbs.Setup

namespace RdmaInfra.Verbs

open Setup (Mode)

/-- `RAI_QP_MAX_WR`, the entries every work queue is created with. -/
def raiQpMaxWr : Nat := 128

/-- `bench_config_t`, as `bench_config_init` leaves it. A server has no `serverIp`. -/
structure BenchConfig where
  serverIp : Option String := none
  port : Int := 12345
  iters : Int := 1000
  size : Int := 4096
  depth : Int := 16
  conn : Mode := .cm
  csv : Bool := false
  csvHeader : Bool := false
  deriving DecidableEq, Repr

/-- The loop over the arguments. -/
def benchOptions : List String → BenchConfig → Except String BenchConfig
  | [], cfg => .ok cfg
  | opt :: rest, cfg =>
    if opt.toList.head? ≠ some '-' then benchOptions rest { cfg with serverIp := some opt }
    else if opt = "--csv" then benchOptions rest { cfg with csv := true }
    else if opt = "--csv-header" then benchOptions rest { cfg with csvHeader := true }
    else
      match rest with
      | [] => .error ("missing value after " ++ opt ++ "\n")
      | val :: rest =>
        if opt = "--port" then benchOptions rest { cfg with port := atoi val }
        else if opt = "--iters" then benchOptions rest { cfg with iters := atoi val }
        else if opt = "--size" then benchOptions rest { cfg with size := atoi val }
        else if opt = "--depth" then benchOptions rest { cfg with depth := atoi val }
        else if opt = "--conn" then
          if val = "cm" then benchOptions rest { cfg with conn := .cm }
          else if val = "verbs" then benchOptions rest { cfg with conn := .verbs }
          else .error ("unknown --conn value: " ++ val ++ " (want cm or verbs)\n")
        else .error ("unknown option: " ++ opt ++ "\n")

/-- `bench_config_parse`, on `argv`; the error is what it prints. -/
def benchConfigParse (argv : List String) : Except String BenchConfig := do
  let cfg ← benchOptions (argv.drop 1) {}
  if cfg.port < 1 ∨ cfg.port > 65534 then throw "--port must be 1..65534 (port+1 must be valid too)\n"
  if cfg.iters < 1 then throw "--iters must be >= 1\n"
  if cfg.size < 1 then throw "--size must be >= 1\n"
  if cfg.depth < 1 ∨ cfg.depth ≥ raiQpMaxWr then
    throw ("--depth must be 1.." ++ toString (raiQpMaxWr - 1) ++ "\n")
  return cfg

/-- The numbers are all of type `int`. -/
structure BenchConfig.Ints (cfg : BenchConfig) : Prop where
  port : IsInt cfg.port
  iters : IsInt cfg.iters
  size : IsInt cfg.size
  depth : IsInt cfg.depth

theorem benchOptions_ints {args : List String} {cfg cfg' : BenchConfig} (h : benchOptions args cfg = .ok cfg')
    (hi : cfg.Ints) : cfg'.Ints := by
  fun_induction benchOptions args cfg with
  | case1 cfg =>
    cases h
    exact hi
  | case2 cfg opt rest _ ih => exact ih h ⟨hi.port, hi.iters, hi.size, hi.depth⟩
  | case3 cfg rest _ ih => exact ih h ⟨hi.port, hi.iters, hi.size, hi.depth⟩
  | case4 cfg rest _ _ ih => exact ih h ⟨hi.port, hi.iters, hi.size, hi.depth⟩
  | case5 => cases h
  | case6 cfg val rest _ _ _ ih => exact ih h ⟨atoi_isInt val, hi.iters, hi.size, hi.depth⟩
  | case7 cfg val rest _ _ _ _ ih => exact ih h ⟨hi.port, atoi_isInt val, hi.size, hi.depth⟩
  | case8 cfg val rest _ _ _ _ _ ih => exact ih h ⟨hi.port, hi.iters, atoi_isInt val, hi.depth⟩
  | case9 cfg val rest _ _ _ _ _ _ ih => exact ih h ⟨hi.port, hi.iters, hi.size, atoi_isInt val⟩
  | case10 cfg rest _ _ _ _ _ _ _ ih => exact ih h ⟨hi.port, hi.iters, hi.size, hi.depth⟩
  | case11 cfg rest _ _ _ _ _ _ _ _ ih => exact ih h ⟨hi.port, hi.iters, hi.size, hi.depth⟩
  | case12 => cases h
  | case13 => cases h

/-- What `bench_config_parse` accepts. -/
structure BenchConfig.Accepted (cfg : BenchConfig) : Prop where
  ints : cfg.Ints
  port_pos : 1 ≤ cfg.port
  port_le : cfg.port ≤ 65534
  iters_pos : 1 ≤ cfg.iters
  size_pos : 1 ≤ cfg.size
  depth_pos : 1 ≤ cfg.depth
  depth_lt : cfg.depth < raiQpMaxWr

theorem benchConfigParse_ok {argv : List String} {cfg : BenchConfig} (h : benchConfigParse argv = .ok cfg) :
    cfg.Accepted := by
  unfold benchConfigParse at h
  simp only [bind, Except.bind, pure, Except.pure, throw, throwThe, MonadExceptOf.throw] at h
  split at h
  · cases h
  next cfg' hopts =>
  split at h
  · cases h
  next hport =>
  split at h
  · cases h
  next hiters =>
  split at h
  · cases h
  next hsize =>
  split at h
  · cases h
  next hdepth =>
  cases h
  have hdefault : BenchConfig.Ints {} := ⟨by decide, by decide, by decide, by decide⟩
  exact ⟨benchOptions_ints hopts hdefault, by omega, by omega, by omega, by omega, by omega, by omega⟩

/-- The defaults pass the checks. -/
theorem benchConfigParse_default (prog : String) : benchConfigParse [prog] = .ok {} := by
  rfl

example : benchConfigParse ["bw_rdma_write", "10.0.0.1", "--depth", "128"] = .error "--depth must be 1..127\n" := by
  rfl

end RdmaInfra.Verbs
