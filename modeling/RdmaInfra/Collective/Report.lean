/-
What `allreduce_bench` is told and what it reports: its arguments, the CSV row
of `main` and the table of `print_latency`.

The arguments it accepts for two ranks or more make a ring (`configParse_ring`).
Row and table read four figures off the sorted latencies. `latency_stats` takes the
`p`-th percentile of `n` samples at `(n - 1) * p / 100`, which the CSV branch
does not share.
-/
import RdmaInfra.BenchUtils
import RdmaInfra.Collective.Ring

namespace RdmaInfra.Collective

/-! ## Arguments -/

structure BenchConfig where
  rank : Int := 0
  world : Int := 0
  basePort : Int := 12345
  hostList : List String := []
  count : Int := 1024
  iters : Int := 100
  isRdma : Bool := false
  csv : Bool := false
  deriving DecidableEq, Repr

def configUsage (prog : String) : String :=
  "Usage:\n" ++
  "  " ++ prog ++ " <rank> <size> <base_port> <host0> <host1> ... [--iters n] [--count n] [--rdma] [--csv]\n" ++
  "  " ++ prog ++ " --csv-header\n"

/-- The loop over the arguments after the hosts. -/
def configOptions : List String → BenchConfig → Except String BenchConfig
  | [], cfg => .ok cfg
  | arg :: rest, cfg =>
    if arg = "--iters" then
      match rest with
      | [] => .error "missing value after --iters\n"
      | v :: rest => configOptions rest { cfg with iters := atoi v }
    else if arg = "--count" then
      match rest with
      | [] => .error "missing value after --count\n"
      | v :: rest => configOptions rest { cfg with count := atoi v }
    else if arg = "--rdma" then configOptions rest { cfg with isRdma := true }
    else if arg = "--csv" then configOptions rest { cfg with csv := true }
    else configOptions rest cfg

/-- `config_parse`, on `argv`; the error is what it prints. -/
def configParse (argv : List String) : Except String BenchConfig :=
  match argv with
  | prog :: rank :: world :: basePort :: args => do
    let cfg : BenchConfig := { rank := atoi rank, world := atoi world, basePort := atoi basePort }
    if cfg.world ≤ 0 ∨ cfg.rank < 0 ∨ cfg.rank ≥ cfg.world then
      throw "world must be > 0 and 0 <= rank < world\n"
    if args.length < cfg.world then throw (configUsage prog)
    let cfg ← configOptions (args.drop cfg.world.toNat) { cfg with hostList := args.take cfg.world.toNat }
    if cfg.count ≤ 0 ∨ cfg.count.tmod cfg.world ≠ 0 then
      throw ("count must be > 0 and divisible by world (got count=" ++ toString cfg.count ++
        " world=" ++ toString cfg.world ++ ")\n")
    return cfg
  | prog :: _ => .error (configUsage prog)
  | [] => .error ""

/-- What the options leave alone, and the count they set. -/
theorem configOptions_ok {args : List String} {cfg cfg' : BenchConfig} (h : configOptions args cfg = .ok cfg')
    (hc : IsInt cfg.count) :
    cfg'.rank = cfg.rank ∧ cfg'.world = cfg.world ∧ cfg'.hostList = cfg.hostList ∧ IsInt cfg'.count := by
  fun_induction configOptions args cfg with
  | case1 cfg =>
    cases h
    exact ⟨rfl, rfl, rfl, hc⟩
  | case2 cfg => cases h
  | case3 cfg v rest ih => exact ih h hc
  | case4 cfg => cases h
  | case5 cfg v rest _ ih => exact ih h (atoi_isInt v)
  | case6 cfg rest _ _ ih => exact ih h hc
  | case7 cfg rest _ _ _ ih => exact ih h hc
  | case8 cfg arg rest _ _ _ _ ih => exact ih h hc

/-- An accepted rank is one of the world's, every rank has a host, and the
buffer splits into one chunk per rank. Nothing is asked of `iters`. -/
theorem configParse_ok {argv : List String} {cfg : BenchConfig} (h : configParse argv = .ok cfg) :
    0 ≤ cfg.rank ∧ cfg.rank < cfg.world ∧ cfg.hostList.length = cfg.world ∧
      0 < cfg.count ∧ cfg.world ∣ cfg.count ∧ IsInt cfg.count := by
  unfold configParse at h
  split at h
  · next prog rank world basePort args =>
    simp only [bind, Except.bind, pure, Except.pure, throw, throwThe, MonadExceptOf.throw] at h
    split at h
    · cases h
    next hrank =>
    split at h
    · cases h
    next hhosts =>
    split at h
    · cases h
    next cfg' hopts =>
    split at h
    · cases h
    next hcount =>
    cases h
    have hdefault : IsInt 1024 := by decide
    obtain ⟨hr, hw, hl, hc⟩ := configOptions_ok hopts hdefault
    simp only [not_or, not_le, not_not, ge_iff_le] at hrank hcount
    simp only at hr hw hl
    have hlen : (cfg.hostList.length : Int) = atoi world := by
      rw [hl, List.length_take]
      omega
    exact ⟨by omega, by omega, by omega, hcount.1, Int.dvd_of_tmod_eq_zero hcount.2, hc⟩
  · cases h
  · cases h

/-- An accepted world of two or more is a ring, this rank is of it, and a chunk
is no longer than a work request can be. -/
theorem configParse_ring {argv : List String} {cfg : BenchConfig} (h : configParse argv = .ok cfg)
    (hw : 2 ≤ cfg.world) :
    ∃ (R : Ring) (r : Fin R.size), ((worldOf r).rank : Int) = cfg.rank ∧ ((worldOf r).size : Int) = cfg.world ∧
      (R.count : Int) = cfg.count ∧ R.bytes < 2 ^ 32 := by
  obtain ⟨hrank, hlt, -, hpos, hdvd, -, hmax⟩ := configParse_ok h
  have hworld : cfg.world ≤ cfg.count := Int.le_of_dvd hpos hdvd
  obtain ⟨chunk, hchunk⟩ := hdvd
  have hchunk0 : 0 < chunk := by
    rw [hchunk] at hpos
    exact Int.pos_of_mul_pos_right hpos (by omega)
  have hcount : 2 * chunk ≤ cfg.count := by
    rw [hchunk]
    exact Int.mul_le_mul_of_nonneg_right hw hchunk0.le
  let R : Ring := .ofInt cfg.world.toNat chunk.toNat (by omega) (by omega) (by omega) (by omega)
  refine ⟨R, ⟨cfg.rank.toNat, show cfg.rank.toNat < cfg.world.toNat by omega⟩, ?_, ?_, ?_, ?_⟩
  · exact Int.toNat_of_nonneg hrank
  · exact Int.toNat_of_nonneg (by omega)
  · have hprod : ((cfg.world.toNat * chunk.toNat : Nat) : Int) = cfg.count := by
      rw [Nat.cast_mul, Int.toNat_of_nonneg (by omega), Int.toNat_of_nonneg hchunk0.le, hchunk]
    exact hprod
  · show chunk.toNat * 4 < 2 ^ 32
    omega

/-! ## The row and the table -/

/-- The positions of the `--csv` branch. -/
def csvPositions (iters : Int) : LatStats Int := ⟨0, iters.tdiv 2, (iters * 99).tdiv 100, iters - 1⟩

def csvStats (samples : List Nat) (iters : Int) : Option (LatStats Nat) := readStats samples (csvPositions iters)

/-- The row reads inside the array, where the table reads, and so prints the same figures. -/
def SameReport (samples : List Nat) (iters : Int) : Prop :=
  (∀ i ∈ (csvPositions iters).toList, 0 ≤ i ∧ i < iters) ∧
  latencyPositions iters = some (csvPositions iters) ∧
  ∃ s, csvStats samples iters = some s ∧ latencyStats samples iters = some s

/-- `99 * n / 100` does not move from `n - 1` to `n` only where `n - 1` is a multiple of 100. -/
theorem p99_eq_iff {n : Int} (h : 0 < n) : ((n - 1) * 99).tdiv 100 = (n * 99).tdiv 100 ↔ n % 100 = 1 := by
  rw [Int.tdiv_eq_ediv_of_nonneg (by omega), Int.tdiv_eq_ediv_of_nonneg (by omega)]
  omega

theorem latencyPositions_eq_csv_iff {n : Int} (h : 0 ≤ n) :
    latencyPositions n = some (csvPositions n) ↔ n % 100 = 1 := by
  unfold latencyPositions csvPositions
  by_cases hn : n = 0
  · simp [hn]
  · rw [if_neg (by omega), Option.some.injEq, LatStats.mk.injEq, p99_eq_iff (by omega),
      Int.tdiv_eq_ediv_of_nonneg (by omega), Int.tdiv_eq_ediv_of_nonneg h]
    constructor
    · intro hall
      exact hall.2.2.1
    · intro hmod
      exact ⟨rfl, by omega, hmod, rfl⟩

theorem csvPositions_inside {n : Int} (h : 0 < n) : ∀ i ∈ (csvPositions n).toList, 0 ≤ i ∧ i < n := by
  simp only [LatStats.toList, csvPositions, List.forall_mem_cons, Int.tdiv_eq_ediv_of_nonneg h.le,
    Int.tdiv_eq_ediv_of_nonneg (show 0 ≤ n * 99 by omega)]
  refine ⟨by omega, by omega, by omega, by omega, ?_⟩
  simp

/-- The two agree on one length in a hundred. -/
theorem sameReport_iff (samples : List Nat) (iters : Int) (h : samples.length = iters) :
    SameReport samples iters ↔ iters % 100 = 1 := by
  have h0 : 0 ≤ iters := by omega
  unfold SameReport
  rw [latencyPositions_eq_csv_iff h0]
  constructor
  · intro hall
    exact hall.2.1
  · intro hmod
    have hin : ∀ i ∈ (csvPositions iters).toList, 0 ≤ i ∧ i < iters := csvPositions_inside (by omega)
    have hread : ∃ s, readStats samples (csvPositions iters) = some s := by
      refine readStats_inside fun i hi => ?_
      rw [h]
      exact hin i hi
    obtain ⟨s, hs⟩ := hread
    refine ⟨hin, hmod, s, hs, ?_⟩
    unfold latencyStats
    rw [(latencyPositions_eq_csv_iff h0).mpr hmod]
    exact hs

/-- With 101 samples both read the 100th as `p99`, which is not the largest. -/
theorem sameReport_hundred_one :
    SameReport (List.range 101) 101 ∧ (csvStats (List.range 101) 101).map LatStats.p99 = some 99 :=
  ⟨(sameReport_iff (List.range 101) 101 rfl).mpr rfl, by decide⟩

/-- A two-rank run of 100 iterations. -/
def hundredConfig : BenchConfig :=
  { rank := 0, world := 2, hostList := ["10.0.0.1", "10.0.0.2"], iters := 100, csv := true }

/-- A hundred samples: the row's `p99` is the largest of them, which
`latency_stats` is written to avoid, and its median is one place further. No
samples: the row reads an empty array. -/
theorem sameReport_fails :
    (configParse ["allreduce_bench", "0", "2", "12345", "10.0.0.1", "10.0.0.2", "--iters", "100", "--csv"]).toOption =
      some hundredConfig ∧
    (∀ samples : List Nat, ¬ SameReport samples hundredConfig.iters) ∧
    ¬ SameReport [] 0 := by
  refine ⟨by decide +kernel, ?_, ?_⟩
  · intro samples h
    exact absurd h.2.1 (by decide)
  · intro h
    exact absurd h.2.1 (by decide)

end RdmaInfra.Collective
