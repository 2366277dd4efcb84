/-
The timed loop of `kv_bench` (`run_bench` and `config_parse`).

Operations go out in batches of `depth`, and the clock of the bandwidth figure
starts with the first batch that lies behind the warm-up. The figure itself
divides `iters * slot_size` by the time from then on, so it is honest only
where that batch begins at operation `kWarmup` exactly.

A run is modelled by its trace. The clock, and the answers of the operations
and polls, are the environment's; an `int` that would overflow stops the run.
-/
import Mathlib.Data.List.Range
import Mathlib.Tactic.Ring
import RdmaInfra.BenchUtils
import RdmaInfra.CInt

namespace RdmaInfra.KvCache.Bench

/-! ## Arguments -/

/-- A depth `config_parse` accepts. -/
abbrev Depth := { d : Nat // 0 < d ∧ d ≤ intMax }

structure Config where
  serverIp : String
  port : Int := 12345
  iters : Int := 1000
  depth : Depth := ⟨1, by decide⟩
  csv : Bool := false
  deriving DecidableEq

theorem depth_bounds {s : String} (h : ¬ atoi s < 1) : 0 < (atoi s).toNat ∧ (atoi s).toNat ≤ intMax := by
  obtain ⟨-, hi⟩ := atoi_isInt s
  unfold intMax
  omega

/-- The loop over the arguments after the port. -/
def configOptions : List String → Config → Except String Config
  | [], cfg => .ok cfg
  | arg :: rest, cfg =>
    if arg = "--iters" then
      match rest with
      | [] => .error "missing value after --iters\n"
      | v :: rest => configOptions rest { cfg with iters := atoi v }
    else if arg = "--depth" then
      match rest with
      | [] => .error "missing value after --depth\n"
      | v :: rest =>
        if h : atoi v < 1 then .error "depth must be >= 1\n"
        else configOptions rest { cfg with depth := ⟨(atoi v).toNat, depth_bounds h⟩ }
    else if arg = "--csv" then configOptions rest { cfg with csv := true }
    else configOptions rest cfg

/-- `config_parse`, on `argv`; the error is what it prints. -/
def configParse (argv : List String) : Except String Config :=
  match argv with
  | _ :: serverIp :: port :: args => configOptions args { serverIp := serverIp, port := atoi port }
  | _ => .error ""

/-! ## The loop -/

/-- What a run does, in order. -/
inductive Event
  | clock (ns : Nat)
  | bwStart (ns : Nat)
  | post (i : Nat)
  | poll
  | latency (idx per : Nat)
  deriving DecidableEq, Repr

/-- The readings of the clock, and which operations and polls return 0. -/
structure Env where
  clock : Nat → Nat
  op : Nat → Bool
  poll : Nat → Bool

structure State where
  readings : Nat := 0
  bwStart : Nat := 0
  trace : List Event := []

inductive Stop
  | lengthError
  | overflow
  | failed
  deriving DecidableEq, Repr

def State.record (s : State) (e : Event) : State := { s with trace := s.trace ++ [e] }

/-- `time_now_ns()`. -/
def timeNow (env : Env) (s : State) : Nat × State :=
  let ns := env.clock s.readings
  (ns, { s with readings := s.readings + 1 }.record (.clock ns))

/-- A loop over `k < n` of calls of which `ok k` return 0; the first failure ends the run. -/
def forEach (n : Nat) (ok : Nat → Bool) (e : Nat → Event) (s : State) : Except Stop State :=
  (List.range n).foldlM (fun s k => if ok k then .ok (s.record (e k)) else .error .failed) s

/-- The body of the loop at `i`, for the `n` operations of its batch. -/
def batch (env : Env) (i n : Nat) (s : State) : Except Stop State := do
  let (iterStart, s) := timeNow env s
  let s := if i ≥ kWarmup ∧ s.bwStart = 0 then { s with bwStart := iterStart }.record (.bwStart iterStart) else s
  let s ← forEach n (fun k => env.op (i + k)) (fun k => .post (i + k)) s
  let s ← forEach n (fun k => env.poll (i + k)) (fun _ => .poll) s
  let (now, s) := timeNow env s
  let per := timeElapsed iterStart now / n
  return (List.range n).foldl
    (fun s k => if i + k ≥ kWarmup then s.record (.latency (i + k - kWarmup) per) else s) s

/-- The loop from `i` on. -/
def loop (env : Env) (total : Nat) (depth : Depth) (i : Nat) (s : State) : Except Stop State :=
  if i < total then do
    let s ← batch env i (min depth.1 (total - i)) s
    if i + depth.1 ≤ intMax then loop env total depth (i + depth.1) s else throw .overflow
  else return s
termination_by total - i
decreasing_by
  have := depth.2.1
  omega

/-- The trace, and the bytes and the time of the bandwidth figure. -/
structure Report where
  trace : List Event
  bytes : Nat
  totalTime : Nat

def runBench (env : Env) (slotSize : Nat) (iters : Int) (depth : Depth) : Except Stop Report := do
  if iters < 0 then throw .lengthError
  if kWarmup + iters > intMax then throw .overflow
  let s ← loop env (kWarmup + iters.toNat) depth 0 {}
  let (now, s) := timeNow env s
  return ⟨s.trace, sizeT (intToSizeT iters * slotSize), timeElapsed s.bwStart now⟩

/-! ## Traces -/

/-- The values `bw_start` was given. -/
def starts (t : List Event) : List Nat := t.filterMap fun | .bwStart ns => some ns | _ => none

/-- The operations posted. -/
def posts (t : List Event) : List Nat := t.filterMap fun | .post i => some i | _ => none

/-- The indices of `latencies` written. -/
def written (t : List Event) : List Nat := t.filterMap fun | .latency idx _ => some idx | _ => none

/-- How many operations were posted after `bw_start` was first set. -/
def timedPosts : List Event → Option Nat
  | [] => none
  | .bwStart _ :: t => some (posts t).length
  | _ :: t => timedPosts t

@[simp] theorem starts_append (t u : List Event) : starts (t ++ u) = starts t ++ starts u := List.filterMap_append

@[simp] theorem posts_append (t u : List Event) : posts (t ++ u) = posts t ++ posts u := List.filterMap_append

@[simp] theorem written_append (t u : List Event) : written (t ++ u) = written t ++ written u := List.filterMap_append

theorem timedPosts_append {t : List Event} (h : starts t = []) (u : List Event) :
    timedPosts (t ++ u) = timedPosts u := by
  induction t with
  | nil => rfl
  | cons e t ih =>
    cases e with
    | bwStart ns => simp [starts] at h
    | clock | post | poll | latency =>
      simp only [List.cons_append, timedPosts]
      exact ih (by simpa [starts] using h)

/-- The clock reading at the end of a run adds to no count. -/
theorem timedPosts_clock (t : List Event) (ns : Nat) : timedPosts (t ++ [.clock ns]) = timedPosts t := by
  induction t with
  | nil => rfl
  | cons e t ih =>
    cases e with
    | bwStart => simp [timedPosts, posts]
    | clock | post | poll | latency => exact ih

/-- The events of a batch, started at clock reading `a` and measured at `b`. -/
def batchTrace (sets : Bool) (a b i n : Nat) : List Event :=
  (.clock a :: if sets then [.bwStart a] else []) ++ (List.range n).map (fun k => .post (i + k)) ++
    List.replicate n .poll ++ [.clock b] ++
    ((List.range n).filter (fun k => i + k ≥ kWarmup)).map fun k =>
      .latency (i + k - kWarmup) (timeElapsed a b / n)

/-- A run in which every operation and poll returns 0, with a clock that has left 0. -/
structure Env.Succeeds (env : Env) : Prop where
  op : ∀ i, env.op i
  poll : ∀ i, env.poll i
  clock : ∀ k, env.clock k ≠ 0

theorem forEach_eq {n : Nat} {ok : Nat → Bool} (h : ∀ k < n, ok k) (e : Nat → Event) (s : State) :
    forEach n ok e s = .ok { s with trace := s.trace ++ (List.range n).map e } := by
  unfold forEach
  replace h : ∀ k ∈ List.range n, ok k := fun k hk => h k (List.mem_range.mp hk)
  generalize List.range n = ks at h ⊢
  induction ks generalizing s with
  | nil => simp [pure, Except.pure]
  | cons k ks ih =>
    rw [List.foldlM_cons, if_pos (h k List.mem_cons_self)]
    refine (ih (s.record (e k)) fun k' hk' => h k' (List.mem_cons_of_mem _ hk')).trans ?_
    simp [State.record]

/-- One call that fails ends the loop. -/
theorem forEach_failed {n k : Nat} {ok : Nat → Bool} (hk : k < n) (h : ok k = false) (e : Nat → Event) (s : State) :
    forEach n ok e s = .error .failed := by
  unfold forEach
  replace hk : k ∈ List.range n := List.mem_range.mpr hk
  generalize List.range n = ks at hk
  induction ks generalizing s with
  | nil => cases hk
  | cons k' ks ih =>
    rw [List.foldlM_cons]
    cases hok : ok k' with
    | false => rfl
    | true =>
      rcases List.mem_cons.mp hk with rfl | hk
      · rw [h] at hok
        cases hok
      · exact ih _ hk

theorem foldl_record (p : Nat → Prop) [DecidablePred p] (e : Nat → Event) (ks : List Nat) (s : State) :
    ks.foldl (fun s k => if p k then s.record (e k) else s) s =
      { s with trace := s.trace ++ (ks.filter p).map e } := by
  induction ks generalizing s with
  | nil => simp
  | cons k ks ih =>
    rw [List.foldl_cons, ih]
    by_cases hk : p k
    · simp [hk, State.record]
    · simp [hk]

theorem batch_eq {env : Env} (he : env.Succeeds) (i n : Nat) (s : State) :
    batch env i n s = .ok
      { readings := s.readings + 2
        bwStart := if i ≥ kWarmup ∧ s.bwStart = 0 then env.clock s.readings else s.bwStart
        trace := s.trace ++ batchTrace (i ≥ kWarmup ∧ s.bwStart = 0) (env.clock s.readings)
          (env.clock (s.readings + 1)) i n } := by
  unfold batch timeNow
  simp only [forEach_eq (fun k _ => he.op (i + k)), forEach_eq (fun k _ => he.poll (i + k)),
    foldl_record (fun k => i + k ≥ kWarmup), bind, Except.bind, pure, Except.pure]
  by_cases h : i ≥ kWarmup ∧ s.bwStart = 0
  · simp [batchTrace, State.record, h, List.map_const']
  · simp [batchTrace, State.record, h, List.map_const']

theorem map_add_range (i n : Nat) : (List.range n).map (i + ·) = List.range' i n := by
  rw [List.range_eq_range', List.map_add_range']
  rfl

@[simp] theorem posts_batchTrace (sets : Bool) (a b i n : Nat) :
    posts (batchTrace sets a b i n) = List.range' i n := by
  rw [← map_add_range]
  cases sets <;> simp [posts, batchTrace, List.filterMap_map]

@[simp] theorem starts_batchTrace (sets : Bool) (a b i n : Nat) :
    starts (batchTrace sets a b i n) = if sets then [a] else [] := by
  cases sets <;> simp [starts, batchTrace, List.filterMap_map]

/-- The operations of a batch that lie behind the warm-up are consecutive. -/
theorem timed_indices (i n : Nat) :
    ((List.range n).filter (fun k => i + k ≥ kWarmup)).map (fun k => i + k - kWarmup) =
      List.range' (i - kWarmup) (i + n - kWarmup - (i - kWarmup)) := by
  induction n with
  | zero => simp
  | succ n ih =>
    rw [List.range_succ, List.filter_append, List.map_append, ih]
    by_cases h : kWarmup ≤ i + n
    · have hlen : i + (n + 1) - kWarmup - (i - kWarmup) = i + n - kWarmup - (i - kWarmup) + 1 := by omega
      have hpos : i + n - kWarmup = i - kWarmup + (i + n - kWarmup - (i - kWarmup)) := by omega
      rw [hlen, List.range'_concat]
      simp only [ge_iff_le, h, decide_true, List.filter_cons_of_pos, List.filter_nil, List.map_cons, List.map_nil]
      rw [Nat.one_mul, ← hpos]
    · have hlen : i + (n + 1) - kWarmup - (i - kWarmup) = i + n - kWarmup - (i - kWarmup) := by omega
      simp [h, hlen]

@[simp] theorem written_batchTrace (sets : Bool) (a b i n : Nat) :
    written (batchTrace sets a b i n) = List.range' (i - kWarmup) (i + n - kWarmup - (i - kWarmup)) := by
  rw [← timed_indices]
  cases sets <;> simp [written, batchTrace, List.filterMap_map]

theorem timedPosts_batchTrace (a b i n : Nat) (t : List Event) :
    timedPosts (batchTrace true a b i n ++ t) = some (n + (posts t).length) := by
  simp [batchTrace, timedPosts, posts, List.filterMap_map]

/-! ## Whole runs -/

/-- Where the loop counter leaves the loop. -/
def nextMultiple (depth n : Nat) : Nat := depth * ((n + depth - 1) / depth)

theorem le_nextMultiple {depth n i : Nat} (hd : 0 < depth) (hi : depth ∣ i) (h : i < n) :
    i + depth ≤ nextMultiple depth n := by
  obtain ⟨c, rfl⟩ := hi
  have hc : c + 1 ≤ (n + depth - 1) / depth := by
    rw [Nat.le_div_iff_mul_le hd, Nat.add_mul, Nat.one_mul, Nat.mul_comm c]
    omega
  calc depth * c + depth = depth * (c + 1) := by ring
    _ ≤ nextMultiple depth n := Nat.mul_le_mul_left _ hc

theorem self_le_nextMultiple {depth n : Nat} (hd : 0 < depth) : n ≤ nextMultiple depth n := by
  have hdiv := Nat.div_add_mod (n + depth - 1) depth
  have hmod := Nat.mod_lt (n + depth - 1) hd
  unfold nextMultiple
  omega

theorem nextMultiple_le {depth n i : Nat} (hd : 0 < depth) (hi : depth ∣ i) (h : n ≤ i) :
    nextMultiple depth n ≤ i := by
  obtain ⟨c, rfl⟩ := hi
  have hc : (n + depth - 1) / depth < c + 1 := by
    rw [Nat.div_lt_iff_lt_mul hd, Nat.add_mul, Nat.one_mul, Nat.mul_comm c]
    omega
  exact Nat.mul_le_mul_left _ (Nat.le_of_lt_succ hc)

/-- `m` is the first batch at or after `i` that lies behind the warm-up. -/
def FirstTimed (depth i m : Nat) : Prop :=
  ∃ j, m = i + j * depth ∧ kWarmup ≤ m ∧ ∀ j' < j, i + j' * depth < kWarmup

theorem FirstTimed.self {depth i : Nat} (h : kWarmup ≤ i) : FirstTimed depth i i :=
  ⟨0, by simp, h, by simp⟩

theorem FirstTimed.succ {depth i m : Nat} (hi : i < kWarmup) (h : FirstTimed depth (i + depth) m) :
    FirstTimed depth i m := by
  obtain ⟨j, hm, hk, hlt⟩ := h
  refine ⟨j + 1, by rw [hm]; ring, hk, fun j' hj' => ?_⟩
  cases j' with
  | zero => simpa using hi
  | succ j' =>
    have := hlt j' (by omega)
    rw [Nat.succ_mul]
    omega

theorem FirstTimed.exists {depth : Nat} (hd : 0 < depth) (i : Nat) : ∃ m, FirstTimed depth i m := by
  induction hn : kWarmup - i using Nat.strong_induction_on generalizing i with
  | _ n ih =>
    by_cases h : kWarmup ≤ i
    · exact ⟨i, .self h⟩
    · obtain ⟨m, hm⟩ := ih (kWarmup - (i + depth)) (by omega) (i + depth) rfl
      exact ⟨m, hm.succ (by omega)⟩

theorem FirstTimed.le {depth i m : Nat} (h : FirstTimed depth i m) : i ≤ m := by
  obtain ⟨j, hm, -, -⟩ := h
  omega

/-- From the start of the loop the first timed batch is the next multiple of `depth` after the warm-up. -/
theorem FirstTimed.eq_kWarmup_iff {depth m : Nat} (h : FirstTimed depth 0 m) :
    m = kWarmup ↔ depth ∣ kWarmup := by
  obtain ⟨j, hm, hk, hlt⟩ := h
  rw [Nat.zero_add] at hm
  constructor
  · intro he
    exact ⟨j, by rw [← he, hm, Nat.mul_comm]⟩
  · intro hdvd
    obtain ⟨c, hc⟩ := hdvd
    have hjc : ¬ c < j := by
      intro hcj
      have := hlt c hcj
      rw [Nat.zero_add, Nat.mul_comm] at this
      omega
    have : j * depth ≤ c * depth := Nat.mul_le_mul_right _ (by omega)
    rw [Nat.mul_comm c] at this
    omega

/-- What a run of the loop from `i` adds to the trace, with `bw_start` at `b`. -/
structure LoopTrace (total depth i b : Nat) (t : List Event) : Prop where
  posts : posts t = List.range' i (total - i)
  written : written t = List.range' (i - kWarmup) (total - kWarmup - (i - kWarmup))
  started : b ≠ 0 → starts t = []
  unstarted : b = 0 → ∃ m, FirstTimed depth i m ∧
    (m < total → (∃ ns, starts t = [ns] ∧ [.clock ns, .bwStart ns] <:+: t) ∧ timedPosts t = some (total - m)) ∧
    (total ≤ m → starts t = [])

theorem LoopTrace.nil {total depth i b : Nat} (hd : 0 < depth) (h : total ≤ i) : LoopTrace total depth i b [] := by
  have h1 : total - i = 0 := by omega
  have h2 : total - kWarmup - (i - kWarmup) = 0 := by omega
  refine ⟨by simp [Bench.posts, h1], by simp [Bench.written, h2], fun _ => rfl, fun _ => ?_⟩
  obtain ⟨m, hm⟩ := FirstTimed.exists hd i
  have := hm.le
  exact ⟨m, hm, by omega, fun _ => rfl⟩

theorem range'_batch (total depth i : Nat) :
    List.range' i (min depth (total - i)) ++ List.range' (i + depth) (total - (i + depth)) =
      List.range' i (total - i) := by
  by_cases h : i + depth ≤ total
  · have hn : min depth (total - i) = depth := by omega
    rw [hn, List.range'_append_1]
    congr 1
    omega
  · have hn : min depth (total - i) = total - i := by omega
    have h0 : total - (i + depth) = 0 := by omega
    rw [hn, h0]
    simp

theorem range'_written (total depth i : Nat) :
    List.range' (i - kWarmup) (i + min depth (total - i) - kWarmup - (i - kWarmup)) ++
      List.range' (i + depth - kWarmup) (total - kWarmup - (i + depth - kWarmup)) =
      List.range' (i - kWarmup) (total - kWarmup - (i - kWarmup)) := by
  by_cases h : i + depth ≤ total
  · have hn : min depth (total - i) = depth := by omega
    have hs : i + depth - kWarmup = i - kWarmup + (i + depth - kWarmup - (i - kWarmup)) := by omega
    rw [hn, hs, Nat.add_sub_cancel_left, List.range'_append_1]
    congr 1
    omega
  · have hn : i + min depth (total - i) - kWarmup - (i - kWarmup) = total - kWarmup - (i - kWarmup) := by omega
    have h0 : total - kWarmup - (i + depth - kWarmup) = 0 := by omega
    rw [hn, h0]
    simp

/-- One batch in front of the rest of the loop. -/
theorem LoopTrace.batch {total depth i b ns ns' : Nat} {t : List Event} (hi : i < total) (hns : ns ≠ 0)
    (h : LoopTrace total depth (i + depth) (if i ≥ kWarmup ∧ b = 0 then ns else b) t) :
    LoopTrace total depth i b
      (batchTrace (i ≥ kWarmup ∧ b = 0) ns ns' i (min depth (total - i)) ++ t) := by
  refine ⟨by rw [posts_append, posts_batchTrace, h.posts, range'_batch],
    by rw [written_append, written_batchTrace, h.written, range'_written], fun hb => ?_, fun hb => ?_⟩
  · have ht := h.started
    simp only [hb, and_false, if_false] at ht
    simp [hb, ht]
  subst hb
  by_cases hw : kWarmup ≤ i
  · -- This batch sets `bw_start`, so no later one does.
    have ht : starts t = [] := h.started (by simpa [hw] using hns)
    have hlen := congrArg List.length h.posts
    simp only [List.length_range'] at hlen
    simp only [ge_iff_le, hw, and_self, decide_true]
    refine ⟨i, .self hw, fun _ => ⟨⟨ns, by simp [ht], ?_⟩, ?_⟩, fun hle => by omega⟩
    · exact ⟨[], _, by simp only [batchTrace, if_true, List.nil_append, List.cons_append]; rfl⟩
    · rw [timedPosts_batchTrace, hlen]
      congr 1
      omega
  · obtain ⟨m, hm, hlt, hge⟩ := h.unstarted (by simp [hw])
    simp only [ge_iff_le, hw, false_and, decide_false]
    have hstarts (a : Nat) (n : Nat) : starts (batchTrace false ns a i n) = [] := by simp
    refine ⟨m, hm.succ (by omega), fun hmt => ?_, fun hle => by simp [hge hle]⟩
    obtain ⟨⟨v, hv, hinfix⟩, htimed⟩ := hlt hmt
    exact ⟨⟨v, by simp [hv], hinfix.trans (List.suffix_append _ _).isInfix⟩,
      by rw [timedPosts_append (hstarts _ _), htimed]⟩

theorem loop_ok {env : Env} (he : env.Succeeds) {total i : Nat} {depth : Depth} (hi : depth.1 ∣ i)
    (hn : nextMultiple depth.1 total ≤ intMax) (s : State) :
    ∃ s' t, loop env total depth i s = .ok s' ∧ s'.trace = s.trace ++ t ∧
      LoopTrace total depth.1 i s.bwStart t := by
  induction hk : total - i using Nat.strong_induction_on generalizing i s with
  | _ k ih =>
    have hd := depth.2.1
    unfold loop
    by_cases hlt : i < total
    · have hle := le_nextMultiple hd hi hlt
      obtain ⟨s', t, hloop, htrace, ht⟩ := ih (total - (i + depth.1)) (by omega)
        (Nat.dvd_add hi (Nat.dvd_refl _)) _ rfl
      rw [if_pos hlt, batch_eq he]
      simp only [bind, Except.bind]
      rw [if_pos (by omega)]
      exact ⟨s', _, hloop, by rw [htrace, List.append_assoc], ht.batch hlt (he.clock _)⟩
    · rw [if_neg hlt]
      exact ⟨s, [], rfl, by simp, .nil hd (by omega)⟩

theorem loop_overflow {env : Env} (he : env.Succeeds) {total i : Nat} {depth : Depth} (hi : depth.1 ∣ i)
    (hlt : i < total) (hn : intMax < nextMultiple depth.1 total) (s : State) :
    loop env total depth i s = .error .overflow := by
  induction hk : total - i using Nat.strong_induction_on generalizing i s with
  | _ k ih =>
    have hd := depth.2.1
    have hi' : depth.1 ∣ i + depth.1 := Nat.dvd_add hi (Nat.dvd_refl _)
    unfold loop
    rw [if_pos hlt, batch_eq he]
    simp only [bind, Except.bind]
    by_cases hmax : i + depth.1 ≤ intMax
    · rw [if_pos hmax]
      have hlt' : i + depth.1 < total := by
        by_contra hge
        have := nextMultiple_le hd hi' (n := total) (by omega)
        omega
      exact ih _ (by omega) hi' hlt' _ rfl
    · rw [if_neg hmax]
      rfl

/-- The bandwidth figure counts what it timed: `bw_start` is set once, to the
start of a batch, `iters` operations are posted from then on, and every entry
of `latencies` is written exactly once. -/
structure Honest (iters : Nat) (t : List Event) : Prop where
  start : ∃ ns, starts t = [ns] ∧ [.clock ns, .bwStart ns] <:+: t
  timed : timedPosts t = some iters
  written : (written t).Perm (List.range iters)

/-- A run is honest just where its first timed batch is operation `kWarmup`. -/
theorem LoopTrace.honest_iff {iters depth now : Nat} {t : List Event} (h1 : 1 ≤ iters)
    (h : LoopTrace (kWarmup + iters) depth 0 0 t) : Honest iters (t ++ [.clock now]) ↔ depth ∣ kWarmup := by
  obtain ⟨m, hm, hlt, hge⟩ := h.unstarted rfl
  have hk : kWarmup ≤ m := hm.choose_spec.2.1
  have hstarts : starts (t ++ [.clock now]) = starts t := by simp [starts]
  have hwritten : Bench.written (t ++ [.clock now]) = List.range iters := by
    have hw := h.written
    rw [Nat.zero_sub, Nat.sub_zero, Nat.add_sub_cancel_left, ← List.range_eq_range'] at hw
    rw [written_append, hw]
    simp [Bench.written]
  rw [← hm.eq_kWarmup_iff]
  constructor
  · intro hh
    obtain ⟨⟨ns, hns, -⟩, htimed, -⟩ := hh
    rw [hstarts] at hns
    rw [timedPosts_clock] at htimed
    have hmt : m < kWarmup + iters := by
      by_contra hc
      simp [hge (by omega)] at hns
    have := (hlt hmt).2.symm.trans htimed
    simp only [Option.some.injEq] at this
    omega
  · intro he
    obtain ⟨⟨ns, hns, hinfix⟩, htimed⟩ := hlt (by omega)
    refine ⟨⟨ns, hstarts.trans hns, hinfix.trans (List.prefix_append _ _).isInfix⟩, ?_, by rw [hwritten]⟩
    rw [timedPosts_clock, htimed, he]
    congr 1
    omega

/-- The figure is honest just where a batch begins right behind the warm-up
(and the loop counter never leaves `int`). -/
theorem runBench_honest_iff (env : Env) (he : env.Succeeds) (slotSize : Nat) (cfg : Config) (hi : 1 ≤ cfg.iters) :
    (∃ r, runBench env slotSize cfg.iters cfg.depth = .ok r ∧ Honest cfg.iters.toNat r.trace) ↔
      cfg.depth.1 ∣ kWarmup ∧ nextMultiple cfg.depth.1 (kWarmup + cfg.iters.toNat) ≤ intMax := by
  have h0 : ¬ cfg.iters < 0 := by omega
  have hself := self_le_nextMultiple (n := kWarmup + cfg.iters.toNat) cfg.depth.2.1
  unfold runBench
  simp only [h0, if_false, bind, Except.bind, pure, Except.pure]
  by_cases hn : nextMultiple cfg.depth.1 (kWarmup + cfg.iters.toNat) ≤ intMax
  · obtain ⟨s', t, hloop, htrace, ht⟩ := loop_ok he (Nat.dvd_zero _) hn {}
    rw [if_neg (by omega), hloop]
    simp only [timeNow, State.record, htrace, List.nil_append, Except.ok.injEq, exists_eq_left', hn, and_true]
    rw [ht.honest_iff (by omega)]
  · simp only [hn, and_false, iff_false, not_exists, not_and]
    intro r hr
    split at hr
    · cases hr
    · rw [loop_overflow he (Nat.dvd_zero _) (by omega) (by omega)] at hr
      cases hr

/-- A clock that ticks once per reading. -/
def tickingEnv : Env := ⟨fun k => k + 1, fun _ => true, fun _ => true⟩

theorem tickingEnv_succeeds : tickingEnv.Succeeds := ⟨fun _ => rfl, fun _ => rfl, fun _ => Nat.succ_ne_zero _⟩

theorem runBench_honest_default :
    ∃ r, runBench tickingEnv 4096 1000 ⟨1, by decide⟩ = .ok r ∧ Honest 1000 r.trace :=
  (runBench_honest_iff tickingEnv tickingEnv_succeeds 4096 { serverIp := "10.0.0.1" } (by decide)).mpr (by decide)

/-- The trace of a run of 40 iterations. -/
def fortyTrace (depth : Depth) : Option (List Event) := (runBench tickingEnv 4096 40 depth).toOption.map Report.trace

/-- At depth 16 the first timed batch is operation 32, so 28 of the 40
operations the figure counts were timed; at depth 100 none was. -/
theorem runBench_dishonest :
    (configParse ["kv_bench", "10.0.0.1", "12345", "--iters", "40", "--depth", "16"]).toOption =
      some { serverIp := "10.0.0.1", iters := 40, depth := ⟨16, by decide⟩ } ∧
    (∃ t, fortyTrace ⟨16, by decide⟩ = some t ∧ timedPosts t = some 28 ∧ ¬ Honest 40 t) ∧
    (∃ t, fortyTrace ⟨100, by decide⟩ = some t ∧ starts t = [] ∧ ¬ Honest 40 t) := by
  have h16 : (fortyTrace ⟨16, by decide⟩).map timedPosts = some (some 28) := by decide +kernel
  have h100 : (fortyTrace ⟨100, by decide⟩).map starts = some [] := by decide +kernel
  obtain ⟨t, ht, h28⟩ := Option.map_eq_some_iff.mp h16
  obtain ⟨u, hu, hnone⟩ := Option.map_eq_some_iff.mp h100
  refine ⟨by decide +kernel, ⟨t, ht, h28, fun h => ?_⟩, u, hu, hnone, fun h => ?_⟩
  · exact absurd (h28.symm.trans h.timed) (by decide)
  · obtain ⟨ns, hns, -⟩ := h.start
    exact absurd (hnone.symm.trans hns) (by simp)

end RdmaInfra.KvCache.Bench
