/-
How full the work queues of `lat_send_recv` and `bw_rdma_write` get.

The parser admits a depth of up to `RAI_QP_MAX_WR - 1`, as many entries as it
says can be posted. A server of `lat_send_recv` polls before it posts a further
receive and keeps to `prepost`; a client posts one before it sends, and so has
`prepost + 1` of them at once (`exists_peak`). The two processes may be started
with different options.
-/
import RdmaInfra.Verbs.BenchConfig
import RdmaInfra.Verbs.BwWrite
import RdmaInfra.Verbs.PingPong

namespace RdmaInfra.Verbs

/-- `kWarmup + cfg.iters`, where that is an `int`. -/
def BenchConfig.totalIters (cfg : BenchConfig) : Option Nat :=
  if kWarmup + cfg.iters ≤ intMax then some (kWarmup + cfg.iters).toNat else none

/-- What `main` of `lat_send_recv` computes from its options. -/
def BenchConfig.loop (cfg : BenchConfig) : Option PingPong.Loop := cfg.totalIters.map (.of cfg.depth.toNat)

namespace PingPong

/-! ## Peaks -/

section Peaks

variable {v c : Loop} {s : State}

theorem Linked.server_recv (h : Linked v c s) : s.server.recvPosted ≤ s.server.recvPlaced + v.prepost := by
  have hs := h.server
  have hb := h.behind
  have h1 := h.pong.reapedRecv_le
  have h2 := h.pong.reapedSend_le
  have h3 := h.pong.done_le
  have h4 := h.pong.placed_le
  rcases hpc : s.server.pc with _ | j | i | i | i | i <;> simp only [ServerAt, hpc] at hs <;> omega

theorem Linked.client_recv (h : Linked v c s) : s.client.recvPosted ≤ s.client.recvPlaced + c.prepost + 1 := by
  have hc := h.client
  have h1 := h.ping.reapedRecv_le
  rcases hpc : s.client.pc with _ | j | i | i | i | i <;> simp only [ClientAt, hpc] at hc <;> omega

theorem Linked.client_send (h : Linked v c s) :
    s.client.sendPosted ≤ s.client.sendDone + 1 ∧ s.client.sendPosted ≤ s.client.recvPlaced + 1 := by
  have hc := h.client
  have h1 := h.ping.reapedSend_le
  have h2 := h.ping.reapedRecv_le
  rcases hpc : s.client.pc with _ | j | i | i | i | i <;> simp only [ClientAt, hpc] at hc <;> omega

/-- The server may take pings for completions of its pongs, but only one ping
is ahead of the pongs posted. -/
theorem Linked.server_send (h : Linked v c s) : s.server.sendPosted ≤ s.server.sendDone + 2 := by
  have hs := h.server
  have h1 := h.pong.reapedRecv_le
  have h2 := h.pong.reapedSend_le
  have h3 := h.pong.placed_le
  have h4 := h.pong.link
  have h5 := h.ping.link
  have h6 := h.ping.placed_le
  have h7 := h.client_send.2
  rcases hpc : s.server.pc with _ | j | i | i | i | i <;> simp only [ServerAt, hpc] at hs <;> omega

end Peaks

/-- A side that has posted `n` receives and nothing else. -/
def Side.ready (pc : Pc) (n : Nat) : Side := { Side.init pc with recvPosted := n }

theorem server_preposts (v c : Loop) {j : Nat} (hj : j ≤ v.prepost) :
    (mixed v c).Reach ⟨.ready (.prepost j) j, .init .barrier⟩ := by
  induction j with
  | zero => exact Lts.Reach.init rfl
  | succ j ih =>
    refine Lts.Reach.next (a := .serverRun) (ih (by omega)) ?_
    simp only [mixed, step, Side.runServer, Side.ready, Side.init, Side.postRecv, Side.goto]
    rw [if_pos (by omega)]
    rfl

theorem client_preposts (v c : Loop) {j : Nat} (hj : j ≤ c.prepost) :
    (mixed v c).Reach ⟨.ready (.poll1 0) v.prepost, .ready (.prepost j) j⟩ := by
  induction j with
  | zero =>
    have hserver : (mixed v c).Reach ⟨.ready (.poll1 0) v.prepost, .init .barrier⟩ := by
      refine Lts.Reach.next (a := .serverRun) (server_preposts v c (Nat.le_refl _)) ?_
      simp only [mixed, step, Side.runServer, Side.ready, Side.init, Side.postRecv, Side.goto]
      rw [if_neg (by omega)]
      rfl
    exact Lts.Reach.next (a := .clientRun) hserver rfl
  | succ j ih =>
    refine Lts.Reach.next (a := .clientRun) (ih (by omega)) ?_
    simp only [mixed, step, Side.runClient, Side.ready, Side.init, Side.postRecv, Side.goto]
    rw [if_pos (by omega)]
    rfl

/-- The client posts a receive more than `prepost` before its first send. -/
theorem exists_peak (v c : Loop) (h : c.prepost < c.totalIters) :
    ∃ s, (mixed v c).Reach s ∧ s.client.recvPosted - s.client.recvPlaced = c.prepost + 1 := by
  have h1 : (mixed v c).Reach ⟨.ready (.poll1 0) v.prepost, .ready (.postRecv 0) c.prepost⟩ := by
    refine Lts.Reach.next (a := .clientRun) (client_preposts v c (Nat.le_refl _)) ?_
    simp only [mixed, step, Side.runClient, Side.ready, Side.init, Side.postRecv, Side.goto]
    rw [if_neg (by omega)]
    rfl
  refine ⟨⟨.ready (.poll1 0) v.prepost, .ready (.postSend 0) (c.prepost + 1)⟩, ?_, rfl⟩
  refine Lts.Reach.next (a := .clientRun) h1 ?_
  simp only [mixed, step, Side.runClient, Side.ready, Side.init, Side.postRecv, Side.goto]
  rw [if_pos (by omega), if_pos (by omega)]
  rfl

/-- The entries of both queues of a side that are in use can be. -/
def Side.Fits (s : Side) : Prop :=
  s.recvPosted - s.recvPlaced ≤ raiQpMaxWr - 1 ∧ s.sendPosted - s.sendDone ≤ raiQpMaxWr - 1

theorem Linked.server_fits {v c : Loop} {s : State} (h : Linked v c s) (hv : v.prepost < raiQpMaxWr) :
    s.server.Fits := by
  have hr := h.server_recv
  have hs := h.server_send
  unfold raiQpMaxWr at hv
  unfold Side.Fits raiQpMaxWr
  omega

theorem Linked.client_fits {v c : Loop} {s : State} (h : Linked v c s)
    (hc : c.prepost + 1 < raiQpMaxWr ∨ c.totalIters < raiQpMaxWr) : s.client.Fits := by
  have hr := h.client_recv
  have ht := h.client_recvPosted_le
  have hs := h.client_send.1
  unfold raiQpMaxWr at hc
  unfold Side.Fits raiQpMaxWr
  omega

end PingPong

/-! ## The accepted depths -/

/-- A process started with `argv` gets to its loop. -/
structure Started (argv : List String) (cfg : BenchConfig) (own : PingPong.Loop) : Prop where
  parsed : benchConfigParse argv = .ok cfg
  header : cfg.csvHeader = false
  loop : cfg.loop = some own

/-- A process of either benchmark keeps within its queues, whatever options
its peer was started with. The client of `bw_rdma_write` posts no receives. -/
structure RunsFit (cfg : BenchConfig) (own : PingPong.Loop) : Prop where
  latServer : cfg.serverIp = none → ∀ argv peer other, Started argv peer other → peer.serverIp ≠ none →
    ∀ s, (PingPong.mixed own other).Reach s → s.server.Fits
  latClient : cfg.serverIp ≠ none → ∀ argv peer other, Started argv peer other → peer.serverIp = none →
    ∀ s, (PingPong.mixed other own).Reach s → s.client.Fits
  bwClient : cfg.serverIp ≠ none → ∀ p : BwWrite.Params,
    p.size = cfg.size → p.depth = cfg.depth → p.totalIters = own.totalIters →
    ∀ s, (BwWrite.system p).Reach s → s.client.wr.posted - s.client.wr.done ≤ raiQpMaxWr - 1

/-- `--csv-header` leaves before any queue is there; past `INT_MAX` a run is not defined. -/
def QueuesFit (cfg : BenchConfig) : Prop :=
  cfg.csvHeader = false → ∃ own, cfg.loop = some own ∧ RunsFit cfg own

section Accepted

variable {cfg : BenchConfig} {own : PingPong.Loop}

theorem BenchConfig.loop_eq_some_iff : cfg.loop = some own ↔
    kWarmup + cfg.iters ≤ intMax ∧ own = .of cfg.depth.toNat (kWarmup + cfg.iters).toNat := by
  unfold BenchConfig.loop BenchConfig.totalIters
  split
  · next hle => simp [hle, eq_comm]
  · next hle => simp [hle]

theorem bw_fits (ha : cfg.Accepted) {p : BwWrite.Params} (hd : p.depth = cfg.depth) {s : BwWrite.State}
    (h : (BwWrite.system p).Reach s) : s.client.wr.posted - s.client.wr.done ≤ raiQpMaxWr - 1 := by
  have hw := (BwWrite.reach_inv h).window
  have hwin := hw.window
  have hle := hw.counted.reaped_le
  have hlt := ha.depth_lt
  omega

theorem runsFit (ha : cfg.Accepted) (hloop : cfg.loop = some own)
    (hfit : cfg.serverIp = none ∨ cfg.depth + 1 < raiQpMaxWr ∨ kWarmup + cfg.iters < raiQpMaxWr) :
    RunsFit cfg own := by
  obtain ⟨-, rfl⟩ := BenchConfig.loop_eq_some_iff.mp hloop
  have hpos := ha.depth_pos
  have hlt := ha.depth_lt
  have hiters := ha.iters_pos
  refine ⟨fun _ _ _ _ _ _ s hs => ?_, fun hc _ _ _ _ _ s hs => ?_, fun _ _ _ hd _ _ hs => bw_fits ha hd hs⟩
  · refine (PingPong.reach_linked hs).server_fits ?_
    simp only [PingPong.Loop.of]
    omega
  · refine (PingPong.reach_linked hs).client_fits ?_
    have := hfit.resolve_left hc
    simp only [PingPong.Loop.of]
    omega

/-- A client with all of the entries pre-posted goes past them, given iterations enough. -/
theorem not_runsFit (hloop : cfg.loop = some own) (hip : cfg.serverIp ≠ none)
    (hd : raiQpMaxWr ≤ cfg.depth + 1) (hi : raiQpMaxWr ≤ kWarmup + cfg.iters) (hlt : cfg.depth < raiQpMaxWr) :
    ¬ RunsFit cfg own := by
  obtain ⟨-, rfl⟩ := BenchConfig.loop_eq_some_iff.mp hloop
  intro hfit
  have hmax : raiQpMaxWr = 128 := rfl
  have hserver : Started ["lat_send_recv"] {} (.of 16 1020) := ⟨benchConfigParse_default _, rfl, rfl⟩
  obtain ⟨s, hs, hpeak⟩ := PingPong.exists_peak (.of 16 1020)
    (.of cfg.depth.toNat (kWarmup + cfg.iters).toNat) (by simp only [PingPong.Loop.of]; omega)
  obtain ⟨hrecv, -⟩ := hfit.latClient hip _ _ _ hserver rfl s hs
  rw [hpeak] at hrecv
  simp only [PingPong.Loop.of] at hrecv
  omega

end Accepted

/-- The one depth that fills the queue is kept to by a server, and by a client
whose iterations all fit in it. -/
theorem queues_fit_iff (argv : List String) (cfg : BenchConfig) (h : benchConfigParse argv = .ok cfg) :
    QueuesFit cfg ↔ cfg.csvHeader = true ∨ kWarmup + cfg.iters ≤ intMax ∧
      (cfg.serverIp = none ∨ cfg.depth + 1 < raiQpMaxWr ∨ kWarmup + cfg.iters < raiQpMaxWr) := by
  have ha := benchConfigParse_ok h
  constructor
  · intro hfit
    by_cases hheader : cfg.csvHeader = true
    · exact .inl hheader
    obtain ⟨own, hloop, hruns⟩ := hfit (by simpa using hheader)
    refine .inr ⟨(BenchConfig.loop_eq_some_iff.mp hloop).1, ?_⟩
    by_contra hcon
    simp only [not_or, not_lt] at hcon
    exact not_runsFit hloop hcon.1 hcon.2.1 hcon.2.2 ha.depth_lt hruns
  · intro hcond hheader
    obtain hcsv | ⟨hint, hcond⟩ := hcond
    · rw [hheader] at hcsv
      cases hcsv
    · have hloop := BenchConfig.loop_eq_some_iff.mpr ⟨hint, rfl⟩
      exact ⟨_, hloop, runsFit ha hloop hcond⟩

theorem queues_fit_default : QueuesFit { serverIp := some "10.0.0.1" } :=
  (queues_fit_iff ["lat_send_recv", "10.0.0.1"] _ rfl).mpr (.inr (by decide))

/-- The greatest depth the parser accepts. -/
theorem queues_overfull :
    benchConfigParse ["lat_send_recv", "10.0.0.1", "--depth", "127"] =
      .ok { serverIp := some "10.0.0.1", depth := 127 } ∧
    ¬ QueuesFit { serverIp := some "10.0.0.1", depth := 127 } := by
  refine ⟨by decide +kernel, fun hfit => ?_⟩
  obtain ⟨own, hloop, hruns⟩ := hfit rfl
  exact not_runsFit hloop (by decide) (by decide) (by decide) (by decide) hruns

end RdmaInfra.Verbs
