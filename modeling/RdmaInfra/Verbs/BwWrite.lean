/-
`bw_rdma_write`: the client keeps up to `depth` writes of one buffer in flight
and reaps without blocking, the server waits for a doorbell in the last byte.

The program is taken from after the exchange of addresses, the server's
doorbell cleared. `ibv_poll_cq` gives any number of the completions there are,
up to `CQ_POLL_BATCH`, and the NIC reads, lands and completes writes at any
time. The exchange before teardown is as in `lat_rdma_write`. Beside the
program's variables the client keeps how many writes were posted when
`bw_start` was taken.
-/
import Mathlib.Logic.Function.Basic
import RdmaInfra.BenchUtils
import RdmaInfra.Lts
import RdmaInfra.Verbs.Ops
import RdmaInfra.Verbs.RdmaWrite

namespace RdmaInfra.Verbs

/-! ## Any number of writes -/

/-- The counts of a queue in order, with those in flight between landed and posted. -/
structure Writes.Counted {β : Type} (q : Writes β) : Prop where
  reaped_le : q.reaped ≤ q.done
  done_le : q.done ≤ q.landed
  flight : q.landed + q.sq.length = q.posted

namespace Writes.Counted

variable {β : Type} {q q' : Writes β} {mem peer peer' : Mem β} {k n : Nat}

theorem fetch (h : q.Counted) (hf : q.fetch mem k n = some q') :
    q'.Counted ∧ q'.posted = q.posted ∧ q'.landed = q.landed ∧ q'.reaped = q.reaped := by
  unfold Writes.fetch at hf
  split at hf
  · cases hf
  · split at hf
    · cases hf
      exact ⟨⟨h.reaped_le, h.done_le, by rw [List.length_set]; exact h.flight⟩, rfl, rfl, rfl⟩
    · cases hf

theorem land (h : q.Counted) (hl : q.land n peer = some (q', peer')) :
    q'.Counted ∧ q'.posted = q.posted ∧ q'.reaped = q.reaped := by
  unfold Writes.land at hl
  have hflight := h.flight
  have hdone := h.done_le
  split at hl
  · cases hl
  · next w ws hsq =>
    rw [hsq, List.length_cons] at hflight
    split at hl
    · simp only at hl
      split at hl
      · cases hl
        exact ⟨⟨h.reaped_le, by simp only; omega, by simp only; omega⟩, rfl, rfl⟩
      · cases hl
        exact ⟨⟨h.reaped_le, h.done_le, by simp only [List.length_cons]; omega⟩, rfl, rfl⟩
    · cases hl

theorem complete (h : q.Counted) (hc : q.complete = some q') :
    q'.Counted ∧ q'.posted = q.posted ∧ q'.landed = q.landed ∧ q'.reaped = q.reaped := by
  unfold Writes.complete at hc
  split at hc
  · next hlt =>
    cases hc
    exact ⟨⟨Nat.le_succ_of_le h.reaped_le, hlt, h.flight⟩, rfl, rfl, rfl⟩
  · cases hc

end Writes.Counted

end RdmaInfra.Verbs

namespace RdmaInfra.Verbs.BwWrite

/-! ## The program -/

def cqPollBatch : Nat := 16

/-- The `int`s of the configuration, and what the driver granted as `max_inline`. -/
structure Params where
  size : Nat
  depth : Nat
  totalIters : Nat
  maxInline : Nat
  size_pos : 0 < size
  depth_pos : 0 < depth
  total_pos : 0 < totalIters
  size_le : size ≤ intMax
  depth_le : depth ≤ intMax
  total_le : totalIters ≤ intMax

/-- `clear` is the store before the loops, `outer` and `inner` the tests of
the two, `mark`, `stamp` and `post` the body of the inner one. -/
inductive ClientPc
  | clear
  | outer
  | inner
  | mark
  | stamp
  | post
  | poll
  | connect
  | recv
  | send
  | teardown
  | failed
  deriving DecidableEq, Repr

inductive ServerPc
  | spin
  | accept
  | send
  | recv
  | teardown
  deriving DecidableEq, Repr

structure Client where
  pc : ClientPc
  mem : Mem Nat
  wr : Writes Nat
  scnt : Nat
  ccnt : Nat
  bwStart : List Nat

structure Server where
  pc : ServerPc
  mem : Mem Nat

structure State where
  server : Server
  client : Client

/-- A `uint64_t` difference. -/
def sub64 (a b : Nat) : Nat := sizeT (a + 2 ^ 64 - b)

/-- The last byte of the buffer. -/
def Params.doorbell (p : Params) : Nat := p.size - 1

namespace Client

def goto (pc : ClientPc) (c : Client) : Client := { c with pc := pc }

/-- `*doorbell = v`. -/
def store (p : Params) (v : Nat) (c : Client) : Client := { c with mem := Function.update c.mem p.doorbell v }

/-- `rai_post_write` of the whole buffer, and `scnt++`. A small payload is
copied into the request. -/
def postWrite (p : Params) (c : Client) : Client :=
  if sgeInBounds p.size (u32 p.size) 0 then
    let data := if u32 p.size ≤ p.maxInline then c.mem.read 0 (u32 p.size) else []
    { c with
      wr := { c.wr with sq := c.wr.sq ++ [⟨0, 0, u32 p.size, data, 0⟩], posted := c.wr.posted + 1 }
      scnt := sizeT (c.scnt + 1)
      pc := .inner }
  else c.goto .failed

/-- The client's next step; `peer` is where the server is. -/
def run (p : Params) (peer : ServerPc) (c : Client) : Option Client :=
  match c.pc with
  | .clear => some ((c.store p 0).goto .outer)
  | .outer => some (if c.ccnt < p.totalIters then c.goto .inner else c.goto .connect)
  | .inner =>
    some (if c.scnt < p.totalIters ∧ sub64 c.scnt c.ccnt < p.depth then c.goto .mark else c.goto .poll)
  | .mark => some ((if c.scnt = sub64 p.totalIters 1 then c.store p 1 else c).goto .stamp)
  | .stamp => some ((if c.scnt = kWarmup then { c with bwStart := c.bwStart ++ [c.scnt] } else c).goto .post)
  | .post => some (c.postWrite p)
  | .connect => some (c.goto .recv)
  | .recv => if peer = .recv ∨ peer = .teardown then some (c.goto .send) else none
  | .send => some (c.goto .teardown)
  | .poll | .teardown | .failed => none

/-- `ibv_poll_cq` returns `ne`. -/
def pollCq (ne : Nat) (c : Client) : Option Client :=
  if c.pc = .poll ∧ ne ≤ cqPollBatch ∧ c.wr.reaped + ne ≤ c.wr.done then
    some { c with wr := { c.wr with reaped := c.wr.reaped + ne }, ccnt := sizeT (c.ccnt + ne), pc := .outer }
  else none

end Client

/-- The server's next step; `peer` is where the client is. -/
def Server.run (p : Params) (peer : ClientPc) (v : Server) : Option Server :=
  match v.pc with
  | .spin => if v.mem p.doorbell = 0 then none else some { v with pc := .accept }
  | .accept =>
    match peer with
    | .recv | .send | .teardown => some { v with pc := .send }
    | _ => none
  | .send => some { v with pc := .recv }
  | .recv => if peer = .teardown then some { v with pc := .teardown } else none
  | .teardown => none

inductive Action
  | serverRun
  | clientRun
  | poll (ne : Nat)
  | fetch (k n : Nat)
  | land (n : Nat)
  | complete
  deriving DecidableEq, Repr

def step (p : Params) : Action → State → Option State
  | .serverRun, s => (s.server.run p s.client.pc).map fun v => { s with server := v }
  | .clientRun, s => (s.client.run p s.server.pc).map fun c => { s with client := c }
  | .poll ne, s => (s.client.pollCq ne).map fun c => { s with client := c }
  | .fetch k n, s => (s.client.wr.fetch s.client.mem k n).map fun q => { s with client := { s.client with wr := q } }
  | .land n, s => (s.client.wr.land n s.server.mem).map fun (q, m) =>
      ⟨{ s.server with mem := m }, { s.client with wr := q }⟩
  | .complete, s => s.client.wr.complete.map fun q => { s with client := { s.client with wr := q } }

/-- The server's doorbell is cleared before it accepts; the rest of the
buffers is what the heap had. -/
def system (p : Params) : Lts State Action where
  init s := ∃ m m' : Mem Nat, m p.doorbell = 0 ∧ s = ⟨⟨.spin, m⟩, ⟨.clear, m', .init, 0, 0, []⟩⟩
  step := step p

/-! ## The window -/

/-- The client's counts at each point of its program. -/
def ClientAt (p : Params) (c : Client) : Prop :=
  match c.pc with
  | .clear => c.wr.posted = 0
  | .outer => True
  | .inner => c.wr.reaped < p.totalIters
  | .mark | .stamp | .post => c.wr.posted < p.totalIters ∧ c.wr.posted < c.wr.reaped + p.depth
  | .poll => c.wr.reaped < p.totalIters ∧ c.wr.posted = min (c.wr.reaped + p.depth) p.totalIters
  | .connect | .recv | .send | .teardown => c.wr.posted = p.totalIters ∧ c.wr.reaped = p.totalIters
  | .failed => False

/-- The writes posted when `bw_start` was taken, at each point. -/
def stampsAt (c : Client) : List Nat :=
  if kWarmup < c.wr.posted ∨ c.pc = .post ∧ c.wr.posted = kWarmup then [kWarmup] else []

/-- The two counters are the queue's, and the window is never exceeded. -/
structure Window (p : Params) (c : Client) : Prop where
  counted : c.wr.Counted
  scnt : c.scnt = c.wr.posted
  ccnt : c.ccnt = c.wr.reaped
  window : c.wr.posted ≤ c.wr.reaped + p.depth
  total : c.wr.posted ≤ p.totalIters
  pc : ClientAt p c
  stamps : c.bwStart = stampsAt c

theorem Window.reaped_le {p : Params} {c : Client} (h : Window p c) : c.wr.reaped ≤ c.wr.posted := by
  have h1 := h.counted.reaped_le
  have h2 := h.counted.done_le
  have h3 := h.counted.flight
  omega

theorem sub64_eq {a b : Nat} (h : b ≤ a) (ha : a < 2 ^ 64) : sub64 a b = a - b := by
  unfold sub64 sizeT
  omega

/-- No test of the program ever sees a wrapped difference. -/
theorem Window.sub64 {p : Params} {c : Client} (h : Window p c) : sub64 c.scnt c.ccnt = c.wr.posted - c.wr.reaped := by
  have hle := h.reaped_le
  have htotal := h.total
  have hint := p.total_le
  unfold intMax at hint
  rw [h.scnt, h.ccnt, sub64_eq hle (by omega)]

/-- A step that only moves the client on, but for the one that takes `bw_start`. -/
theorem Window.move {p : Params} {c c' : Client} (h : Window p c) (hwr : c'.wr = c.wr) (hs : c'.scnt = c.scnt)
    (hc : c'.ccnt = c.ccnt) (hb : c'.bwStart = c.bwStart) (hpost : c.pc ≠ .post) (hpost' : c'.pc ≠ .post)
    (hat : ClientAt p c') : Window p c' := by
  obtain ⟨h1, h2, h3, h4, h5, -, h7⟩ := h
  refine ⟨hwr ▸ h1, by rw [hs, hwr, h2], by rw [hc, hwr, h3], by rw [hwr]; exact h4, by rw [hwr]; exact h5, hat, ?_⟩
  unfold stampsAt at h7 ⊢
  simpa [hwr, hpost, hpost', hb] using h7

theorem Window.goto {p : Params} {c : Client} {pc : ClientPc} (h : Window p c) (hpost : c.pc ≠ .post)
    (hpost' : pc ≠ .post) (hat : ClientAt p (c.goto pc)) : Window p (c.goto pc) :=
  h.move rfl rfl rfl rfl hpost hpost' hat

theorem Window.stamp {p : Params} {c : Client} (h : Window p c) (hpc : c.pc = .stamp) :
    Window p ((if c.scnt = kWarmup then { c with bwStart := c.bwStart ++ [c.scnt] } else c).goto .post) := by
  have hat := h.pc
  have hst := h.stamps
  simp only [ClientAt, hpc] at hat
  simp only [stampsAt, hpc, reduceCtorEq, false_and, or_false] at hst
  split
  · next hk =>
    have hposted : c.wr.posted = kWarmup := h.scnt.symm.trans hk
    refine ⟨h.counted, h.scnt, h.ccnt, h.window, h.total, hat, ?_⟩
    simp [stampsAt, Client.goto, hst, hposted, hk]
  · next hk =>
    have hposted : c.wr.posted ≠ kWarmup := h.scnt ▸ hk
    refine ⟨h.counted, h.scnt, h.ccnt, h.window, h.total, hat, ?_⟩
    simp [stampsAt, Client.goto, hst, hposted]

theorem Window.postWrite {p : Params} {c : Client} (h : Window p c) (hpc : c.pc = .post) : Window p (c.postWrite p) := by
  have hat := h.pc
  have hst := h.stamps
  have hle := h.reaped_le
  have hflight := h.counted.flight
  have hscnt := h.scnt
  have hint := p.total_le
  have hsize := p.size_le
  simp only [ClientAt, hpc] at hat
  simp only [stampsAt, hpc, true_and] at hst
  unfold intMax at hint hsize
  unfold Client.postWrite
  rw [u32_of_lt (by omega), if_pos (sgeInBounds_of_le p.size_pos (by omega) (by omega))]
  have hsucc : sizeT (c.scnt + 1) = c.wr.posted + 1 := by rw [sizeT_of_lt (by omega), hscnt]
  have hcounted : Writes.Counted
      { c.wr with
        sq := c.wr.sq ++ [⟨0, 0, p.size, if p.size ≤ p.maxInline then c.mem.read 0 p.size else [], 0⟩]
        posted := c.wr.posted + 1 } := by
    refine ⟨h.counted.reaped_le, h.counted.done_le, ?_⟩
    simp only [List.length_append, List.length_singleton]
    omega
  refine ⟨hcounted, hsucc, h.ccnt, by simp only; omega, by simp only; omega, by simp only [ClientAt]; omega, ?_⟩
  rw [hst]
  unfold stampsAt
  refine if_congr ?_ rfl rfl
  simp only [reduceCtorEq, false_and, or_false]
  omega

theorem Window.run {p : Params} {c c' : Client} {peer : ServerPc} (h : Window p c) (hr : c.run p peer = some c') :
    Window p c' := by
  have hat := h.pc
  have hle := h.reaped_le
  have hwin := h.window
  have htot := h.total
  have hccnt := h.ccnt
  have hscnt := h.scnt
  unfold Client.run at hr
  split at hr <;> rename_i hpc <;> simp only [ClientAt, hpc] at hat
  · cases hr
    exact h.move rfl rfl rfl rfl (by simp [hpc]) (by simp [Client.goto]) trivial
  · cases hr
    split
    · refine h.goto (by simp [hpc]) (by simp) ?_
      simp only [ClientAt, Client.goto]
      omega
    · refine h.goto (by simp [hpc]) (by simp) ?_
      simp only [ClientAt, Client.goto]
      omega
  · cases hr
    rw [h.sub64]
    split
    · refine h.goto (by simp [hpc]) (by simp) ?_
      simp only [ClientAt, Client.goto]
      omega
    · refine h.goto (by simp [hpc]) (by simp) ?_
      simp only [ClientAt, Client.goto]
      omega
  · cases hr
    split
    · exact h.move rfl rfl rfl rfl (by simp [hpc]) (by simp [Client.goto]) hat
    · exact h.goto (by simp [hpc]) (by simp) hat
  · cases hr
    exact h.stamp hpc
  · cases hr
    exact h.postWrite hpc
  · cases hr
    exact h.goto (by simp [hpc]) (by simp) hat
  · split at hr
    · cases hr
      exact h.goto (by simp [hpc]) (by simp) hat
    · cases hr
  · cases hr
    exact h.goto (by simp [hpc]) (by simp) hat
  all_goals cases hr

theorem Window.pollCq {p : Params} {c c' : Client} {ne : Nat} (h : Window p c) (hr : c.pollCq ne = some c') :
    Window p c' := by
  unfold Client.pollCq at hr
  split at hr
  swap
  · cases hr
  next hne =>
  cases hr
  have hst := h.stamps
  have htot := h.total
  have hwin := h.window
  have hccnt := h.ccnt
  have hdone := h.counted.done_le
  have hflight := h.counted.flight
  have hint := p.total_le
  unfold intMax at hint
  refine ⟨⟨hne.2.2, h.counted.done_le, h.counted.flight⟩, h.scnt, ?_, by simp only; omega, h.total, trivial, ?_⟩
  · simp only
    rw [sizeT_of_lt (by omega), hccnt]
  · unfold stampsAt at hst ⊢
    simpa [hne.1] using hst

/-- The NIC moves bytes and completes; the program's own counts stay. -/
theorem Window.nic {p : Params} {c : Client} {q : Writes Nat} (h : Window p c) (hq : q.Counted)
    (hp : q.posted = c.wr.posted) (hr : q.reaped = c.wr.reaped) : Window p { c with wr := q } := by
  obtain ⟨-, h2, h3, h4, h5, h6, h7⟩ := h
  refine ⟨hq, hp.symm ▸ h2, hr.symm ▸ h3, by simp only; omega, by simp only; omega, ?_, ?_⟩
  · unfold ClientAt at h6 ⊢
    simpa only [hp, hr] using h6
  · unfold stampsAt at h7 ⊢
    simpa only [hp] using h7

/-! ## Runs -/

structure Inv (p : Params) (s : State) : Prop where
  window : Window p s.client
  /-- The server goes on to `rai_qp_destroy` once the client has sent its last message. -/
  out : s.server.pc = .teardown → s.client.pc = .teardown

theorem Inv.server {p : Params} {s : State} {v : Server} (h : Inv p s) (hr : s.server.run p s.client.pc = some v) :
    Inv p { s with server := v } := by
  refine ⟨h.window, fun hv => ?_⟩
  unfold Server.run at hr
  split at hr
  · split at hr
    · cases hr
    · cases hr
      cases hv
  · split at hr
    all_goals
      cases hr
      try cases hv
  · cases hr
    cases hv
  · split at hr
    · next hc => exact hc
    · cases hr
  · cases hr

theorem Inv.client {p : Params} {s : State} {c : Client} (h : Inv p s) (hr : s.client.run p s.server.pc = some c) :
    Inv p { s with client := c } := by
  refine ⟨h.window.run hr, fun hv => ?_⟩
  unfold Client.run at hr
  rw [h.out hv] at hr
  cases hr

theorem Inv.poll {p : Params} {s : State} {c : Client} {ne : Nat} (h : Inv p s) (hr : s.client.pollCq ne = some c) :
    Inv p { s with client := c } := by
  refine ⟨h.window.pollCq hr, fun hv => ?_⟩
  unfold Client.pollCq at hr
  rw [h.out hv] at hr
  simp at hr

theorem Inv.step {p : Params} {a : Action} {s s' : State} (h : Inv p s) (hs : step p a s = some s') : Inv p s' := by
  cases a with
  | serverRun =>
    obtain ⟨v, hv, rfl⟩ := Option.map_eq_some_iff.mp hs
    exact h.server hv
  | clientRun =>
    obtain ⟨c, hc, rfl⟩ := Option.map_eq_some_iff.mp hs
    exact h.client hc
  | poll ne =>
    obtain ⟨c, hc, rfl⟩ := Option.map_eq_some_iff.mp hs
    exact h.poll hc
  | fetch k n =>
    obtain ⟨q, hq, rfl⟩ := Option.map_eq_some_iff.mp hs
    obtain ⟨hcounted, hp, -, hr⟩ := h.window.counted.fetch hq
    exact ⟨h.window.nic hcounted hp hr, h.out⟩
  | land n =>
    obtain ⟨⟨q, m⟩, hq, rfl⟩ := Option.map_eq_some_iff.mp hs
    obtain ⟨hcounted, hp, hr⟩ := h.window.counted.land hq
    exact ⟨h.window.nic hcounted hp hr, h.out⟩
  | complete =>
    obtain ⟨q, hq, rfl⟩ := Option.map_eq_some_iff.mp hs
    obtain ⟨hcounted, hp, -, hr⟩ := h.window.counted.complete hq
    exact ⟨h.window.nic hcounted hp hr, h.out⟩

theorem reach_inv {p : Params} {s : State} (h : (system p).Reach s) : Inv p s := by
  refine Lts.Reach.inv (fun s h0 => ?_) (fun _ _ _ _ hi hst => hi.step hst) h
  obtain ⟨m, m', -, rfl⟩ := h0
  refine ⟨⟨⟨Nat.le_refl _, Nat.le_refl _, rfl⟩, rfl, rfl, Nat.zero_le _, Nat.zero_le _, rfl, rfl⟩, fun hv => ?_⟩
  cases hv

/-- The client has left its loop. -/
def ClientPc.pastLoop : ClientPc → Bool
  | .connect | .recv | .send | .teardown => true
  | _ => false

theorem Window.pastLoop {p : Params} {c : Client} (h : Window p c) (hpc : c.pc.pastLoop) :
    c.wr.posted = p.totalIters ∧ c.wr.reaped = p.totalIters := by
  have hat := h.pc
  unfold ClientAt at hat
  split at hat <;> simp_all [ClientPc.pastLoop]

/-- The window of the client's loop and the exchange at its end, in every
state of every run. -/
theorem window_safe (p : Params) (s : State) (h : (system p).Reach s) :
    (s.client.ccnt ≤ s.client.scnt ∧ s.client.scnt - s.client.ccnt ≤ p.depth ∧ s.client.scnt ≤ p.totalIters ∧
      sub64 s.client.scnt s.client.ccnt = s.client.scnt - s.client.ccnt) ∧
    (s.client.scnt = s.client.wr.posted ∧ s.client.ccnt = s.client.wr.reaped) ∧
    (s.client.pc = .post → s.client.wr.posted - s.client.wr.reaped < p.depth) ∧
    (s.client.pc = .poll →
      s.client.wr.posted - s.client.wr.reaped = min p.depth (p.totalIters - s.client.ccnt)) ∧
    (s.client.pc = .outer → ((s.client.run p s.server.pc).map Client.pc = some .connect ↔
      s.client.wr.posted = p.totalIters ∧ s.client.wr.reaped = p.totalIters)) ∧
    (s.client.pc.pastLoop → s.client.wr.posted = p.totalIters ∧ s.client.wr.reaped = p.totalIters) ∧
    (s.client.pc.pastLoop → kWarmup < p.totalIters →
      s.client.bwStart.map (s.client.wr.posted - ·) = [p.totalIters - kWarmup]) ∧
    (s.server.pc = .teardown → s.client.wr.reaped = p.totalIters) := by
  have hinv := reach_inv h
  have hw := hinv.window
  have hle := hw.reaped_le
  have hwin := hw.window
  have htot := hw.total
  have hat := hw.pc
  have hccnt := hw.ccnt
  refine ⟨?_, ⟨hw.scnt, hw.ccnt⟩, fun hpc => ?_, fun hpc => ?_, fun hpc => ?_, hw.pastLoop, fun hpc hk => ?_, fun hpc => ?_⟩
  · rw [hw.sub64, hw.scnt, hw.ccnt]
    omega
  · simp only [ClientAt, hpc] at hat
    omega
  · simp only [ClientAt, hpc] at hat
    omega
  · unfold Client.run
    rw [hpc]
    simp only [Option.map_some, Option.some.injEq]
    split
    · simp only [Client.goto, reduceCtorEq, false_iff]
      omega
    · simp only [Client.goto, true_iff]
      omega
  · have hposted := (hw.pastLoop hpc).1
    rw [hw.stamps, stampsAt, if_pos (.inl (by omega)), hposted]
    rfl
  · have hc := hinv.out hpc
    exact (hw.pastLoop (by rw [hc]; rfl)).2

/-- One write more than the warm-up, of four bytes, at most two at a time. -/
def twentyOne : Params where
  size := 4
  depth := 2
  totalIters := kWarmup + 1
  maxInline := 0
  size_pos := by decide
  depth_pos := by decide
  total_pos := by decide
  size_le := by decide
  depth_le := by decide
  total_le := by decide

/-- The client fills its window. -/
def fillActs : List Action := List.replicate 11 .clientRun

/-- Every other write is posted when the oldest is reaped; the last lands, the
server sees it and goes to the exchange, and both sides leave. -/
def twentyOneActs : List Action :=
  let reap : List Action := [.fetch 0 4, .land 4, .complete, .poll 1]
  fillActs ++ (List.replicate 19 (reap ++ List.replicate 6 .clientRun)).flatten ++ reap ++ [.clientRun, .clientRun] ++
    [.fetch 0 4, .land 4, .serverRun, .complete, .poll 1, .clientRun, .clientRun, .serverRun, .serverRun, .clientRun,
      .clientRun, .serverRun]

theorem window_safe_twentyOne :
    (∃ s, (system twentyOne).Reach s ∧ s.client.pc = .poll ∧ s.client.wr.posted - s.client.wr.reaped = 2) ∧
    ∃ s, (system twentyOne).Reach s ∧ s.server.pc = .teardown ∧ s.client.wr.reaped = 21 ∧
      s.client.bwStart.map (s.client.wr.posted - ·) = [1] := by
  have hinit : (system twentyOne).Reach ⟨⟨.spin, fun _ => 0⟩, ⟨.clear, fun _ => 0, .init, 0, 0, []⟩⟩ :=
    .init ⟨fun _ => 0, fun _ => 0, rfl, rfl⟩
  constructor
  · have hrun : ((system twentyOne).exec fillActs
        ⟨⟨.spin, fun _ => 0⟩, ⟨.clear, fun _ => 0, .init, 0, 0, []⟩⟩).map (fun s => (s.client.pc, s.client.ccnt)) =
        some (.poll, 0) := by
      decide +kernel
    obtain ⟨s, hs, heq⟩ := Option.map_eq_some_iff.mp hrun
    simp only [Prod.mk.injEq] at heq
    obtain ⟨-, -, -, hfull, -⟩ := window_safe twentyOne s (hinit.exec hs)
    have hcount := hfull heq.1
    rw [heq.2] at hcount
    exact ⟨s, hinit.exec hs, heq.1, hcount⟩
  · have hrun : ((system twentyOne).exec twentyOneActs
        ⟨⟨.spin, fun _ => 0⟩, ⟨.clear, fun _ => 0, .init, 0, 0, []⟩⟩).map (fun s => (s.server.pc, s.client.pc)) =
        some (.teardown, .teardown) := by
      decide +kernel
    obtain ⟨s, hs, heq⟩ := Option.map_eq_some_iff.mp hrun
    simp only [Prod.mk.injEq] at heq
    obtain ⟨-, -, -, -, -, -, hstamp, hreaped⟩ := window_safe twentyOne s (hinit.exec hs)
    exact ⟨s, hinit.exec hs, heq.1, hreaped heq.1, hstamp (by rw [heq.2]; rfl) (by decide)⟩

end RdmaInfra.Verbs.BwWrite
