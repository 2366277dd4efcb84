/-
The write test of `backend_compare`: `run_client_write` writes its buffer to
the server once per iteration and reaps each completion, with the iteration in
the last 4 bytes; `run_server_write` only waits until those bytes hold the
last iteration, and returns. Its `ScopedBuffer` then deregisters the region
and `RdmaTransport::close` destroys the queue pair.

A doorbell says that the data has landed, and the completion at the client
comes after that: it needs the acknowledgement of a peer that is still there.
Nothing in the two functions makes the server wait for it. `lat_rdma_write`
and `bw_rdma_write` have one more `rai_oob_accept`/`rai_oob_connect` exchange
at that place.

Both functions return before anything else where `size < 4`, and the model
starts after `exchange_buf`, with both buffers zeroed.
-/
import RdmaInfra.Lts
import RdmaInfra.Wire
import RdmaInfra.Verbs.Ops
import RdmaInfra.Verbs.RdmaWrite

namespace RdmaInfra.Transport.WriteTeardown

open Verbs

def kWarmup : Nat := 20

inductive ClientPc
  | store (i : Nat)
  | write (i : Nat)
  | poll (i : Nat)
  | returned
  | failed
  deriving DecidableEq, Repr

/-- At the doorbell, at `dereg_buf`, at `close`, and after it. -/
inductive ServerPc
  | spin
  | dereg
  | close
  | closed
  deriving DecidableEq, Repr

/-- `errors` are the completions with a status other than success that are in
the client's queue. -/
structure Client where
  pc : ClientPc
  mem : Mem UInt8
  wr : Writes UInt8
  errors : Nat

structure Server where
  pc : ServerPc
  mem : Mem UInt8

structure State where
  server : Server
  client : Client

/-- `server` and `client`: one of the programs takes a step. The others are
the NIC's, for the client's writes; `abort` gives up one that the server's
side no longer answers. -/
inductive Action
  | server
  | client
  | fetch (k n : Nat)
  | land (n : Nat)
  | complete
  | abort
  deriving DecidableEq, Repr

/-- The server's queue pair and region both exist. -/
def Server.alive (s : Server) : Bool := s.pc = .spin ∨ s.pc = .dereg

/-- `*doorbell`. -/
def Server.doorbell (size : Nat) (s : Server) : Nat := leNat (s.mem.read (size - 4) 4)

/-- `run_server_write` from its loop on, and the destructors after it. -/
def Server.run (size iters : Nat) (s : Server) : Option Server :=
  match s.pc with
  | .spin => if s.doorbell size = u32 (kWarmup + iters) then some { s with pc := .dereg } else none
  | .dereg => some { s with pc := .close }
  | .close => some { s with pc := .closed }
  | .closed => none

/-- The next step of `run_client_write`. -/
def Client.run (size iters : Nat) (c : Client) : Option Client :=
  match c.pc with
  | .store i =>
    if i < kWarmup + iters then
      some { c with mem := c.mem.write (size - 4) (leBytes 4 (u32 (i + 1))), pc := .write i }
    else some { c with pc := .returned }
  | .write i =>
    if sgeInBounds size (u32 size) 0 then some { c with wr := c.wr.post 0 0 (u32 size), pc := .poll i }
    else some { c with pc := .failed }
  | .poll i =>
    match c.wr.poll with
    | some q => some { c with wr := q, pc := .store (i + 1) }
    | none => if 0 < c.errors then some { c with errors := c.errors - 1, pc := .failed } else none
  | .returned | .failed => none

def step (size iters : Nat) : Action → State → Option State
  | .server, s => (s.server.run size iters).map fun x => { s with server := x }
  | .client, s => (s.client.run size iters).map fun x => { s with client := x }
  | .fetch k n, s => (s.client.wr.fetch s.client.mem k n).map fun q => { s with client := { s.client with wr := q } }
  | .land n, s =>
    if s.server.alive then
      (s.client.wr.land n s.server.mem).map fun (q, m) => ⟨{ s.server with mem := m }, { s.client with wr := q }⟩
    else none
  | .complete, s =>
    if s.server.alive then s.client.wr.complete.map fun q => { s with client := { s.client with wr := q } }
    else none
  | .abort, s =>
    if ¬s.server.alive ∧ s.client.wr.done + s.client.errors < s.client.wr.posted then
      some { s with client := { s.client with errors := s.client.errors + 1 } }
    else none

def init : State := ⟨⟨.spin, fun _ => 0⟩, ⟨.store 0, fun _ => 0, .init, 0⟩⟩

def system (size iters : Nat) : Lts State Action where
  init s := s = init
  step := step size iters

/-- The server is still there until the client has reaped its last
completion, and no poll fails. -/
def State.Safe (iters : Nat) (s : State) : Prop :=
  (s.server.pc ≠ .spin → s.client.wr.reaped = kWarmup + iters) ∧ s.client.pc ≠ .failed

/-! ## The race -/

section Race

variable {size iters i : Nat} {s s' : State}

/-- Between two iterations, with nothing outstanding. -/
structure Between (i : Nat) (s : State) : Prop where
  server : s.server.pc = .spin
  client : s.client.pc = .store i
  wr : s.client.wr = ⟨[], i, i, i, i⟩
  errors : s.client.errors = 0

/-- The write of iteration `i` has landed whole, and its completion has not
come. -/
structure Landed (size i : Nat) (s : State) : Prop where
  server : s.server.pc = .spin
  client : s.client.pc = .poll i
  wr : s.client.wr = ⟨[], i + 1, i + 1, i, i⟩
  errors : s.client.errors = 0
  doorbell : s.server.doorbell size = u32 (i + 1)

theorem Between.landed (hs : 4 ≤ size) (hlt : size < 2 ^ 31) (hi : i < kWarmup + iters) (h : Between i s) :
    ∃ s', (system size iters).exec [.client, .client, .fetch 0 size, .land size] s = some s' ∧ Landed size i s' := by
  obtain ⟨⟨pv, mv⟩, ⟨pc, mc, wr, e⟩⟩ := s
  obtain ⟨rfl, rfl, rfl, rfl⟩ := h
  let mc' := mc.write (size - 4) (leBytes 4 (u32 (i + 1)))
  refine ⟨⟨⟨.spin, mv.write 0 (mc'.read 0 size)⟩, ⟨.poll i, mc', ⟨[], i + 1, i + 1, i, i⟩, 0⟩⟩, ?_, rfl, rfl, rfl, rfl, ?_⟩
  · have hu : u32 size = size := u32_of_lt (by omega)
    have hb : sgeInBounds size size 0 = true := sgeInBounds_of_le (by omega) (by omega) (by omega)
    have hpos : 0 < size := by omega
    simp [Lts.exec, system, step, Client.run, hi, hu, hb, Writes.post, Writes.fetch, Writes.land, hpos, Server.alive, mc']
    rw [List.take_of_length_le (by simp)]
  · have hread : (mv.write 0 (mc'.read 0 size)).read (0 + (size - 4)) 4 = mc'.read (0 + (size - 4)) 4 :=
      Mem.read_copy (by omega)
    rw [Nat.zero_add] at hread
    rw [Server.doorbell, hread, Mem.read_write (length_leBytes 4 _)]
    exact leNat_leBytes (Nat.mod_lt _ (by decide))

theorem Landed.between (iters : Nat) (h : Landed size i s) :
    ∃ s', (system size iters).exec [.complete, .client] s = some s' ∧ Between (i + 1) s' := by
  obtain ⟨⟨pv, mv⟩, ⟨pc, mc, wr, e⟩⟩ := s
  obtain ⟨rfl, rfl, rfl, rfl, -⟩ := h
  refine ⟨⟨⟨.spin, mv⟩, ⟨.store (i + 1), mc, ⟨[], i + 1, i + 1, i + 1, i + 1⟩, 0⟩⟩, ?_, rfl, rfl, rfl, rfl⟩
  simp [Lts.exec, system, step, Client.run, Writes.complete, Writes.poll, Server.alive]

/-- Every iteration can be reached with the ones before it over. -/
theorem reach_between (hs : 4 ≤ size) (hlt : size < 2 ^ 31) (hi : i ≤ kWarmup + iters) :
    ∃ s, (system size iters).Reach s ∧ Between i s := by
  induction i with
  | zero => exact ⟨init, Lts.Reach.init rfl, rfl, rfl, rfl, rfl⟩
  | succ i ih =>
    obtain ⟨s, hr, hb⟩ := ih (by omega)
    obtain ⟨s1, he1, hl⟩ := hb.landed hs hlt (show i < kWarmup + iters by omega)
    obtain ⟨s2, he2, hb2⟩ := hl.between iters
    exact ⟨s2, (hr.exec he1).exec he2, hb2⟩

/-- The server sees the last doorbell and leaves while the client still polls
for that write. -/
theorem reach_dereg (iters : Nat) (hs : 4 ≤ size) (hlt : size < 2 ^ 31) :
    ∃ s, (system size iters).Reach s ∧ s.server.pc = .dereg ∧ s.client.pc = .poll (kWarmup + iters - 1) ∧
      s.client.wr = ⟨[], kWarmup + iters, kWarmup + iters, kWarmup + iters - 1, kWarmup + iters - 1⟩ ∧
      s.client.errors = 0 := by
  have hT : kWarmup + iters - 1 + 1 = kWarmup + iters := by simp only [kWarmup]; omega
  obtain ⟨s, hr, hb⟩ := reach_between hs hlt (show kWarmup + iters - 1 ≤ kWarmup + iters by omega)
  obtain ⟨s1, he, hl⟩ := hb.landed hs hlt (show kWarmup + iters - 1 < kWarmup + iters by omega)
  obtain ⟨hv, hc, hw, hz, hbell⟩ := hl
  rw [hT] at hw hbell
  refine ⟨{ s1 with server := { s1.server with pc := .dereg } }, (hr.exec he).next (a := .server) ?_, rfl, hc, hw, hz⟩
  simp only [system, step, Server.run, hv, if_pos hbell, Option.map_some]

/-- From there the region and the queue pair go, and the poll fails. -/
theorem reach_failed (iters : Nat) (hs : 4 ≤ size) (hlt : size < 2 ^ 31) :
    ∃ s, (system size iters).Reach s ∧ s.server.pc = .closed ∧ s.client.pc = .failed ∧
      s.client.wr.reaped < kWarmup + iters := by
  have hT : kWarmup + iters - 1 < kWarmup + iters := by simp only [kWarmup]; omega
  obtain ⟨s, hr, hv, hc, hw, hz⟩ := reach_dereg iters hs hlt
  have he : (system size iters).exec [.server, .server, .abort, .client] s =
      some ⟨{ s.server with pc := .closed }, { s.client with pc := .failed, errors := 0 }⟩ := by
    simp [Lts.exec, system, step, Server.run, hv, Server.alive, Client.run, hc, hw, hz, Writes.poll, hT]
  exact ⟨_, hr.exec he, rfl, rfl, by simp only [hw]; exact hT⟩

end Race

/-! ## With a barrier -/

/-- The server leaves its loop only once the client has reaped its last
completion, which is what one more exchange would make sure of. -/
def Barrier (iters : Nat) (s : State) (a : Action) : Prop :=
  a = .server → s.server.pc = .spin → s.client.wr.reaped = kWarmup + iters

def ClientAt (iters : Nat) (c : Client) : Prop :=
  match c.pc with
  | .store i => i ≤ kWarmup + iters ∧ c.wr.posted = i ∧ c.wr.reaped = i
  | .write i => i < kWarmup + iters ∧ c.wr.posted = i ∧ c.wr.reaped = i
  | .poll i => i < kWarmup + iters ∧ c.wr.posted = i + 1 ∧ c.wr.reaped = i
  | .returned => c.wr.posted = kWarmup + iters ∧ c.wr.reaped = kWarmup + iters
  | .failed => False

structure Inv (size iters : Nat) (s : State) : Prop where
  one : s.client.wr.One 0 0 size (s.client.mem (0 + (size - 1)))
  client : ClientAt iters s.client
  errors : s.client.errors = 0
  server : s.server.pc ≠ .spin → s.client.wr.reaped = kWarmup + iters

section Step

variable {size iters : Nat} {s s' : State} {c c' : Client}

theorem ClientAt.posted_le (h : ClientAt iters c) : c.wr.posted ≤ kWarmup + iters := by
  rcases hpc : c.pc <;> simp only [ClientAt, hpc] at h <;> omega

theorem ClientAt.congr (h : ClientAt iters c) (hpc : c'.pc = c.pc) (hp : c'.wr.posted = c.wr.posted)
    (hr : c'.wr.reaped = c.wr.reaped) : ClientAt iters c' := by
  simpa only [ClientAt, hpc, hp, hr] using h

theorem client_inv (hs : 4 ≤ size) (hlt : size < 2 ^ 31) (hI : Inv size iters s)
    (h : s.client.run size iters = some c) : Inv size iters { s with client := c } := by
  obtain ⟨hone, hc, hz, hv⟩ := hI
  have hT := hc.posted_le
  have h1 := hone.reaped_le
  have h2 := hone.done_le
  have h3 := hone.landed_le
  simp only [Client.run] at h
  split at h <;> rename_i hpc <;> simp only [ClientAt, hpc] at hc
  next i =>
    split at h <;> cases h
    · refine ⟨hone.idle (by omega), ?_, hz, hv⟩
      simp only [ClientAt]; omega
    · refine ⟨hone, ?_, hz, hv⟩
      simp only [ClientAt]; omega
  next i =>
    rw [u32_of_lt (by omega), if_pos (sgeInBounds_of_le (by omega) (by omega) (by omega))] at h
    cases h
    refine ⟨hone.post (by omega) (by omega), ?_, hz, hv⟩
    simp only [ClientAt, Writes.post]; omega
  next i =>
    split at h
    next q hq =>
      cases h
      obtain ⟨hone', hp, -, hr, -⟩ := hone.poll hq
      refine ⟨hone', ?_, hz, fun hne => ?_⟩
      · simp only [ClientAt]; omega
      · have := hv hne; omega
    next => simp [hz] at h
  all_goals cases h

theorem step_inv (hs : 4 ≤ size) (hlt : size < 2 ^ 31) {a} (hP : Barrier iters s a) (hI : Inv size iters s)
    (h : step size iters a s = some s') : Inv size iters s' := by
  cases a with
  | server =>
    obtain ⟨x, hx, rfl⟩ := Option.map_eq_some_iff.mp h
    refine ⟨hI.one, hI.client, hI.errors, fun _ => ?_⟩
    by_cases hpc : s.server.pc = .spin
    · exact hP rfl hpc
    · exact hI.server hpc
  | client =>
    obtain ⟨x, hx, rfl⟩ := Option.map_eq_some_iff.mp h
    exact client_inv hs hlt hI hx
  | fetch k n =>
    obtain ⟨q, hq, rfl⟩ := Option.map_eq_some_iff.mp h
    obtain ⟨hone, hp, -, -, hr⟩ := hI.one.fetch rfl hq
    exact ⟨hone, hI.client.congr rfl hp hr, hI.errors, fun hne => hr.trans (hI.server hne)⟩
  | land n =>
    simp only [step] at h
    split at h
    · obtain ⟨⟨q, m⟩, hq, rfl⟩ := Option.map_eq_some_iff.mp h
      obtain ⟨hone, hp, -, hr, -, -⟩ := hI.one.land hq
      exact ⟨hone, hI.client.congr rfl hp hr, hI.errors, fun hne => hr.trans (hI.server hne)⟩
    · cases h
  | complete =>
    simp only [step] at h
    split at h
    · obtain ⟨q, hq, rfl⟩ := Option.map_eq_some_iff.mp h
      obtain ⟨hone, hp, -, hr⟩ := hI.one.complete hq
      exact ⟨hone, hI.client.congr rfl hp hr, hI.errors, fun hne => hr.trans (hI.server hne)⟩
    · cases h
  | abort =>
    -- With everything reaped there is nothing to give up.
    simp only [step] at h
    split at h
    next ha =>
      have hne : s.server.pc ≠ .spin := by
        intro hpc
        simp [Server.alive, hpc] at ha
      have := hI.server hne
      have := hI.client.posted_le
      have := hI.one.reaped_le
      omega
    · cases h

theorem reach_inv (hs : 4 ≤ size) (hlt : size < 2 ^ 31) (h : (system size iters).ReachBy (Barrier iters) s) :
    Inv size iters s := by
  refine Lts.ReachBy.inv (I := Inv size iters) ?_ ?_ h
  · rintro _ rfl
    exact ⟨.init_one, ⟨Nat.zero_le _, rfl, rfl⟩, rfl, fun hne => absurd rfl hne⟩
  · intro s a s' _ hP hI hst
    exact step_inv hs hlt hP hI hst

theorem Inv.safe (h : Inv size iters s) : s.Safe iters := by
  refine ⟨h.server, fun hpc => ?_⟩
  have hc := h.client
  simp only [ClientAt, hpc] at hc

end Step

/-- At every size and iteration count the test can tear down under its client:
some interleaving has the server at `dereg_buf` while the client still polls
for its last completion, and one of them makes that poll fail. The runs in
which the server leaves its loop only after that completion was reaped are
safe throughout. -/
theorem write_test_tears_down (size iters : Nat) (hs : 4 ≤ size) (hlt : size < 2 ^ 31) :
    (∃ s, (system size iters).Reach s ∧ s.server.pc = .dereg ∧ s.client.pc = .poll (kWarmup + iters - 1) ∧
      s.client.wr.reaped < kWarmup + iters) ∧
    (∃ s, (system size iters).Reach s ∧ s.client.pc = .failed) ∧
    (∀ s, (system size iters).ReachBy (Barrier iters) s → s.Safe iters) := by
  refine ⟨?_, ?_, fun s h => (reach_inv hs hlt h).safe⟩
  · obtain ⟨s, hr, hv, hc, hw, -⟩ := reach_dereg iters hs hlt
    refine ⟨s, hr, hv, hc, ?_⟩
    simp only [hw, kWarmup]; omega
  · obtain ⟨s, hr, -, hc, -⟩ := reach_failed iters hs hlt
    exact ⟨s, hr, hc⟩

/-- Four bytes, one measured iteration. -/
theorem write_test_tears_down_four_bytes :
    ∃ s, (system 4 1).Reach s ∧ s.server.pc = .dereg ∧ s.client.pc = .poll 20 ∧ s.client.wr.reaped < 21 :=
  (write_test_tears_down 4 1 (by decide) (by decide)).1

theorem write_test_unsafe : ¬∀ s, (system 4 1).Reach s → s.Safe 1 := by
  intro h
  obtain ⟨s, hr, -, hc, -⟩ := reach_failed 1 (show 4 ≤ 4 by decide) (by decide)
  exact (h s hr).2 hc

end RdmaInfra.Transport.WriteTeardown
