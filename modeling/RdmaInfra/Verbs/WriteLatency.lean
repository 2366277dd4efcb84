/-
`lat_rdma_write`: a ping-pong of one-sided writes, with the last byte of each
half of the region as a doorbell that carries the iteration modulo 256.

The client writes the low half of the peer's region and polls its own high
half, the server the other way round. A doorbell is never reset, so what keeps
a stale value from matching is that the two loops are never more than one
iteration apart (`Inv`): when a side polls for iteration `i`, its doorbell is
`i` or `i + 1` modulo 256, and `i + 1` only once the whole write has landed.

After the loops the two sides meet in one more `rai_oob_accept` /
`rai_oob_connect` exchange before either tears down. A connection is made and
a message is there once the other side's program is past the call that makes
or sends it, so the exchange needs no state of its own; `connect` succeeds
while the server is still in its loop (the listener's backlog), and the client
then waits for the server's message.
-/
import Mathlib.Logic.Function.Basic
import RdmaInfra.Lts
import RdmaInfra.Verbs.Ops
import RdmaInfra.Verbs.RdmaWrite

namespace RdmaInfra.Verbs.WriteLatency

/-- Where a side's program is: in iteration `i` of its loop, in the teardown
exchange, at `rai_mr_dereg`, or out after an error. -/
inductive Pc
  | spin (i : Nat)
  | store (i : Nat)
  | post (i : Nat)
  | poll (i : Nat)
  | connect
  | accept
  | send
  | recv
  | teardown
  | failed
  deriving DecidableEq, Repr

structure Side where
  pc : Pc
  mem : Mem Nat
  wr : Writes Nat

structure State where
  server : Side
  client : Side

/-- `run`: a side's program takes a step. `fetch`, `land`, `complete`: the
NIC reads, lands and completes a side's writes. -/
inductive Action
  | run (p : Party)
  | fetch (p : Party) (k n : Nat)
  | land (p : Party) (n : Nat)
  | complete (p : Party)
  deriving DecidableEq, Repr

/-- `(uint8_t)(i + 1)`. -/
def seq (i : Nat) : Nat := (i + 1) % 256

namespace Side

variable (size totalIters : Nat)

def goto (pc : Pc) (s : Side) : Side := { s with pc := pc }

/-- `*post_buf = seq`. -/
def ring (off i : Nat) (s : Side) : Side := { s with mem := Function.update s.mem (off + (size - 1)) (seq i) }

/-- `rai_post_write` of the half at `off` to the same half of the peer. -/
def postWrite (off i : Nat) (s : Side) : Side :=
  if sgeInBounds (2 * size) (u32 size) off then { s with wr := s.wr.post off off (u32 size), pc := .poll i }
  else s.goto .failed

/-- `rai_poll_cq`, and on to `pc`. -/
def pollCq (pc : Pc) (s : Side) : Option Side := s.wr.poll.map fun q => { s with wr := q, pc := pc }

/-- The server's next step; `peer` is where the client is. -/
def runServer (peer : Pc) (s : Side) : Option Side :=
  match s.pc with
  | .spin i =>
    if i < totalIters then if s.mem (0 + (size - 1)) = seq i then some (s.goto (.store i)) else none
    else some (s.goto .accept)
  | .store i => some ((s.ring size size i).goto (.post i))
  | .post i => some (s.postWrite size size i)
  | .poll i => s.pollCq (.spin (i + 1))
  | .accept =>
    match peer with
    | .recv | .send | .teardown => some (s.goto .send)
    | _ => none
  | .send => some (s.goto .recv)
  | .recv => if peer = .teardown then some (s.goto .teardown) else none
  | .connect | .teardown | .failed => none

/-- The client's next step; `peer` is where the server is. -/
def runClient (peer : Pc) (s : Side) : Option Side :=
  match s.pc with
  | .store i => some (if i < totalIters then (s.ring size 0 i).goto (.post i) else s.goto .connect)
  | .post i => some (s.postWrite size 0 i)
  | .poll i => s.pollCq (.spin i)
  | .spin i => if s.mem (size + (size - 1)) = seq i then some (s.goto (.store (i + 1))) else none
  | .connect => some (s.goto .recv)
  | .recv => if peer = .recv ∨ peer = .teardown then some (s.goto .send) else none
  | .send => some (s.goto .teardown)
  | .accept | .teardown | .failed => none

end Side

def step (size totalIters : Nat) : Action → State → Option State
  | .run .server, s => (s.server.runServer size totalIters s.client.pc).map fun x => { s with server := x }
  | .run .client, s => (s.client.runClient size totalIters s.server.pc).map fun x => { s with client := x }
  | .fetch .server k n, s => (s.server.wr.fetch s.server.mem k n).map fun q => { s with server := { s.server with wr := q } }
  | .fetch .client k n, s => (s.client.wr.fetch s.client.mem k n).map fun q => { s with client := { s.client with wr := q } }
  | .land .server n, s => (s.server.wr.land n s.client.mem).map fun (q, m) =>
      ⟨{ s.server with wr := q }, { s.client with mem := m }⟩
  | .land .client n, s => (s.client.wr.land n s.server.mem).map fun (q, m) =>
      ⟨{ s.server with mem := m }, { s.client with wr := q }⟩
  | .complete .server, s => s.server.wr.complete.map fun q => { s with server := { s.server with wr := q } }
  | .complete .client, s => s.client.wr.complete.map fun q => { s with client := { s.client with wr := q } }

/-- Both regions zeroed and exchanged, both sides before their loop. -/
def init : State := ⟨⟨.spin 0, fun _ => 0, .init⟩, ⟨.store 0, fun _ => 0, .init⟩⟩

def system (size totalIters : Nat) : Lts State Action where
  init s := s = init
  step := step size totalIters

/-! ## The invariant -/

/-- One direction: at most one write in flight, the peer's doorbell counts the
writes landed, and the own one is that of the write in flight. -/
structure Link (size off : Nat) (a : Side) (peer : Mem Nat) : Prop where
  one : a.wr.One off off size (a.mem (off + (size - 1)))
  bell : peer (off + (size - 1)) = a.wr.landed % 256
  busy : a.wr.reaped < a.wr.posted → a.mem (off + (size - 1)) = a.wr.posted % 256

/-- The server at each point; `landed` counts the client's writes landed. -/
def ServerAt (size totalIters landed : Nat) (s : Side) : Prop :=
  match s.pc with
  | .spin i => i ≤ totalIters ∧ s.wr.posted = i ∧ s.wr.reaped = i
  | .store i => i < totalIters ∧ s.wr.posted = i ∧ s.wr.reaped = i ∧ i < landed
  | .post i => i < totalIters ∧ s.wr.posted = i ∧ s.wr.reaped = i ∧ i < landed ∧ s.mem (size + (size - 1)) = seq i
  | .poll i => i < totalIters ∧ s.wr.posted = i + 1 ∧ s.wr.reaped = i
  | .accept | .send | .recv | .teardown => s.wr.posted = totalIters ∧ s.wr.reaped = totalIters
  | .connect | .failed => False

/-- The client at each point; `landed` counts the server's writes landed. -/
def ClientAt (size totalIters landed : Nat) (s : Side) : Prop :=
  match s.pc with
  | .store i => i ≤ totalIters ∧ s.wr.posted = i ∧ s.wr.reaped = i ∧ i ≤ landed
  | .post i => i < totalIters ∧ s.wr.posted = i ∧ s.wr.reaped = i ∧ i ≤ landed ∧ s.mem (0 + (size - 1)) = seq i
  | .poll i => i < totalIters ∧ s.wr.posted = i + 1 ∧ s.wr.reaped = i ∧ i ≤ landed
  | .spin i => i < totalIters ∧ s.wr.posted = i + 1 ∧ s.wr.reaped = i + 1 ∧ i ≤ landed
  | .connect | .recv | .send | .teardown => s.wr.posted = totalIters ∧ s.wr.reaped = totalIters ∧ totalIters ≤ landed
  | .accept | .failed => False

structure Inv (size totalIters : Nat) (s : State) : Prop where
  server : ServerAt size totalIters s.client.wr.landed s.server
  client : ClientAt size totalIters s.server.wr.landed s.client
  pong : Link size size s.server s.client.mem
  ping : Link size 0 s.client s.server.mem
  /-- No reply before the write it answers has landed. -/
  behind : s.server.wr.posted ≤ s.client.wr.landed
  serverOut : s.server.pc = .teardown → s.client.pc = .teardown
  clientOut : s.client.pc = .send ∨ s.client.pc = .teardown → s.server.pc = .recv ∨ s.server.pc = .teardown

/-! ## One direction under each step -/

namespace Link

variable {size off n k i : Nat} {a a' : Side} {peer peer' : Mem Nat} {q : Writes Nat} {pc : Pc}

/-- Everything the source has posted lies between what it reaped and one
more than what has landed. -/
theorem counts (h : Link size off a peer) :
    a.wr.reaped ≤ a.wr.landed ∧ a.wr.landed ≤ a.wr.posted ∧ a.wr.posted ≤ a.wr.landed + 1 := by
  have := h.one.reaped_le
  have := h.one.done_le
  have := h.one.landed_le
  omega

/-- Only the queue and the two doorbells matter. -/
theorem congr (h : Link size off a peer) (hw : a'.wr = a.wr)
    (hm : a'.mem (off + (size - 1)) = a.mem (off + (size - 1)))
    (hp : peer' (off + (size - 1)) = peer (off + (size - 1))) : Link size off a' peer' := by
  obtain ⟨h1, h2, h3⟩ := h
  refine ⟨?_, ?_, ?_⟩
  · rwa [hw, hm]
  · rwa [hp, hw]
  · rwa [hw, hm]

/-- With everything reaped, the doorbell is free for the next write. -/
theorem ring (h : Link size off a peer) (hr : a.wr.reaped = a.wr.posted) :
    Link size off ((a.ring size off i).goto pc) peer := by
  have hc := h.counts
  refine ⟨h.one.idle (by omega), h.bell, fun hlt => ?_⟩
  simp only [Side.goto, Side.ring] at hlt
  omega

theorem post (h : Link size off a peer) (hs : 0 < size) (hr : a.wr.reaped = a.wr.posted)
    (hb : a.mem (off + (size - 1)) = seq a.wr.posted) :
    Link size off { a with wr := a.wr.post off off size, pc := pc } peer := by
  have hc := h.counts
  exact ⟨h.one.post (by omega) hs, h.bell, fun _ => hb⟩

theorem poll (h : Link size off a peer) (pc : Pc) (hq : a.wr.poll = some q) :
    Link size off { a with wr := q, pc := pc } peer ∧ q.posted = a.wr.posted ∧ q.landed = a.wr.landed ∧
      q.reaped = a.wr.reaped + 1 := by
  obtain ⟨h1, hp, hl, hr, -⟩ := h.one.poll hq
  refine ⟨⟨h1, ?_, fun hlt => ?_⟩, hp, hl, hr⟩
  · rw [hl]; exact h.bell
  · rw [hp]; exact h.busy (by simp only at hlt; omega)

theorem fetch (h : Link size off a peer) (hq : a.wr.fetch a.mem k n = some q) :
    Link size off { a with wr := q } peer ∧ q.posted = a.wr.posted ∧ q.landed = a.wr.landed ∧
      q.reaped = a.wr.reaped := by
  obtain ⟨h1, hp, hl, -, hr⟩ := h.one.fetch rfl hq
  refine ⟨⟨h1, ?_, fun hlt => ?_⟩, hp, hl, hr⟩
  · rw [hl]; exact h.bell
  · rw [hp]; exact h.busy (by simp only at hlt; omega)

theorem complete (h : Link size off a peer) (hq : a.wr.complete = some q) :
    Link size off { a with wr := q } peer ∧ q.posted = a.wr.posted ∧ q.landed = a.wr.landed ∧
      q.reaped = a.wr.reaped := by
  obtain ⟨h1, hp, hl, hr⟩ := h.one.complete hq
  refine ⟨⟨h1, ?_, fun hlt => ?_⟩, hp, hl, hr⟩
  · rw [hl]; exact h.bell
  · rw [hp]; exact h.busy (by simp only at hlt; omega)

/-- Bytes land: the peer's doorbell moves with the count of whole writes. -/
theorem land (h : Link size off a peer) (hq : a.wr.land n peer = some (q, peer')) :
    Link size off { a with wr := q } peer' ∧ q.posted = a.wr.posted ∧ a.wr.landed ≤ q.landed ∧
      q.reaped = a.wr.reaped ∧ ∀ x, x < off ∨ off + size ≤ x → peer' x = peer x := by
  obtain ⟨h1, hp, -, hr, hbell, hout⟩ := h.one.land hq
  have hc := h.counts
  have hbusy : q.reaped < q.posted → a.mem (off + (size - 1)) = q.posted % 256 := by
    rw [hp, hr]; exact h.busy
  rcases hbell with ⟨hl, hb⟩ | ⟨hl, hpl, hb⟩
  · exact ⟨⟨h1, by rw [hb, hl]; exact h.bell, hbusy⟩, hp, by omega, hr, hout⟩
  · refine ⟨⟨h1, ?_, hbusy⟩, hp, by omega, hr, hout⟩
    rw [hb, hbusy (by omega), hp, hpl, hl]

end Link

/-! ## Preservation -/

section Step

variable {size totalIters l l' : Nat} {s s' : State} {x y : Side}

theorem ServerAt.congr (h : ServerAt size totalIters l x) (hl : l ≤ l') (hpc : y.pc = x.pc)
    (hp : y.wr.posted = x.wr.posted) (hr : y.wr.reaped = x.wr.reaped)
    (hm : y.mem (size + (size - 1)) = x.mem (size + (size - 1))) : ServerAt size totalIters l' y := by
  simp only [ServerAt, hpc, hp, hr, hm] at h ⊢
  split at h <;> omega

theorem ClientAt.congr (h : ClientAt size totalIters l x) (hl : l ≤ l') (hpc : y.pc = x.pc)
    (hp : y.wr.posted = x.wr.posted) (hr : y.wr.reaped = x.wr.reaped)
    (hm : y.mem (0 + (size - 1)) = x.mem (0 + (size - 1))) : ClientAt size totalIters l' y := by
  simp only [ClientAt, hpc, hp, hr, hm] at h ⊢
  split at h <;> omega

/-- The client never has more than one unanswered write. -/
theorem ClientAt.ahead (h : ClientAt size totalIters l x) : x.wr.posted ≤ l + 1 := by
  simp only [ClientAt] at h
  split at h
  all_goals first | omega | exact h.elim

/-- The argument of the doorbell: at the server's spin of iteration `i` the
count of writes landed is `i` or `i + 1`, so modulo 256 tells them apart. -/
theorem Inv.server_spin (h : Inv size totalIters s) {i} (hpc : s.server.pc = .spin i)
    (hb : s.server.mem (0 + (size - 1)) = seq i) : s.client.wr.landed = i + 1 := by
  have hs := h.server
  simp only [ServerAt, hpc] at hs
  have hbell := h.ping.bell
  rw [hb, seq] at hbell
  have h1 := h.behind
  have h2 := h.client.ahead
  have h3 := h.pong.counts
  have h4 := h.ping.counts
  omega

theorem Inv.client_spin (h : Inv size totalIters s) {i} (hpc : s.client.pc = .spin i)
    (hb : s.client.mem (size + (size - 1)) = seq i) : s.server.wr.landed = i + 1 := by
  have hc := h.client
  simp only [ClientAt, hpc] at hc
  have hbell := h.pong.bell
  rw [hb, seq] at hbell
  have h1 := h.behind
  have h3 := h.pong.counts
  have h4 := h.ping.counts
  omega

theorem postWrite_eq (hs : 0 < size) (hlt : size < 2 ^ 31) {off : Nat} (ho : off ≤ size) (i : Nat) :
    x.postWrite size off i = { x with wr := x.wr.post off off size, pc := .poll i } := by
  rw [Side.postWrite, u32_of_lt (by omega), if_pos (sgeInBounds_of_le hs (by omega) (by omega))]

theorem Side.pollCq_eq {pc : Pc} (h : x.pollCq pc = some y) :
    ∃ q, x.wr.poll = some q ∧ y = { x with wr := q, pc := pc } := by
  obtain ⟨q, hq, rfl⟩ := Option.map_eq_some_iff.mp h
  exact ⟨q, hq, rfl⟩

/-- A step of the server's program, from what it leaves the server with. -/
theorem Inv.server_step (hI : Inv size totalIters s) (hv : ServerAt size totalIters s.client.wr.landed x)
    (hl : Link size size x s.client.mem) (hm : x.mem (0 + (size - 1)) = s.server.mem (0 + (size - 1)))
    (hn : x.wr.landed = s.server.wr.landed) (hb : x.wr.posted ≤ s.client.wr.landed)
    (ho : (x.pc = .teardown ∧ s.client.pc = .teardown) ∨
      (x.pc ≠ .teardown ∧ s.server.pc ≠ .recv ∧ s.server.pc ≠ .teardown)) :
    Inv size totalIters { s with server := x } := by
  refine ⟨hv, hI.client.congr hn.ge rfl rfl rfl rfl, hl, hI.ping.congr rfl rfl hm, hb, ?_, ?_⟩
  · rcases ho with ⟨-, hc⟩ | ⟨hx, -⟩
    · exact fun _ => hc
    · exact fun hpc => absurd hpc hx
  · rcases ho with ⟨hx, -⟩ | ⟨-, h1, h2⟩
    · exact fun _ => .inr hx
    · exact fun hpc => absurd (hI.clientOut hpc) (by simp [h1, h2])

/-- A step of the client's program. -/
theorem Inv.client_step (hI : Inv size totalIters s) (hc : ClientAt size totalIters s.server.wr.landed x)
    (hl : Link size 0 x s.server.mem) (hm : x.mem (size + (size - 1)) = s.client.mem (size + (size - 1)))
    (hn : x.wr.landed = s.client.wr.landed) (ht : s.client.pc ≠ .teardown)
    (ho : x.pc = .send ∨ x.pc = .teardown → s.server.pc = .recv ∨ s.server.pc = .teardown) :
    Inv size totalIters { s with client := x } := by
  refine ⟨hI.server.congr hn.ge rfl rfl rfl rfl, hc, hI.pong.congr rfl rfl hm, hl, ?_, ?_, ho⟩
  · simp only [hn]; exact hI.behind
  · exact fun hpc => absurd (hI.serverOut hpc) ht

theorem server_inv (hs : 0 < size) (hlt : size < 2 ^ 31) (hI : Inv size totalIters s)
    (h : s.server.runServer size totalIters s.client.pc = some x) : Inv size totalIters { s with server := x } := by
  have hv := hI.server
  have hb := hI.behind
  have hgoto : ∀ pc, Link size size (s.server.goto pc) s.client.mem := fun pc => hI.pong.congr rfl rfl rfl
  simp only [Side.runServer] at h
  split at h <;> rename_i hpc <;> simp only [ServerAt, hpc] at hv
  next i =>
    split at h
    next hi =>
      split at h
      next hbell =>
        cases h
        have hl := hI.server_spin hpc hbell
        refine hI.server_step ?_ (hgoto _) rfl rfl hb (.inr (by simp [hpc, Side.goto]))
        simp only [ServerAt, Side.goto]; omega
      · cases h
    next hi =>
      cases h
      refine hI.server_step ?_ (hgoto _) rfl rfl hb (.inr (by simp [hpc, Side.goto]))
      simp only [ServerAt, Side.goto]; omega
  next i =>
    cases h
    refine hI.server_step ?_ (hI.pong.ring (by omega)) ?_ rfl hb (.inr (by simp [hpc, Side.goto]))
    · simp only [ServerAt, Side.goto, Side.ring, Function.update_self, and_true]; omega
    · exact Function.update_of_ne (by omega) _ _
  next i =>
    cases h
    rw [postWrite_eq hs hlt le_rfl]
    refine hI.server_step ?_ (hI.pong.post hs (by omega) ?_) rfl rfl ?_ (.inr (by simp [hpc]))
    · simp only [ServerAt, Writes.post]; omega
    · rw [hv.2.2.2.2, hv.2.1]
    · simp only [Writes.post]; omega
  next i =>
    obtain ⟨q, hq, rfl⟩ := Side.pollCq_eq h
    obtain ⟨hl, hp, hn, hr⟩ := hI.pong.poll (.spin (i + 1)) hq
    refine hI.server_step ?_ hl rfl hn (by simp only; omega) (.inr (by simp [hpc]))
    simp only [ServerAt]; omega
  next =>
    split at h
    iterate 3
      cases h
      exact hI.server_step hv (hgoto _) rfl rfl hb (.inr (by simp [hpc, Side.goto]))
    · cases h
  next =>
    cases h
    exact hI.server_step hv (hgoto _) rfl rfl hb (.inr (by simp [hpc, Side.goto]))
  next =>
    split at h
    next hc =>
      cases h
      exact hI.server_step hv (hgoto _) rfl rfl hb (.inl ⟨rfl, hc⟩)
    · cases h
  all_goals cases h

theorem client_inv (hs : 0 < size) (hlt : size < 2 ^ 31) (hI : Inv size totalIters s)
    (h : s.client.runClient size totalIters s.server.pc = some x) : Inv size totalIters { s with client := x } := by
  have hc := hI.client
  have hgoto : ∀ pc, Link size 0 (s.client.goto pc) s.server.mem := fun pc => hI.ping.congr rfl rfl rfl
  simp only [Side.runClient] at h
  split at h <;> rename_i hpc <;> simp only [ClientAt, hpc] at hc
  next i =>
    split at h <;> cases h
    · refine hI.client_step ?_ (hI.ping.ring (by omega)) ?_ rfl (by simp [hpc]) (by simp [Side.goto])
      · simp only [ClientAt, Side.goto, Side.ring, Function.update_self, and_true]; omega
      · exact Function.update_of_ne (by omega) _ _
    · refine hI.client_step ?_ (hgoto _) rfl rfl (by simp [hpc]) (by simp [Side.goto])
      simp only [ClientAt, Side.goto]; omega
  next i =>
    cases h
    rw [postWrite_eq hs hlt (Nat.zero_le _)]
    refine hI.client_step ?_ (hI.ping.post hs (by omega) ?_) rfl rfl (by simp [hpc]) (by simp)
    · simp only [ClientAt, Writes.post]; omega
    · rw [hc.2.2.2.2, hc.2.1]
  next i =>
    obtain ⟨q, hq, rfl⟩ := Side.pollCq_eq h
    obtain ⟨hl, hp, hn, hr⟩ := hI.ping.poll (.spin i) hq
    refine hI.client_step ?_ hl rfl hn (by simp [hpc]) (by simp)
    simp only [ClientAt]; omega
  next i =>
    split at h
    next hbell =>
      cases h
      have hl := hI.client_spin hpc hbell
      refine hI.client_step ?_ (hgoto _) rfl rfl (by simp [hpc]) (by simp [Side.goto])
      simp only [ClientAt, Side.goto]; omega
    · cases h
  next =>
    cases h
    exact hI.client_step hc (hgoto _) rfl rfl (by simp [hpc]) (by simp [Side.goto])
  next =>
    split at h
    next hv =>
      cases h
      exact hI.client_step hc (hgoto _) rfl rfl (by simp [hpc]) fun _ => hv
    · cases h
  next =>
    cases h
    exact hI.client_step hc (hgoto _) rfl rfl (by simp [hpc]) fun _ => hI.clientOut (.inl hpc)
  all_goals cases h

theorem step_inv (hs : 0 < size) (hlt : size < 2 ^ 31) {a} (hI : Inv size totalIters s)
    (h : step size totalIters a s = some s') : Inv size totalIters s' := by
  obtain ⟨hv, hc, hpong, hping, hb, ho, hi⟩ := hI
  rcases a with ⟨_ | _⟩ | ⟨_ | _, k, n⟩ | ⟨_ | _, n⟩ | ⟨_ | _⟩ <;>
    obtain ⟨q, hq, rfl⟩ := Option.map_eq_some_iff.mp h
  · exact server_inv hs hlt ⟨hv, hc, hpong, hping, hb, ho, hi⟩ hq
  · exact client_inv hs hlt ⟨hv, hc, hpong, hping, hb, ho, hi⟩ hq
  · obtain ⟨hl, hp, hn, hr⟩ := hpong.fetch hq
    exact ⟨hv.congr le_rfl rfl hp hr rfl, hc.congr hn.ge rfl rfl rfl rfl, hl, hping.congr rfl rfl rfl,
      by simp only; omega, ho, hi⟩
  · obtain ⟨hl, hp, hn, hr⟩ := hping.fetch hq
    exact ⟨hv.congr hn.ge rfl rfl rfl rfl, hc.congr le_rfl rfl hp hr rfl, hpong.congr rfl rfl rfl, hl,
      by simp only; omega, ho, hi⟩
  · obtain ⟨hl, hp, hn, hr, hout⟩ := hpong.land hq
    have hm : q.2 (0 + (size - 1)) = s.client.mem (0 + (size - 1)) := hout _ (by omega)
    exact ⟨hv.congr le_rfl rfl hp hr rfl, hc.congr hn rfl rfl rfl hm, hl, hping.congr rfl hm rfl,
      by simp only; omega, ho, hi⟩
  · obtain ⟨hl, hp, hn, hr, hout⟩ := hping.land hq
    have hm : q.2 (size + (size - 1)) = s.server.mem (size + (size - 1)) := hout _ (by omega)
    exact ⟨hv.congr hn rfl rfl rfl hm, hc.congr le_rfl rfl hp hr rfl, hpong.congr rfl hm rfl, hl,
      by simp only; omega, ho, hi⟩
  · obtain ⟨hl, hp, hn, hr⟩ := hpong.complete hq
    exact ⟨hv.congr le_rfl rfl hp hr rfl, hc.congr hn.ge rfl rfl rfl rfl, hl, hping.congr rfl rfl rfl,
      by simp only; omega, ho, hi⟩
  · obtain ⟨hl, hp, hn, hr⟩ := hping.complete hq
    exact ⟨hv.congr hn.ge rfl rfl rfl rfl, hc.congr le_rfl rfl hp hr rfl, hpong.congr rfl rfl rfl, hl,
      by simp only; omega, ho, hi⟩

theorem init_inv : Inv size totalIters init := by
  have hone : ∀ off, Link size off ⟨.spin 0, fun _ => 0, .init⟩ fun _ => 0 :=
    fun off => ⟨.init_one, rfl, fun h => absurd h (Nat.lt_irrefl _)⟩
  exact ⟨⟨Nat.zero_le _, rfl, rfl⟩, ⟨Nat.zero_le _, rfl, rfl, le_rfl⟩, hone _, (hone 0).congr rfl rfl rfl, le_rfl,
    by simp [init], by simp [init]⟩

theorem reach_inv (hs : 0 < size) (hlt : size < 2 ^ 31) (h : (system size totalIters).Reach s) :
    Inv size totalIters s := by
  refine Lts.Reach.inv (I := Inv size totalIters) ?_ ?_ h
  · rintro _ rfl; exact init_inv
  · intro s a s' _ hI hst; exact step_inv hs hlt hI hst

end Step

/-! ## What follows -/

section Progress

variable {size totalIters : Nat} {s : State}

/-- A write not reaped keeps the system going. -/
theorem Inv.server_busy (h : Inv size totalIters s) (hb : s.server.wr.reaped < s.server.wr.posted) :
    (system size totalIters).Enabled s := by
  have hv := h.server
  obtain ⟨i, hpc⟩ : ∃ i, s.server.pc = .poll i := by
    simp only [ServerAt] at hv
    split at hv
    all_goals first | exact ⟨_, ‹_›⟩ | omega | exact hv.elim
  rcases h.pong.one.progress hb s.server.mem s.client.mem with hd | ⟨n, q, hq⟩ | ⟨n, r, hr⟩ | ⟨q, hq⟩
  · refine ⟨.run .server, ?_⟩
    simp only [system, step, Side.runServer, hpc, Side.pollCq, Writes.poll, if_pos hd, Option.map_some]
    exact ⟨_, rfl⟩
  · exact ⟨.fetch .server 0 n, _, Option.map_eq_some_iff.mpr ⟨q, hq, rfl⟩⟩
  · exact ⟨.land .server n, _, Option.map_eq_some_iff.mpr ⟨r, hr, rfl⟩⟩
  · exact ⟨.complete .server, _, Option.map_eq_some_iff.mpr ⟨q, hq, rfl⟩⟩

theorem Inv.client_busy (h : Inv size totalIters s) (hb : s.client.wr.reaped < s.client.wr.posted) :
    (system size totalIters).Enabled s := by
  have hc := h.client
  obtain ⟨i, hpc⟩ : ∃ i, s.client.pc = .poll i := by
    simp only [ClientAt] at hc
    split at hc
    all_goals first | exact ⟨_, ‹_›⟩ | omega | exact hc.elim
  rcases h.ping.one.progress hb s.client.mem s.server.mem with hd | ⟨n, q, hq⟩ | ⟨n, r, hr⟩ | ⟨q, hq⟩
  · refine ⟨.run .client, ?_⟩
    simp only [system, step, Side.runClient, hpc, Side.pollCq, Writes.poll, if_pos hd, Option.map_some]
    exact ⟨_, rfl⟩
  · exact ⟨.fetch .client 0 n, _, Option.map_eq_some_iff.mpr ⟨q, hq, rfl⟩⟩
  · exact ⟨.land .client n, _, Option.map_eq_some_iff.mpr ⟨r, hr, rfl⟩⟩
  · exact ⟨.complete .client, _, Option.map_eq_some_iff.mpr ⟨q, hq, rfl⟩⟩

theorem enabled_of_server {x} (h : s.server.runServer size totalIters s.client.pc = some x) :
    (system size totalIters).Enabled s :=
  ⟨.run .server, _, Option.map_eq_some_iff.mpr ⟨x, h, rfl⟩⟩

theorem enabled_of_client {x} (h : s.client.runClient size totalIters s.server.pc = some x) :
    (system size totalIters).Enabled s :=
  ⟨.run .client, _, Option.map_eq_some_iff.mpr ⟨x, h, rfl⟩⟩

/-- A client that spins while every reply it waits for has landed goes on. -/
theorem Inv.client_released (h : Inv size totalIters s) {i} (hpc : s.client.pc = .spin i)
    (hl : s.server.wr.landed = i + 1) : (system size totalIters).Enabled s := by
  refine enabled_of_client (x := s.client.goto (.store (i + 1))) ?_
  simp only [Side.runClient, hpc]
  exact if_pos (by rw [h.pong.bell, hl, seq])

/-- With nothing to reap, the server waits only for the client. -/
theorem Inv.server_waits (h : Inv size totalIters s) (hr : ¬s.server.wr.reaped < s.server.wr.posted) :
    (system size totalIters).Enabled s ∨ (∃ i, i < totalIters ∧ s.server.pc = .spin i) ∨ s.server.pc = .accept ∨
      s.server.pc = .recv ∨ s.server.pc = .teardown := by
  have hv := h.server
  rcases hpc : s.server.pc with i | i | i | i | _ | _ | _ | _ | _ | _ <;> simp only [ServerAt, hpc] at hv
  case spin =>
    by_cases hi : i < totalIters
    · exact .inr (.inl ⟨i, hi, rfl⟩)
    · left
      refine enabled_of_server (x := s.server.goto .accept) ?_
      simp only [Side.runServer, hpc, if_neg hi]
  case store | post | send =>
    left
    refine enabled_of_server (x := ?_) ?_
    rotate_left
    · simp only [Side.runServer, hpc]; rfl
  case poll => omega
  all_goals simp

/-- With nothing to reap, the client waits only for the server. -/
theorem Inv.client_waits (h : Inv size totalIters s) (hr : ¬s.client.wr.reaped < s.client.wr.posted) :
    (system size totalIters).Enabled s ∨ (∃ i, s.client.pc = .spin i) ∨ s.client.pc = .recv ∨
      s.client.pc = .teardown := by
  have hc := h.client
  rcases hpc : s.client.pc with i | i | i | i | _ | _ | _ | _ | _ | _ <;> simp only [ClientAt, hpc] at hc
  case store | post | send | connect =>
    left
    refine enabled_of_client (x := ?_) ?_
    rotate_left
    · simp only [Side.runClient, hpc]; rfl
  case poll => omega
  all_goals simp

theorem Inv.enabled (h : Inv size totalIters s) (hu : ¬(s.server.pc = .teardown ∧ s.client.pc = .teardown)) :
    (system size totalIters).Enabled s := by
  by_cases hbv : s.server.wr.reaped < s.server.wr.posted
  · exact h.server_busy hbv
  by_cases hbc : s.client.wr.reaped < s.client.wr.posted
  · exact h.client_busy hbc
  -- Nothing is in flight, so both doorbells are up to date.
  have hv := h.server
  have hc := h.client
  have hp := h.pong.counts
  have hq := h.ping.counts
  have hb := h.behind
  rcases h.client_waits hbc with hen | ⟨i, hi⟩ | hi | hi
  · exact hen
  · simp only [ClientAt, hi] at hc
    rcases h.server_waits hbv with hen | ⟨j, hj, hpc⟩ | hpc | hpc | hpc
    · exact hen
    · simp only [ServerAt, hpc] at hv
      by_cases hji : j = i
      · refine enabled_of_server (x := s.server.goto (.store j)) ?_
        simp only [Side.runServer, hpc, if_pos hj]
        exact if_pos (by rw [h.ping.bell, seq, show s.client.wr.landed = j + 1 by omega])
      · exact h.client_released hi (by omega)
    · simp only [ServerAt, hpc] at hv
      exact h.client_released hi (by omega)
    · simp only [ServerAt, hpc] at hv
      exact h.client_released hi (by omega)
    · rw [h.serverOut hpc] at hi
      cases hi
  · simp only [ClientAt, hi] at hc
    rcases h.server_waits hbv with hen | ⟨j, hj, hpc⟩ | hpc | hpc | hpc
    · exact hen
    · simp only [ServerAt, hpc] at hv
      omega
    · exact enabled_of_server (x := s.server.goto .send) (by simp only [Side.runServer, hpc, hi])
    · exact enabled_of_client (x := s.client.goto .send) (by simp [Side.runClient, hpc, hi])
    · rw [h.serverOut hpc] at hi
      cases hi
  · rcases h.clientOut (.inr hi) with hpc | hpc
    · exact enabled_of_server (x := s.server.goto .teardown) (by simp [Side.runServer, hpc, hi])
    · exact absurd ⟨hpc, hi⟩ hu

end Progress

/-- The value of the loop variable, which keeps its last value after the loop. -/
def Pc.index (totalIters : Nat) : Pc → Nat
  | .spin i | .store i | .post i | .poll i => i
  | .connect | .accept | .send | .recv | .teardown | .failed => totalIters

theorem ServerAt.index {size totalIters l : Nat} {x : Side} (h : ServerAt size totalIters l x) :
    x.pc.index totalIters ≤ x.wr.posted ∧ x.wr.posted ≤ x.pc.index totalIters + 1 := by
  rcases hpc : x.pc <;> simp only [ServerAt, hpc] at h <;> simp only [Pc.index] <;> omega

theorem ClientAt.index {size totalIters l : Nat} {x : Side} (h : ClientAt size totalIters l x) :
    x.pc.index totalIters ≤ l ∧ x.wr.posted ≤ x.pc.index totalIters + 1 := by
  rcases hpc : x.pc <;> simp only [ClientAt, hpc] at h <;> simp only [Pc.index] <;> omega

/-- The doorbell never desynchronises the two sides, however long the loops
and whatever the order of source reads, landings and completions: a side
leaves its spin of iteration `i` only when the peer's whole write `i` has
landed, the loop variables are at most one apart, a state that is not the end
has a next step, and neither side tears down before both have reaped all
their completions. -/
theorem writeLatency_synchronised (size totalIters : Nat) (hs : 1 ≤ size) (hlt : size < 2 ^ 31)
    (s : State) (h : (system size totalIters).Reach s) :
    (∀ i s', s.server.pc = .spin i → (system size totalIters).step (.run .server) s = some s' →
      s'.server.pc = .store i → s.client.wr.landed = i + 1) ∧
    (∀ i s', s.client.pc = .spin i → (system size totalIters).step (.run .client) s = some s' →
      s.server.wr.landed = i + 1) ∧
    (s.server.pc.index totalIters ≤ s.client.pc.index totalIters + 1 ∧
      s.client.pc.index totalIters ≤ s.server.pc.index totalIters + 1) ∧
    (¬(s.server.pc = .teardown ∧ s.client.pc = .teardown) → (system size totalIters).Enabled s) ∧
    (s.server.pc ≠ .failed ∧ s.client.pc ≠ .failed) ∧
    (s.server.pc = .teardown ∨ s.client.pc = .teardown →
      s.server.wr.reaped = totalIters ∧ s.server.wr.posted = totalIters ∧
      s.client.wr.reaped = totalIters ∧ s.client.wr.posted = totalIters) := by
  have hI := reach_inv hs hlt h
  have hv := hI.server
  have hc := hI.client
  refine ⟨?_, ?_, ?_, hI.enabled, ⟨?_, ?_⟩, ?_⟩
  · intro i s' hpc hst hpc'
    obtain ⟨x, hx, rfl⟩ := Option.map_eq_some_iff.mp hst
    simp only [Side.runServer, hpc] at hx
    split at hx
    · split at hx
      · exact hI.server_spin hpc ‹_›
      · cases hx
    · cases hx; cases hpc'
  · intro i s' hpc hst
    obtain ⟨x, hx, rfl⟩ := Option.map_eq_some_iff.mp hst
    simp only [Side.runClient, hpc] at hx
    split at hx
    · exact hI.client_spin hpc ‹_›
    · cases hx
  · have hiv := hv.index
    have hic := hc.index
    have hp := hI.pong.counts
    have hq := hI.ping.counts
    have hb := hI.behind
    omega
  · intro hpc
    simp only [ServerAt, hpc] at hv
  · intro hpc
    simp only [ClientAt, hpc] at hc
  · intro hout
    have hcl : s.client.pc = .teardown := by
      rcases hout with hpc | hpc
      · exact hI.serverOut hpc
      · exact hpc
    simp only [ClientAt, hcl] at hc
    rcases hI.clientOut (.inr hcl) with hpc | hpc <;> simp only [ServerAt, hpc] at hv <;> omega

/-- Two round trips of two bytes over the same two doorbells. In the second the
client sees the reply and enters the exchange before the server's completion has
come. -/
theorem writeLatency_two_round_trips :
    ∃ s, (system 2 2).Reach s ∧ s.server.pc = .teardown ∧ s.client.pc = .teardown ∧
      s.server.wr.reaped = 2 ∧ s.client.wr.reaped = 2 := by
  let ping : List Action := [.run .client, .run .client, .fetch .client 0 2, .land .client 1, .land .client 1,
    .complete .client, .run .client]
  let pong : List Action := [.run .server, .run .server, .run .server, .fetch .server 0 2, .land .server 2]
  let acts : List Action := ping ++ pong ++ [.run .client, .complete .server, .run .server] ++ ping ++ pong ++
    [.run .client, .run .client, .run .client, .complete .server, .run .server, .run .server, .run .server,
      .run .server, .run .client, .run .client, .run .server]
  have he : ∃ s, (system 2 2).exec acts init = some s ∧ s.server.pc = .teardown ∧ s.client.pc = .teardown :=
    ⟨_, rfl, rfl, rfl⟩
  obtain ⟨s, hs, hv, hc⟩ := he
  have hr : (system 2 2).Reach s := Lts.Reach.exec (Lts.Reach.init rfl) hs
  obtain ⟨-, -, -, -, -, h1⟩ := writeLatency_synchronised 2 2 (by decide) (by decide) s hr
  exact ⟨s, hr, hv, hc, (h1 (.inl hv)).1, (h1 (.inl hv)).2.2.1⟩

end RdmaInfra.Verbs.WriteLatency
