/-
The ping-pong of `lat_send_recv` (and of `backend_compare`'s RDMA branch),
where sends and receives complete on one queue.

A side keeps `prepost` receives posted, and polls twice an iteration without
looking at what it polled. So the server may take the next ping for its own
pong's completion, and the client a pong for its ping's; only the number of
completions each has reaped is fixed by where its loop is. That the two
parties stay in step follows from counting alone (`Linked`): a side cannot have
reaped more sends than it posted, nor more receives than its peer sent.

`rai_post_recv` adds to `recvPosted` and a placed message takes one of them
and completes at once; a send completes any time after its message is placed.
Every count is kept from the start, so a queue's length is a difference.
-/
import Mathlib.Data.List.Count
import RdmaInfra.Lts
import RdmaInfra.Verbs.Ops

namespace RdmaInfra.Verbs.PingPong

/-- Where a side's program is. Iteration `i` is server: `poll1`, `postRecv`,
`postSend`, `poll2`; client: `postRecv`, `postSend`, `poll1`, `poll2`. -/
inductive Pc
  | barrier
  | prepost (j : Nat)
  | postRecv (i : Nat)
  | postSend (i : Nat)
  | poll1 (i : Nat)
  | poll2 (i : Nat)
  deriving DecidableEq, Repr

/-- One side: its program, its completion queue, and its counts of receives
posted and filled, sends posted, placed at the peer and completed, and
completions reaped of each kind. -/
structure Side where
  pc : Pc
  cq : List WcKind
  recvPosted : Nat
  recvPlaced : Nat
  sendPosted : Nat
  sendPlaced : Nat
  sendDone : Nat
  reapedRecv : Nat
  reapedSend : Nat
  deriving DecidableEq, Repr

structure State where
  server : Side
  client : Side
  deriving DecidableEq, Repr

inductive Action
  | serverRun
  | clientRun
  | placePing
  | placePong
  | serverDone
  | clientDone
  deriving DecidableEq, Repr

namespace Side

def init (pc : Pc) : Side := ⟨pc, [], 0, 0, 0, 0, 0, 0, 0⟩

def postRecv (s : Side) : Side := { s with recvPosted := s.recvPosted + 1 }

def postSend (s : Side) : Side := { s with sendPosted := s.sendPosted + 1 }

/-- `rai_poll_cq`: takes the head of the queue, whatever it is. -/
def pollCq (s : Side) : Option Side :=
  match s.cq with
  | [] => none
  | .recv :: cq => some { s with cq := cq, reapedRecv := s.reapedRecv + 1 }
  | .send :: cq => some { s with cq := cq, reapedSend := s.reapedSend + 1 }

def goto (pc : Pc) (s : Side) : Side := { s with pc := pc }

/-- The next step of the server's program. The loop is left at `poll1
totalIters`. -/
def runServer (prepost totalIters : Nat) (s : Side) : Option Side :=
  match s.pc with
  | .barrier => none
  | .prepost j => some (if j < prepost then s.postRecv.goto (.prepost (j + 1)) else s.goto (.poll1 0))
  | .poll1 i => if i < totalIters then s.pollCq.map (goto (.postRecv i)) else none
  | .postRecv i => some ((if i + prepost < totalIters then s.postRecv else s).goto (.postSend i))
  | .postSend i => some (s.postSend.goto (.poll2 i))
  | .poll2 i => s.pollCq.map (goto (.poll1 (i + 1)))

/-- The next step of the client's program. It waits at the start barrier until
`ready`; the loop is left at `postRecv totalIters`. -/
def runClient (prepost totalIters : Nat) (ready : Bool) (s : Side) : Option Side :=
  match s.pc with
  | .barrier => if ready then some (s.goto (.prepost 0)) else none
  | .prepost j => some (if j < prepost then s.postRecv.goto (.prepost (j + 1)) else s.goto (.postRecv 0))
  | .postRecv i =>
    if i < totalIters then some ((if i + prepost < totalIters then s.postRecv else s).goto (.postSend i)) else none
  | .postSend i => some (s.postSend.goto (.poll1 i))
  | .poll1 i => s.pollCq.map (goto (.poll2 i))
  | .poll2 i => s.pollCq.map (goto (.postRecv (i + 1)))

/-- A message arrives in a posted receive, which completes. -/
def recvMsg (s : Side) : Side := { s with recvPlaced := s.recvPlaced + 1, cq := s.cq ++ [.recv] }

/-- A send completes, once its message is placed. -/
def sendDoneStep (s : Side) : Option Side :=
  if s.sendDone < s.sendPlaced then some { s with sendDone := s.sendDone + 1, cq := s.cq ++ [.send] } else none

/-- The server is past the pre-posting it does before it accepts. -/
def accepted (s : Side) : Bool :=
  match s.pc with
  | .barrier | .prepost _ => false
  | _ => true

end Side

/-- The oldest message of `a` not placed is placed at `b`, which must have a
receive for it. -/
def place (a b : Side) : Option (Side × Side) :=
  if a.sendPlaced < a.sendPosted ∧ b.recvPlaced < b.recvPosted then
    some ({ a with sendPlaced := a.sendPlaced + 1 }, b.recvMsg)
  else none

def step (prepost totalIters : Nat) : Action → State → Option State
  | .serverRun, s => (s.server.runServer prepost totalIters).map fun x => { s with server := x }
  | .clientRun, s => (s.client.runClient prepost totalIters s.server.accepted).map fun x => { s with client := x }
  | .placePing, s => (place s.client s.server).map fun (c, v) => ⟨v, c⟩
  | .placePong, s => (place s.server s.client).map fun (v, c) => ⟨v, c⟩
  | .serverDone, s => s.server.sendDoneStep.map fun x => { s with server := x }
  | .clientDone, s => s.client.sendDoneStep.map fun x => { s with client := x }

/-- Both sides for `depth` and `total_iters`: the server starts pre-posting,
the client at the barrier. -/
def system (depth totalIters : Nat) : Lts State Action where
  init s := s = ⟨.init (.prepost 0), .init .barrier⟩
  step := step (min depth totalIters) totalIters

/-- `prepost` and `total_iters` of one side. -/
structure Loop where
  prepost : Nat
  totalIters : Nat
  le : prepost ≤ totalIters

/-- As `main` computes them. -/
def Loop.of (depth totalIters : Nat) : Loop := ⟨min depth totalIters, totalIters, Nat.min_le_right ..⟩

/-- A server and a client started with options of their own. -/
def mixed (v c : Loop) : Lts State Action where
  init s := s = ⟨.init (.prepost 0), .init .barrier⟩
  step
    | .serverRun => step v.prepost v.totalIters .serverRun
    | a => step c.prepost c.totalIters a

theorem mixed_of_system {depth totalIters : Nat} {s : State} (h : (system depth totalIters).Reach s) :
    (mixed (.of depth totalIters) (.of depth totalIters)).Reach s := by
  refine Lts.Reach.inv (I := (mixed (.of depth totalIters) (.of depth totalIters)).Reach) ?_ ?_ h
  · intro s h0
    exact Lts.Reach.init h0
  · intro s a s' _ hr hs
    exact Lts.Reach.next (a := a) hr (by cases a <;> exact hs)

/-! ## The counting invariant -/

/-- What a side has sent and received, against its peer's counts. -/
structure Account (a b : Side) : Prop where
  done_le : a.sendDone ≤ a.sendPlaced
  placed_le : a.sendPlaced ≤ a.sendPosted
  link : b.recvPlaced = a.sendPlaced
  cqRecv : a.cq.count .recv + a.reapedRecv = a.recvPlaced
  cqSend : a.cq.count .send + a.reapedSend = a.sendDone

/-- The server's counts at each point of its program. -/
def ServerAt (prepost totalIters : Nat) (s : Side) : Prop :=
  match s.pc with
  | .barrier => False
  | .prepost j => j ≤ prepost ∧ s.recvPosted = j ∧ s.sendPosted = 0 ∧ s.reapedRecv + s.reapedSend = 0
  | .poll1 i => i ≤ totalIters ∧ s.recvPosted = min (prepost + i) totalIters ∧ s.sendPosted = i ∧
      s.reapedRecv + s.reapedSend = 2 * i
  | .postRecv i => i < totalIters ∧ s.recvPosted = min (prepost + i) totalIters ∧ s.sendPosted = i ∧
      s.reapedRecv + s.reapedSend = 2 * i + 1
  | .postSend i => i < totalIters ∧ s.recvPosted = min (prepost + i + 1) totalIters ∧ s.sendPosted = i ∧
      s.reapedRecv + s.reapedSend = 2 * i + 1
  | .poll2 i => i < totalIters ∧ s.recvPosted = min (prepost + i + 1) totalIters ∧ s.sendPosted = i + 1 ∧
      s.reapedRecv + s.reapedSend = 2 * i + 1

/-- The client's counts at each point of its program: it ends an iteration
with one completion of each kind, in some order. -/
def ClientAt (prepost totalIters : Nat) (s : Side) : Prop :=
  match s.pc with
  | .barrier => s.recvPosted = 0 ∧ s.sendPosted = 0 ∧ s.reapedRecv = 0 ∧ s.reapedSend = 0
  | .prepost j => j ≤ prepost ∧ s.recvPosted = j ∧ s.sendPosted = 0 ∧ s.reapedRecv = 0 ∧ s.reapedSend = 0
  | .postRecv i => i ≤ totalIters ∧ s.recvPosted = min (prepost + i) totalIters ∧ s.sendPosted = i ∧
      s.reapedRecv = i ∧ s.reapedSend = i
  | .postSend i => i < totalIters ∧ s.recvPosted = min (prepost + i + 1) totalIters ∧ s.sendPosted = i ∧
      s.reapedRecv = i ∧ s.reapedSend = i
  | .poll1 i => i < totalIters ∧ s.recvPosted = min (prepost + i + 1) totalIters ∧ s.sendPosted = i + 1 ∧
      s.reapedRecv = i ∧ s.reapedSend = i
  | .poll2 i => i < totalIters ∧ s.recvPosted = min (prepost + i + 1) totalIters ∧ s.sendPosted = i + 1 ∧
      i ≤ s.reapedRecv ∧ i ≤ s.reapedSend ∧ s.reapedRecv + s.reapedSend = 2 * i + 1

/-- What a run of any two sides keeps, whatever their options. -/
structure Linked (v c : Loop) (s : State) : Prop where
  server : ServerAt v.prepost v.totalIters s.server
  client : ClientAt c.prepost c.totalIters s.client
  pong : Account s.server s.client
  ping : Account s.client s.server
  /-- No pong before its ping. -/
  behind : s.server.sendPosted ≤ s.server.recvPlaced
  /-- No traffic before the server has pre-posted. -/
  barrier : s.client.pc = .barrier ∨ s.server.accepted = true

namespace Account

variable {a a' b b' : Side}

theorem reapedRecv_le (h : Account a b) : a.reapedRecv ≤ a.recvPlaced := by have := h.cqRecv; omega

theorem reapedSend_le (h : Account a b) : a.reapedSend ≤ a.sendDone := by have := h.cqSend; omega

theorem congr_peer (h : Account a b) (hb : b'.recvPlaced = b.recvPlaced) : Account a b' :=
  ⟨h.done_le, h.placed_le, hb.trans h.link, h.cqRecv, h.cqSend⟩

/-- A step that only posts. -/
theorem post (h : Account a b) (hcq : a'.cq = a.cq) (hr : a'.recvPlaced = a.recvPlaced)
    (hp : a.sendPosted ≤ a'.sendPosted) (hpl : a'.sendPlaced = a.sendPlaced) (hd : a'.sendDone = a.sendDone)
    (hrr : a'.reapedRecv = a.reapedRecv) (hrs : a'.reapedSend = a.reapedSend) : Account a' b := by
  obtain ⟨h1, h2, h3, h4, h5⟩ := h
  exact ⟨by omega, by omega, by omega, by rw [hcq]; omega, by rw [hcq]; omega⟩

end Account

/-- What a poll changes: one more completion reaped, of one kind or the
other. -/
structure Polled (a a' : Side) : Prop where
  recvPosted : a'.recvPosted = a.recvPosted
  recvPlaced : a'.recvPlaced = a.recvPlaced
  sendPosted : a'.sendPosted = a.sendPosted
  total : a'.reapedRecv + a'.reapedSend = a.reapedRecv + a.reapedSend + 1
  recv_le : a.reapedRecv ≤ a'.reapedRecv
  send_le : a.reapedSend ≤ a'.reapedSend

theorem Account.poll {a a' b : Side} {pc} (h : Account a b) (hp : a.pollCq.map (Side.goto pc) = some a') :
    Account a' b ∧ Polled a a' ∧ a'.pc = pc := by
  obtain ⟨x, hx, rfl⟩ := Option.map_eq_some_iff.mp hp
  obtain ⟨h1, h2, h3, h4, h5⟩ := h
  simp only [Side.pollCq] at hx
  split at hx
  · cases hx
  next cq hcq =>
    cases hx
    rw [hcq] at h4 h5
    simp only [List.count_cons, beq_self_eq_true, if_true, reduceCtorEq, beq_iff_eq, if_false] at h4 h5
    exact ⟨⟨h1, h2, h3, by simp only [Side.goto]; omega, by simp only [Side.goto]; omega⟩,
      ⟨rfl, rfl, rfl, by simp only [Side.goto]; omega, by simp only [Side.goto]; omega, le_rfl⟩, rfl⟩
  next cq hcq =>
    cases hx
    rw [hcq] at h4 h5
    simp only [List.count_cons, beq_self_eq_true, if_true, reduceCtorEq, beq_iff_eq, if_false] at h4 h5
    exact ⟨⟨h1, h2, h3, by simp only [Side.goto]; omega, by simp only [Side.goto]; omega⟩,
      ⟨rfl, rfl, rfl, by simp only [Side.goto]; omega, le_rfl, by simp only [Side.goto]; omega⟩, rfl⟩

section Step

variable {v c : Loop} {s s' : State} {x : Side}

theorem Linked.serverRun (hI : Linked v c s) (h : s.server.runServer v.prepost v.totalIters = some x) :
    Linked v c { s with server := x } := by
  have hle := v.le
  have hs := hI.server
  have hb := hI.behind
  have hbar := hI.barrier
  have hg := hI.pong
  simp only [Side.runServer] at h
  split at h
  · cases h
  next j hpc =>
    simp only [ServerAt, hpc] at hs
    simp only [Side.accepted, hpc, Bool.false_eq_true, or_false] at hbar
    by_cases hj : j < v.prepost
    · simp only [hj, if_true, Option.some.injEq] at h
      subst h
      exact ⟨by simp only [ServerAt, Side.goto, Side.postRecv]; omega, hI.client,
        hg.post rfl rfl le_rfl rfl rfl rfl rfl, hI.ping.congr_peer rfl, hb, .inl hbar⟩
    · simp only [hj, if_false, Option.some.injEq] at h
      subst h
      exact ⟨by simp only [ServerAt, Side.goto]; omega, hI.client,
        hg.post rfl rfl le_rfl rfl rfl rfl rfl, hI.ping.congr_peer rfl, hb, .inr rfl⟩
  next i hpc =>
    simp only [ServerAt, hpc] at hs
    by_cases hi : i < v.totalIters
    · simp only [hi, if_true] at h
      obtain ⟨hg', hp, hpc'⟩ := hg.poll h
      have h1 := hp.total
      have h2 := hp.recvPosted
      have h3 := hp.sendPosted
      have h4 := hp.recvPlaced
      exact ⟨by simp only [ServerAt, hpc']; omega, hI.client, hg', hI.ping.congr_peer h4,
        by simp only; omega, .inr (by simp only [Side.accepted, hpc'])⟩
    · simp only [hi, if_false] at h
      cases h
  next i hpc =>
    simp only [ServerAt, hpc] at hs
    by_cases hi : i + v.prepost < v.totalIters
    · simp only [hi, if_true, Option.some.injEq] at h
      subst h
      exact ⟨by simp only [ServerAt, Side.goto, Side.postRecv]; omega, hI.client,
        hg.post rfl rfl le_rfl rfl rfl rfl rfl, hI.ping.congr_peer rfl, hb, .inr rfl⟩
    · simp only [hi, if_false, Option.some.injEq] at h
      subst h
      exact ⟨by simp only [ServerAt, Side.goto]; omega, hI.client,
        hg.post rfl rfl le_rfl rfl rfl rfl rfl, hI.ping.congr_peer rfl, hb, .inr rfl⟩
  next i hpc =>
    simp only [ServerAt, hpc] at hs
    simp only [Option.some.injEq] at h
    subst h
    -- Of the `2 * i + 1` completions reaped, at most `i` were its own sends.
    have h1 := hg.reapedSend_le
    have h2 := hg.done_le
    have h3 := hg.placed_le
    have h4 := hg.reapedRecv_le
    exact ⟨by simp only [ServerAt, Side.goto, Side.postSend]; omega, hI.client,
      hg.post rfl rfl (Nat.le_succ _) rfl rfl rfl rfl, hI.ping.congr_peer rfl,
      by simp only [Side.goto, Side.postSend]; omega, .inr rfl⟩
  next i hpc =>
    simp only [ServerAt, hpc] at hs
    obtain ⟨hg', hp, hpc'⟩ := hg.poll h
    have h1 := hp.total
    have h2 := hp.recvPosted
    have h3 := hp.sendPosted
    have h4 := hp.recvPlaced
    exact ⟨by simp only [ServerAt, hpc']; omega, hI.client, hg', hI.ping.congr_peer h4,
      by simp only; omega, .inr (by simp only [Side.accepted, hpc'])⟩

theorem Linked.clientRun (hI : Linked v c s)
    (h : s.client.runClient c.prepost c.totalIters s.server.accepted = some x) :
    Linked v c { s with client := x } := by
  have hle := c.le
  have hc := hI.client
  have hg := hI.ping
  have hbar := hI.barrier
  simp only [Side.runClient] at h
  split at h
  next hpc =>
    simp only [ClientAt, hpc] at hc
    split at h
    next hready =>
      cases h
      exact ⟨hI.server, by simp only [ClientAt, Side.goto]; omega, hI.pong.congr_peer rfl,
        hg.post rfl rfl le_rfl rfl rfl rfl rfl, hI.behind, .inr hready⟩
    · cases h
  next j hpc =>
    simp only [ClientAt, hpc] at hc
    simp only [hpc, reduceCtorEq, false_or] at hbar
    by_cases hj : j < c.prepost
    · simp only [hj, if_true, Option.some.injEq] at h
      subst h
      exact ⟨hI.server, by simp only [ClientAt, Side.goto, Side.postRecv]; omega, hI.pong.congr_peer rfl,
        hg.post rfl rfl le_rfl rfl rfl rfl rfl, hI.behind, .inr hbar⟩
    · simp only [hj, if_false, Option.some.injEq] at h
      subst h
      exact ⟨hI.server, by simp only [ClientAt, Side.goto]; omega, hI.pong.congr_peer rfl,
        hg.post rfl rfl le_rfl rfl rfl rfl rfl, hI.behind, .inr hbar⟩
  next i hpc =>
    simp only [ClientAt, hpc] at hc
    simp only [hpc, reduceCtorEq, false_or] at hbar
    split at h
    swap
    · cases h
    by_cases hi : i + c.prepost < c.totalIters
    · simp only [hi, if_true, Option.some.injEq] at h
      subst h
      exact ⟨hI.server, by simp only [ClientAt, Side.goto, Side.postRecv]; omega, hI.pong.congr_peer rfl,
        hg.post rfl rfl le_rfl rfl rfl rfl rfl, hI.behind, .inr hbar⟩
    · simp only [hi, if_false, Option.some.injEq] at h
      subst h
      exact ⟨hI.server, by simp only [ClientAt, Side.goto]; omega, hI.pong.congr_peer rfl,
        hg.post rfl rfl le_rfl rfl rfl rfl rfl, hI.behind, .inr hbar⟩
  next i hpc =>
    simp only [ClientAt, hpc] at hc
    simp only [hpc, reduceCtorEq, false_or] at hbar
    simp only [Option.some.injEq] at h
    subst h
    exact ⟨hI.server, by simp only [ClientAt, Side.goto, Side.postSend]; omega, hI.pong.congr_peer rfl,
      hg.post rfl rfl (Nat.le_succ _) rfl rfl rfl rfl, hI.behind, .inr hbar⟩
  next i hpc =>
    simp only [ClientAt, hpc] at hc
    simp only [hpc, reduceCtorEq, false_or] at hbar
    obtain ⟨hg', hp, hpc'⟩ := hg.poll h
    obtain ⟨h2, h4, h3, h1, h5, h6⟩ := hp
    exact ⟨hI.server, by simp only [ClientAt, hpc']; omega, hI.pong.congr_peer h4, hg', hI.behind, .inr hbar⟩
  next i hpc =>
    simp only [ClientAt, hpc] at hc
    simp only [hpc, reduceCtorEq, false_or] at hbar
    obtain ⟨hg', hp, hpc'⟩ := hg.poll h
    obtain ⟨h2, h4, h3, h1, h5, h6⟩ := hp
    -- Neither kind can be over `i + 1`: its own sends, or the pongs to its pings.
    have h7 := hg'.reapedSend_le
    have h8 := hg'.done_le
    have h9 := hg'.placed_le
    have h10 := hg'.reapedRecv_le
    have h11 := hI.pong.link
    have h12 := hI.pong.placed_le
    have h13 := hI.behind
    have h14 := hg.link
    have h15 := hg.placed_le
    exact ⟨hI.server, by simp only [ClientAt, hpc']; omega, hI.pong.congr_peer h4, hg', hI.behind, .inr hbar⟩

theorem Account.place {a b a' b' : Side} (hab : Account a b) (hba : Account b a) (h : place a b = some (a', b')) :
    Account a' b' ∧ Account b' a' ∧ a' = { a with sendPlaced := a.sendPlaced + 1 } ∧ b' = b.recvMsg := by
  simp only [PingPong.place] at h
  split at h
  swap
  · cases h
  cases h
  obtain ⟨h1, h2, h3, h4, h5⟩ := hab
  obtain ⟨k1, k2, k3, k4, k5⟩ := hba
  refine ⟨⟨by simp only; omega, by simp only; omega, by simp only [Side.recvMsg]; omega, h4, h5⟩,
    ⟨k1, k2, k3, ?_, ?_⟩, rfl, rfl⟩
  · simp only [Side.recvMsg, List.count_append, List.count_singleton, beq_self_eq_true, if_true]
    omega
  · simp only [Side.recvMsg, List.count_append, List.count_singleton, beq_iff_eq, reduceCtorEq, if_false]
    omega

theorem Account.done {a a' b : Side} (h : Account a b) (hd : a.sendDoneStep = some a') :
    Account a' b ∧ a' = { a with sendDone := a.sendDone + 1, cq := a.cq ++ [.send] } := by
  simp only [Side.sendDoneStep] at hd
  split at hd
  swap
  · cases hd
  cases hd
  obtain ⟨h1, h2, h3, h4, h5⟩ := h
  refine ⟨⟨by simp only; omega, h2, h3, ?_, ?_⟩, rfl⟩
  · simp only [List.count_append, List.count_singleton, beq_iff_eq, reduceCtorEq, if_false]
    omega
  · simp only [List.count_append, List.count_singleton, beq_self_eq_true, if_true]
    omega

theorem Linked.step {a} (hI : Linked v c s) (h : (mixed v c).step a s = some s') : Linked v c s' := by
  cases a with
  | serverRun =>
    obtain ⟨x, hx, rfl⟩ := Option.map_eq_some_iff.mp h
    exact hI.serverRun hx
  | clientRun =>
    obtain ⟨x, hx, rfl⟩ := Option.map_eq_some_iff.mp h
    exact hI.clientRun hx
  | placePing =>
    obtain ⟨⟨y, x⟩, hx, rfl⟩ := Option.map_eq_some_iff.mp h
    obtain ⟨h1, h2, rfl, rfl⟩ := Account.place hI.ping hI.pong hx
    exact ⟨hI.server, hI.client, h2, h1, by have := hI.behind; simp only [Side.recvMsg]; omega, hI.barrier⟩
  | placePong =>
    obtain ⟨⟨x, y⟩, hx, rfl⟩ := Option.map_eq_some_iff.mp h
    obtain ⟨h1, h2, rfl, rfl⟩ := Account.place hI.pong hI.ping hx
    exact ⟨hI.server, hI.client, h1, h2, hI.behind, hI.barrier⟩
  | serverDone =>
    obtain ⟨x, hx, rfl⟩ := Option.map_eq_some_iff.mp h
    obtain ⟨h1, rfl⟩ := hI.pong.done hx
    exact ⟨hI.server, hI.client, h1, hI.ping.congr_peer rfl, hI.behind, hI.barrier⟩
  | clientDone =>
    obtain ⟨x, hx, rfl⟩ := Option.map_eq_some_iff.mp h
    obtain ⟨h1, rfl⟩ := hI.ping.done hx
    exact ⟨hI.server, hI.client, hI.pong.congr_peer rfl, h1, hI.behind, hI.barrier⟩

theorem Linked.start : Linked v c ⟨.init (.prepost 0), .init .barrier⟩ :=
  ⟨⟨Nat.zero_le _, rfl, rfl, rfl⟩, ⟨rfl, rfl, rfl, rfl⟩, ⟨le_rfl, le_rfl, rfl, rfl, rfl⟩,
    ⟨le_rfl, le_rfl, rfl, rfl, rfl⟩, le_rfl, .inl rfl⟩

theorem reach_linked (h : (mixed v c).Reach s) : Linked v c s := by
  refine Lts.Reach.inv (I := Linked v c) ?_ ?_ h
  · rintro _ rfl
    exact .start
  · intro s a s' _ hI hs
    exact hI.step hs

end Step

theorem reach_inv {depth totalIters : Nat} {s : State} (h : (system depth totalIters).Reach s) :
    Linked (.of depth totalIters) (.of depth totalIters) s := reach_linked (mixed_of_system h)

/-! ## What follows -/

namespace Linked

variable {v c : Loop} {s : State}

/-- The receives the server has posted cover its own iteration and the next. -/
theorem server_recvs (h : Linked v c s) (ha : s.server.accepted = true) :
    min (v.prepost + s.server.sendPosted) v.totalIters ≤ s.server.recvPosted := by
  have hs := h.server
  rcases hpc : s.server.pc with _ | j | i | i | i | i <;> simp only [ServerAt, hpc] at hs <;>
    simp only [Side.accepted, hpc] at ha <;> first | omega | simp at ha

/-- A ping finds a receive: the client sends the next only after the pong to
the one before, and that pong was posted after another receive. -/
theorem ping_ready (hpos : 1 ≤ v.prepost) (hle : c.totalIters ≤ v.totalIters) (h : Linked v c s)
    (hf : s.client.sendPlaced < s.client.sendPosted) : s.server.recvPlaced < s.server.recvPosted := by
  have hc := h.client
  have h1 := h.ping.link
  have h2 := h.pong.link
  have h3 := h.pong.placed_le
  have h4 := h.ping.reapedRecv_le
  rcases hpc : s.client.pc with _ | j | i | i | i | i <;> simp only [ClientAt, hpc] at hc
  · omega
  · omega
  all_goals
    have h5 := h.server_recvs (h.barrier.resolve_left (by rw [hpc]; simp))
    omega

/-- A pong finds a receive. -/
theorem pong_ready (h : Linked v c s) (hf : s.server.sendPlaced < s.server.sendPosted) :
    s.client.recvPlaced < s.client.recvPosted := by
  have hc := h.client
  have h1 := h.pong.link
  have h2 := h.ping.link
  have h3 := h.ping.placed_le
  have h4 := h.behind
  rcases hpc : s.client.pc with _ | j | i | i | i | i <;> simp only [ClientAt, hpc] at hc <;> omega

theorem server_recvPosted_le (h : Linked v c s) : s.server.recvPosted ≤ v.totalIters := by
  have hs := h.server
  have hle := v.le
  rcases hpc : s.server.pc with _ | j | i | i | i | i <;> simp only [ServerAt, hpc] at hs <;> omega

theorem client_recvPosted_le (h : Linked v c s) : s.client.recvPosted ≤ c.totalIters := by
  have hc := h.client
  have hle := c.le
  rcases hpc : s.client.pc with _ | j | i | i | i | i <;> simp only [ClientAt, hpc] at hc <;> omega

theorem client_sendPosted_le (h : Linked v c s) : s.client.sendPosted ≤ c.totalIters := by
  have hc := h.client
  rcases hpc : s.client.pc with _ | j | i | i | i | i <;> simp only [ClientAt, hpc] at hc <;> omega

end Linked

/-- A side has posted `n` receives and `n` sends, and all of them have
completed and been reaped. -/
def Side.Clean (n : Nat) (s : Side) : Prop :=
  s.recvPosted = n ∧ s.sendPosted = n ∧ s.reapedRecv = n ∧ s.reapedSend = n ∧ s.cq = []

theorem Account.clean {a b : Side} {n} (h : Account a b) (hr : a.recvPosted = n) (hs : a.sendPosted = n)
    (hrr : a.reapedRecv = n) (hrs : a.reapedSend = n) (hle : a.recvPlaced ≤ n) : a.Clean n := by
  obtain ⟨h1, h2, -, h4, h5⟩ := h
  refine ⟨hr, hs, hrr, hrs, ?_⟩
  have hz : ∀ k, k ∉ a.cq := by
    intro k
    rw [← List.count_eq_zero]
    cases k <;> omega
  exact List.eq_nil_iff_forall_not_mem.mpr hz

/-- Whatever the order of completions: the server posts pong `i` only after
ping `i` was placed; the client ends iteration `i` only once pong `i` was
placed and ping `i`'s send completed; every message in flight has a receive
waiting; and a side that leaves its loop has posted `total_iters` receives
and has reaped everything it posted. -/
theorem pingPong_safe (depth totalIters : Nat) (hd : 1 ≤ depth) (ht : 1 ≤ totalIters) (s : State)
    (h : (system depth totalIters).Reach s) :
    (∀ i, s.server.pc = .postSend i → s.server.sendPosted = i ∧ i < s.server.recvPlaced) ∧
    (∀ i, s.client.pc = .postRecv (i + 1) → i < s.client.recvPlaced ∧ i < s.client.sendDone) ∧
    (s.client.sendPlaced < s.client.sendPosted → s.server.recvPlaced < s.server.recvPosted) ∧
    (s.server.sendPlaced < s.server.sendPosted → s.client.recvPlaced < s.client.recvPosted) ∧
    (s.server.recvPosted ≤ totalIters ∧ s.client.recvPosted ≤ totalIters) ∧
    (s.server.pc = .poll1 totalIters → s.server.Clean totalIters) ∧
    (s.client.pc = .postRecv totalIters → s.client.Clean totalIters) := by
  have hI := reach_inv h
  have hs := hI.server
  have hc := hI.client
  have hpos : 1 ≤ (Loop.of depth totalIters).prepost := by simp only [Loop.of]; omega
  have hT : s.client.sendPosted ≤ totalIters := hI.client_sendPosted_le
  obtain ⟨p1, p2, p3, -, -⟩ := hI.pong
  obtain ⟨q1, q2, q3, -, -⟩ := hI.ping
  have hpr := hI.pong.reapedRecv_le
  have hps := hI.pong.reapedSend_le
  have hqr := hI.ping.reapedRecv_le
  have hqs := hI.ping.reapedSend_le
  refine ⟨fun i hpc => ?_, fun i hpc => ?_, hI.ping_ready hpos le_rfl, hI.pong_ready,
    ⟨hI.server_recvPosted_le, hI.client_recvPosted_le⟩, fun hpc => ?_, fun hpc => ?_⟩
  · simp only [ServerAt, Loop.of, hpc] at hs
    omega
  · simp only [ClientAt, Loop.of, hpc] at hc
    omega
  · simp only [ServerAt, Loop.of, hpc] at hs
    exact hI.pong.clean (by omega) (by omega) (by omega) (by omega) (by omega)
  · have hb := hI.behind
    simp only [ClientAt, Loop.of, hpc] at hc
    exact hI.ping.clean (by omega) (by omega) (by omega) (by omega) (by omega)

/-- Two round trips in which the server takes the second ping for its first
pong's completion. -/
theorem pingPong_swapped_completions :
    ∃ s, (system 8 2).Reach s ∧ s.server.pc = .poll1 2 ∧ s.client.pc = .postRecv 2 ∧
      s.server.Clean 2 ∧ s.client.Clean 2 := by
  let acts : List Action := [.serverRun, .serverRun, .serverRun, .clientRun, .clientRun, .clientRun, .clientRun,
    .clientRun, .clientRun, .placePing, .serverRun, .serverRun, .serverRun, .placePong, .clientDone, .clientRun,
    .clientRun, .clientRun, .clientRun, .placePing, .serverRun, .serverDone, .serverRun, .serverRun, .serverRun,
    .placePong, .serverDone, .serverRun, .clientDone, .clientRun, .clientRun]
  have he : ∃ s, (system 8 2).exec acts ⟨.init (.prepost 0), .init .barrier⟩ = some s ∧
      s.server.pc = .poll1 2 ∧ s.client.pc = .postRecv 2 := ⟨_, rfl, rfl, rfl⟩
  obtain ⟨s, hs, hv, hc⟩ := he
  have hr : (system 8 2).Reach s := Lts.Reach.exec (Lts.Reach.init rfl) hs
  obtain ⟨-, -, -, -, -, h1, h2⟩ := pingPong_safe 8 2 (by decide) (by decide) s hr
  exact ⟨s, hr, hv, hc, h1 hv, h2 hc⟩

end RdmaInfra.Verbs.PingPong
