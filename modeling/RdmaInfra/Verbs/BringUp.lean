/-
Bring-up and the first traffic of the phase 1 benchmarks: `lat_send_recv`,
`bw_rdma_write` and `lat_rdma_write`, over a queue pair connected by hand
(`rdma_verbs_connect.c`) or by the connection manager (`rdma_cm_connect.c`).

Each side is the list of calls its `main` makes. A call that blocks waits for
what the peer has done and no setup call fails, the first exchange on `port + 1`
included. A call after it may, in the data phase or in the teardown exchange:
`failsAt` is the one of either side that does, and its side goes on at `out`,
which closes the listener on `port + 1`.

What the hardware does between the two is left as free as it can be. A
completion or a doorbell is seen any time after what it stands for was posted,
and nothing says that it is seen at all.
-/
import RdmaInfra.Script
import RdmaInfra.Verbs.Ops
import RdmaInfra.Verbs.Setup

namespace RdmaInfra.Verbs.BringUp

open Setup (Mode)

/-- `ep` listens on `port`, `mr` on `port + 1`. -/
inductive Listener
  | ep
  | mr
  deriving DecidableEq, Repr

/-- The calls, of libraries and of the system. An accepted or made connection is
named by its listener and by how many came before it there. `cmRequest` is the
wait for `CONNECT_REQUEST`, `cmEstablished` that for `ESTABLISHED`; `reap n` is an
`ibv_poll_cq` that gives `n` completions, and `spin n` the wait for the doorbell
that the peer's `n`-th write may be the first to set. -/
inductive Op
  | listen (l : Listener)
  | closeListen (l : Listener)
  | accept (l : Listener) (k : Nat)
  | connect (l : Listener) (k : Nat)
  | sendInfo (l : Listener) (k : Nat)
  | recvInfo (l : Listener) (k : Nat)
  | cmListen
  | cmRequest
  | cmDestroyListen
  | cmAccept
  | cmResolve
  | cmConnect
  | cmEstablished
  | buildQp
  | toRtr
  | toRts
  | mrReg
  | mrDereg
  | qpDestroy
  | clearDoorbell
  | malloc
  | postRecv
  | postSend
  | postWrite
  | pollCq
  | reap (n : Nat)
  | spin (n : Nat)
  deriving DecidableEq, Repr

/-! ## Setup -/

def oobAccept (l : Listener) (k : Nat) : List Op := [.accept l k, .sendInfo l k, .recvInfo l k]

def oobConnect (l : Listener) (k : Nat) : List Op := [.connect l k, .recvInfo l k, .sendInfo l k]

def qpToRts : List Op := [.toRtr, .toRts]

def verbsListenQp : List Op := [.listen .ep, .listen .mr, .buildQp] ++ oobAccept .ep 0 ++ [.closeListen .ep]

def verbsAcceptQp : List Op := qpToRts

def verbsConnectQp : List Op := [.buildQp] ++ oobConnect .ep 0 ++ qpToRts

def cmListenQp : List Op := [.cmListen, .cmRequest, .buildQp, .listen .mr, .cmDestroyListen]

def cmAcceptQp : List Op := [.cmAccept, .cmEstablished]

def cmConnectQp : List Op := [.cmResolve, .buildQp, .cmConnect, .cmEstablished]

def benchListen : Mode → List Op
  | .verbs => verbsListenQp
  | .cm => cmListenQp

def benchAccept : Mode → List Op
  | .verbs => verbsAcceptQp
  | .cm => cmAcceptQp

def benchConnect : Mode → List Op
  | .verbs => verbsConnectQp
  | .cm => cmConnectQp

/-! ## The three programs -/

/-- A `main`: the calls up to the first exchange on `port + 1`, that exchange,
the calls of the data phase, whether these are all of it (they are not where the
loop is still going), the teardown exchange, and what stands at `out`. -/
structure Main where
  setup : List Op
  exchange : List Op
  calls : List Op
  left : Bool
  sync : List Op
  out : List Op

/-- The calls of the data phase and of the teardown exchange whose failure is an
error. -/
def Op.fallible : Op → Bool
  | .malloc | .postRecv | .postSend | .postWrite | .pollCq | .reap _ => true
  | .accept _ _ | .connect _ _ | .sendInfo _ _ | .recvInfo _ _ => true
  | _ => false

/-- What follows the first exchange, up to `out`. -/
def Main.body (m : Main) : List Op := m.calls ++ if m.left then m.sync else []

/-- The call that fails. -/
def Main.failing (m : Main) (failsAt : Option Nat) : Option Nat :=
  failsAt.filter fun k => m.body[k]?.any Op.fallible

/-- What follows the first exchange. -/
def Main.rest (m : Main) (failsAt : Option Nat) : List Op :=
  match m.failing failsAt with
  | some k => m.body.take k ++ m.out
  | none => m.body ++ if m.left then m.out else []

def Main.run (m : Main) (failsAt : Option Nat) : List Op := m.setup ++ m.exchange ++ m.rest failsAt

def serverOut : List Op := [.closeListen .mr, .mrDereg, .qpDestroy]

def clientOut : List Op := [.mrDereg, .qpDestroy]

section

variable (mode : Mode) (totalIters depth : Nat)

/-- The receive of iteration `i`, where the posted ones do not yet cover it. -/
def repost (prepost i : Nat) : List Op := if i + prepost < totalIters then [.postRecv] else []

def latSendRecv : Party → Main
  | .server => {
      setup := benchListen mode ++ [.mrReg] ++ List.replicate (min depth totalIters) .postRecv ++ benchAccept mode
      exchange := oobAccept .mr 0
      calls := (List.range totalIters).flatMap fun i =>
        [.pollCq] ++ repost totalIters (min depth totalIters) i ++ [.postSend, .pollCq]
      left := true
      sync := []
      out := serverOut }
  | .client => {
      setup := benchConnect mode ++ [.mrReg]
      exchange := oobConnect .mr 0
      calls := [.malloc] ++ List.replicate (min depth totalIters) .postRecv ++
        (List.range totalIters).flatMap fun i =>
          repost totalIters (min depth totalIters) i ++ [.postSend, .pollCq, .pollCq]
      left := true
      sync := []
      out := clientOut }

/-- The inner loop: a write for each `scnt` from which fewer than `depth` are
outstanding. -/
def fillWindow (scnt ccnt : Nat) : List Op :=
  ((List.range' scnt (totalIters - scnt)).takeWhile fun n => n - ccnt < depth).map fun _ => .postWrite

/-- The outer loop, for what its polls give, and whether it is left. -/
def windowLoop : List Nat → (scnt ccnt : Nat) → List Op × Bool
  | [], scnt, ccnt => if ccnt < totalIters then (fillWindow totalIters depth scnt ccnt, false) else ([], true)
  | ne :: reaps, scnt, ccnt =>
    if ccnt < totalIters then
      let posts := fillWindow totalIters depth scnt ccnt
      let (calls, left) := windowLoop reaps (scnt + posts.length) (ccnt + ne)
      (posts ++ .reap ne :: calls, left)
    else ([], true)

/-- The server's doorbell is cleared while its queue pair is in INIT. The
client's is a source of writes and is cleared after the exchange. -/
def bwRdmaWrite (reaps : List Nat) : Party → Main
  | .server => {
      setup := benchListen mode ++ [.mrReg, .clearDoorbell] ++ benchAccept mode
      exchange := oobAccept .mr 0
      calls := [.spin 1]
      left := true
      sync := oobAccept .mr 1
      out := serverOut }
  | .client => {
      setup := benchConnect mode ++ [.mrReg]
      exchange := oobConnect .mr 0
      calls := .clearDoorbell :: (windowLoop totalIters depth reaps 0 0).1
      left := (windowLoop totalIters depth reaps 0 0).2
      sync := oobConnect .mr 1
      out := clientOut }

def latRdmaWrite : Party → Main
  | .server => {
      setup := benchListen mode ++ [.mrReg] ++ benchAccept mode ++ [.clearDoorbell]
      exchange := oobAccept .mr 0
      calls := (List.range totalIters).flatMap fun i => [.spin (i + 1), .postWrite, .pollCq]
      left := true
      sync := oobAccept .mr 1
      out := serverOut }
  | .client => {
      setup := benchConnect mode ++ [.mrReg, .clearDoorbell]
      exchange := oobConnect .mr 0
      calls := .malloc :: (List.range totalIters).flatMap fun i => [.postWrite, .pollCq, .spin (i + 1)]
      left := true
      sync := oobConnect .mr 1
      out := clientOut }

end

inductive Bench
  | latSendRecv
  | bwRdmaWrite
  | latRdmaWrite
  deriving DecidableEq, Repr

/-- A run's parameters: `reaps` is what the polls of `bw_rdma_write` give, and
`failsAt` the call after the first exchange that fails on either side, if one does. -/
structure Config where
  bench : Bench
  mode : Mode
  totalIters : Nat
  depth : Nat
  reaps : List Nat
  failsAt : Party → Option Nat

def Config.main (cfg : Config) : Party → Main :=
  match cfg.bench with
  | .latSendRecv => latSendRecv cfg.mode cfg.totalIters cfg.depth
  | .bwRdmaWrite => bwRdmaWrite cfg.mode cfg.totalIters cfg.depth cfg.reaps
  | .latRdmaWrite => latRdmaWrite cfg.mode cfg.totalIters

def Config.program (cfg : Config) (p : Party) : List Op := (cfg.main p).run (cfg.failsAt p)

/-- A call of the server's data phase fails, or its `accept` of the teardown
exchange. -/
def Config.Refuses (cfg : Config) : Prop :=
  ∃ k ∈ (cfg.main .server).failing (cfg.failsAt .server), k ≤ (cfg.main .server).calls.length

/-! ## What a call waits for -/

abbrev History := Party → List Op

/-- `connect` finds the socket listening. -/
def Listening (s : History) (l : Listener) : Prop := .listen l ∈ s .server ∧ .closeListen l ∉ s .server

instance (s : History) (l : Listener) : Decidable (Listening s l) := inferInstanceAs (Decidable (_ ∧ _))

def cqPollBatch : Nat := 16

def reaped (done : List Op) : Nat := (done.filterMap fun | .reap n => some n | _ => none).sum

/-- Connecting succeeds before the server accepts. The client sees `ESTABLISHED`
after `rdma_accept`; that the server sees it after the client is not needed. -/
def ready (s : History) (p : Party) : Op → Bool
  | .connect l _ => Listening s l
  | .accept l k => .connect l k ∈ s p.peer
  | .recvInfo l k => .sendInfo l k ∈ s p.peer
  | .cmRequest => .cmConnect ∈ s p.peer
  | .cmEstablished =>
    match p with
    | .client => .cmAccept ∈ s .server
    | .server => .cmConnect ∈ s .client
  | .pollCq =>
    (s p).count .pollCq < (s p).count .postSend + (s p).count .postWrite + (s p.peer).count .postSend
  | .reap n => n ≤ cqPollBatch ∧ reaped (s p) + n ≤ (s p).count .postWrite
  | .spin n => n ≤ (s p.peer).count .postWrite
  | _ => true

def system (cfg : Config) : Lts History Party := Script.system cfg.program ready

/-- The calls that take a side's queue pair out of INIT: to RTR by hand, and with
the connection manager inside `rdma_accept` or before `ESTABLISHED` is given. -/
def leavesInit : Party → Op → Bool
  | _, .toRtr => true
  | .server, .cmAccept => true
  | .client, .cmEstablished => true
  | _, _ => false

/-- The queue pair of `p` has reached RTR. -/
def LeftInit (s : History) (p : Party) : Prop := ∃ o ∈ s p, leavesInit p o = true

instance (s : History) (p : Party) : Decidable (LeftInit s p) := inferInstanceAs (Decidable (∃ o ∈ s p, _))

end RdmaInfra.Verbs.BringUp
