/-
The raw-verbs handshake (`rdma_verbs_connect.c`) over the out-of-band exchange
(`rdma_oob_connect.c`).

`rai_verbs_listen_qp` and `rai_verbs_connect_qp` build the queue pair and run a
first exchange, on `port`; `rai_verbs_accept_qp` and the rest of
`rai_verbs_connect_qp` take the queue pair to RTS; the caller may then run
`rai_oob_accept` and `rai_oob_connect` on `port + 1` any number of times, with
`local.addr` and `local.rkey` set in between. Each exchange has a connection of
its own: the client connects, the listener queues it, the server accepts. The
server sends before it receives, the client the other way round, and `send` and
`recv` move any number of bytes at a time.

Any call may fail at any time. Every caller then gives up, and
`rai_qp_destroy` clears the struct.
-/
import Mathlib.Logic.Function.Basic
import RdmaInfra.Lts
import RdmaInfra.Queue
import RdmaInfra.Verbs.Ops
import RdmaInfra.Verbs.Oob

namespace RdmaInfra.Verbs.Handshake

/-- What a side finds on its machine: the number its queue pair gets, its GID
table, and the padding of its `local`. -/
structure Endpoint where
  qpNum : UInt32
  gids : GidTable
  pad : Fin 4 → UInt8

/-- The address attributes `qp_to_rts` gives to `ibv_modify_qp`. -/
structure QpAttr where
  destQpNum : UInt32
  rqPsn : UInt32
  dgid : Gid
  sgidIndex : Int
  sqPsn : UInt32

/-- `join` is `accept` or `connect`; `send` and `recv` are the loops of
`send_all` and `recv_all`; `ready` is between two calls after the queue pair
reached RTS. -/
inductive Pc
  | listen
  | build
  | join
  | send
  | recv
  | toRts
  | ready
  | failed
  deriving DecidableEq, Repr

/-- One side. `remote` is the image of `qp->remote`, `pos` is `sent` or
`recved`, and `held` is the history of `local` over the exchanges begun. -/
structure Side where
  pc : Pc
  gidIndex : Int
  localInfo : ConnInfo
  remote : List UInt8
  attr : Option QpAttr
  fd : Nat
  pos : Nat
  held : List ConnInfo

/-- `ep` and `mr` are the connections the two listeners have queued,
`conns k p` is what `p` sends on connection `k`, and `next` counts the
connections made. -/
structure State where
  sides : Party → Side
  ep : List Nat
  mr : List Nat
  conns : Nat → Party → Stream
  next : Nat

inductive Action
  | run (p : Party)
  | send (p : Party) (n : Nat)
  | recv (p : Party) (n : Nat)
  | setMr (p : Party) (addr : UInt64) (rkey : UInt32)
  | fail (p : Party)
  deriving DecidableEq

namespace Side

/-- `qp->remote`. -/
def remoteInfo (x : Side) : ConnInfo := .ofBytes x.remote

/-- `rai_qp_destroy` and out. -/
def fail (x : Side) : Side :=
  { x with pc := .failed, gidIndex := 0, localInfo := .zero, remote := List.replicate ConnInfo.size 0, attr := none }

/-- `build_qp_verbs`. -/
def buildQp (e : Endpoint) (x : Side) : Side :=
  match e.gids.gid? (findRoceV2Gid e.gids) with
  | none => x.fail
  | some gid =>
    { x with
      gidIndex := findRoceV2Gid e.gids
      localInfo := { x.localInfo with qpn := e.qpNum, psn := 0, gid := gid }
      pc := .join }

/-- `qp_to_rts`. -/
def qpToRts (x : Side) : Side :=
  { x with
    attr := some ⟨x.remoteInfo.qpn, x.remoteInfo.psn, x.remoteInfo.gid, x.gidIndex, x.localInfo.psn⟩
    pc := .ready }

/-- Connected: the exchange begins on connection `k`. -/
def begin (pc : Pc) (k : Nat) (x : Side) : Side :=
  { x with pc := pc, fd := k, pos := 0, held := x.held ++ [x.localInfo] }

/-- Where an exchange returns to: that of the queue pair's setup goes on to RTS. -/
def done (x : Side) : Pc := if x.attr.isNone then .toRts else .ready

/-- After `send_all`. -/
def afterSend (x : Side) : Party → Pc
  | .server => .recv
  | .client => x.done

/-- After `recv_all`. -/
def afterRecv (x : Side) : Party → Pc
  | .server => x.done
  | .client => .send

/-- `n` more bytes accepted by `send`. -/
def sendSome (p : Party) (n : Nat) (x : Side) : Side :=
  if x.pos + n = ConnInfo.size then { x with pos := 0, pc := x.afterSend p } else { x with pos := x.pos + n }

/-- The bytes `recv` returned, put at their place. -/
def recvSome (p : Party) (bs : List UInt8) (x : Side) : Side :=
  let x := { x with remote := x.remote.take x.pos ++ bs ++ x.remote.drop (x.pos + bs.length) }
  if x.pos + bs.length = ConnInfo.size then { x with pos := 0, pc := x.afterRecv p }
  else { x with pos := x.pos + bs.length }

/-- The listener on `port` is up: closed when `rai_verbs_listen_qp` returns. -/
def epUp (x : Side) : Bool :=
  x.attr.isNone && (x.pc = .build || x.pc = .join || x.pc = .send || x.pc = .recv)

/-- The listener on `port + 1` is up. -/
def mrUp (x : Side) : Bool := x.pc ≠ .listen && x.pc ≠ .failed

end Side

namespace State

def setSide (p : Party) (x : Side) (s : State) : State := { s with sides := Function.update s.sides p x }

def setStream (k : Nat) (p : Party) (st : Stream) (s : State) : State :=
  { s with conns := Function.update s.conns k (Function.update (s.conns k) p st) }

/-- `accept`: the listener of this exchange gives its oldest connection. -/
def accept (s : State) : Option State :=
  let x := s.sides .server
  if x.attr.isNone then
    match s.ep with
    | [] => none
    | k :: ks => some { s.setSide .server (x.begin .send k) with ep := ks }
  else
    match s.mr with
    | [] => none
    | k :: ks => some { s.setSide .server (x.begin .send k) with mr := ks }

/-- `connect`, to the listener of this exchange. -/
def connect (s : State) : Option State :=
  let x := s.sides .client
  let s' := { s.setSide .client (x.begin .recv s.next) with next := s.next + 1 }
  if x.attr.isNone then if (s.sides .server).epUp then some { s' with ep := s.ep ++ [s.next] } else none
  else if (s.sides .server).mrUp then some { s' with mr := s.mr ++ [s.next] } else none

end State

/-- One step of a side's program. -/
def run (e : Party → Endpoint) (p : Party) (s : State) : Option State :=
  let x := s.sides p
  match x.pc with
  | .listen => some (s.setSide p { x with pc := .build })
  | .build => some (s.setSide p (x.buildQp (e p)))
  | .join =>
    match p with
    | .server => s.accept
    | .client => s.connect
  | .toRts => some (s.setSide p x.qpToRts)
  | .ready => some (s.setSide p { x with pc := .join })
  | .send | .recv | .failed => none

def step (e : Party → Endpoint) : Action → State → Option State
  | .run p, s => run e p s
  | .send p n, s =>
    let x := s.sides p
    if x.pc = .send ∧ 0 < n ∧ x.pos + n ≤ ConnInfo.size then
      let bs := ((x.localInfo.bytes (e p).pad).drop x.pos).take n
      some ((s.setStream x.fd p ((s.conns x.fd p).send bs)).setSide p (x.sendSome p n))
    else none
  | .recv p n, s =>
    let x := s.sides p
    if x.pc = .recv ∧ x.pos + n ≤ ConnInfo.size then
      ((s.conns x.fd p.peer).recv n).map fun (bs, st) =>
        (s.setStream x.fd p.peer st).setSide p (x.recvSome p bs)
    else none
  | .setMr p addr rkey, s =>
    let x := s.sides p
    if x.pc = .ready ∨ (x.pc = .toRts ∧ p = .server) then
      some (s.setSide p { x with localInfo := { x.localInfo with addr := addr, rkey := rkey } })
    else none
  | .fail p, s => if (s.sides p).pc = .failed then none else some (s.setSide p (s.sides p).fail)

/-- The server before `rai_verbs_listen_qp`, the client before
`rai_verbs_connect_qp`, with anything in their structs. -/
structure Init (s : State) : Prop where
  server : (s.sides .server).pc = .listen
  client : (s.sides .client).pc = .build
  side : ∀ p, (s.sides p).attr = none ∧ (s.sides p).held = [] ∧ (s.sides p).remote.length = ConnInfo.size
  net : s.ep = [] ∧ s.mr = [] ∧ s.next = 0 ∧ ∀ k p, s.conns k p = .empty

def system (e : Party → Endpoint) : Lts State Action where
  init := Init
  step := step e

end RdmaInfra.Verbs.Handshake
