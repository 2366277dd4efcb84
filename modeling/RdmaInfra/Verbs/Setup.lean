/-
Connection setup with every call that can fail failing: the CM path
(`rdma_cm_connect.c`), the verbs path (`rdma_verbs_connect.c`), the exchange
over a socket (`rdma_oob_connect.c`) and the teardown (`rdma_qp.c`).

A state holds the variables that name handles, the rest of the `rai_qp_t`, and
what the external calls still to come will answer; a list that has run out
answers failure. A variable is emptied by the release of what it names: the
source leaves some dangling, and reads none of them before it is set again.
-/
import RdmaInfra.Fallible
import RdmaInfra.Slots
import RdmaInfra.Verbs.Oob

namespace RdmaInfra.Verbs.Setup

open Fallible (leave modify read attempt onlyIf)

inductive Mode
  | cm
  | verbs
  deriving DecidableEq, Repr

/-- The variables that name handles: the fields of `rai_qp_t`, `*mr_listen_fd`
and the locals. `qpObj` is the queue pair through its owner, `cm_id->qp` in CM
mode and `qp->qp` in VERBS mode; `request` and `event` are CM events. -/
inductive Slot
  | ctx
  | pd
  | cq
  | qpObj
  | cmId
  | ec
  | mrListenFd
  | listenId
  | connId
  | request
  | event
  | epFd
  | fd
  | connFd
  | deviceList
  | tmp
  deriving DecidableEq, Repr

/-- What a handle is made from. The context of a PD and a CQ is that of the
`cm_id` or the opened device; a CM event belongs to its id until it is acked. -/
def dep : Slot → List Slot
  | .pd | .cq => [.cmId, .ctx]
  | .qpObj => [.cmId, .pd, .cq]
  | .cmId | .listenId | .connId => [.ec]
  | .request => [.ec, .listenId]
  | .event => [.ec, .cmId]
  | .ctx | .ec | .mrListenFd | .epFd | .fd | .connFd | .deviceList | .tmp => []

/-- The fields of `rai_qp_t` that hold no handle of their own. -/
structure QpFields where
  mode : Mode
  qp : Option Nat
  portNum : Int
  gidIndex : Int
  maxInline : UInt32
  loc : ConnInfo
  rem : ConnInfo
  deriving DecidableEq

def QpFields.zero : QpFields := ⟨.cm, none, 0, 0, 0, .zero, .zero⟩

structure State where
  slot : Slot → Option Nat
  os : Handles
  qp : QpFields
  answers : List Bool

/-- The values that successful calls give: the inline size granted, the GID
index found (negative for none), the queue pair's number, its GID, and what the
peer sent. -/
structure Env where
  maxInline : UInt32
  gidIndex : Int
  qpn : UInt32
  gid : Gid
  remote : ConnInfo

/-! ## External calls -/

/-- The answer of a call. -/
def ask : Fallible State Bool := fun s =>
  match s.answers with
  | [] => (some false, s)
  | b :: bs => (some b, { s with answers := bs })

/-- A call that must succeed. -/
def require : Fallible State Unit := do
  let ok ← ask
  if ok then pure () else leave

def grant (k : Slot) : Fallible State Unit := modify fun s =>
  { s with slot := Function.update s.slot k (some s.os.next), os := s.os.acquire (Slots.made dep s.slot k) }

/-- A call that gives a handle. -/
def acquire (k : Slot) : Fallible State Unit := do
  require
  grant k

/-- A release, where the variable is not null. -/
def release (k : Slot) : Fallible State Unit := modify fun s =>
  match s.slot k with
  | some i => { s with slot := Function.update s.slot k none, os := s.os.release i }
  | none => s

def move (k k' : Slot) : Fallible State Unit := modify fun s =>
  { s with slot := Function.update (Function.update s.slot k none) k' (s.slot k) }

/-- A call that must succeed, or the handle in `k` is given back. -/
def requireOr (k : Slot) : Fallible State Unit := do
  let ok ← ask
  if ok then pure () else do
    release k
    leave

/-! ## Teardown -/

def qpDestroyCm : Fallible State Unit := do
  let id ← read fun s => (s.slot .cmId).isSome
  onlyIf id (release .qpObj)
  release .cq
  release .pd
  release .cmId
  release .ec

def qpDestroyVerbs : Fallible State Unit := do
  let qp ← read fun s => s.qp.qp.isSome
  onlyIf qp (release .qpObj)
  release .cq
  release .pd
  release .ctx

/-- The handle fields of `rai_qp_t`. -/
def qpSlots : List Slot := [.ctx, .pd, .cq, .qpObj, .cmId, .ec]

def memsetQp : Fallible State Unit := modify fun s =>
  { s with slot := fun k => if k ∈ qpSlots then none else s.slot k, qp := .zero }

def qpDestroy : Fallible State Unit := do
  let verbs ← read fun s => s.qp.mode == .verbs
  if verbs then do
    qpDestroyVerbs
    memsetQp
  else do
    qpDestroyCm
    memsetQp

/-! ## The exchange over a socket -/

/-- `rai_oob_listen`: `socket`, `bind`, `listen`. -/
def oobListen (k : Slot) : Fallible State Unit := do
  acquire .fd
  requireOr .fd
  requireOr .fd
  move .fd k

/-- `recv_all` into `qp->remote`, which it may leave half written. -/
def recvRemote (env : Env) : Fallible State Unit := modify fun s => { s with qp := { s.qp with rem := env.remote } }

/-- `rai_oob_accept`: `accept`, `send_all`, `recv_all`. -/
def oobAccept (env : Env) : Fallible State Unit := do
  acquire .connFd
  requireOr .connFd
  recvRemote env
  requireOr .connFd
  release .connFd

/-- `rai_oob_connect` up to `out`: the address, `socket`, `connect`, `recv_all`,
`send_all`. -/
def oobConnectBody (env : Env) : Fallible State Unit := do
  require
  acquire .connFd
  require
  recvRemote env
  require
  require

def oobConnect (env : Env) : Fallible State Unit := do
  let ok ← attempt (oobConnectBody env)
  release .connFd
  if ok then pure () else leave

/-! ## The CM path -/

def setMode (mode : Mode) : Fallible State Unit := modify fun s => { s with qp := { s.qp with mode } }

/-- `qp->qp` and what the driver granted. -/
def setQp (env : Env) : Fallible State Unit := modify fun s =>
  { s with qp := { s.qp with qp := s.slot .qpObj, maxInline := env.maxInline } }

def createQp (env : Env) : Fallible State Unit := do
  acquire .qpObj
  setQp env

def buildQpFromCm (env : Env) : Fallible State Unit := do
  acquire .pd
  acquire .cq
  createQp env

/-- `cm_wait_event`: an event, which must be the expected one. -/
def cmWaitEvent (k : Slot) : Fallible State Unit := do
  acquire k
  requireOr k

/-- `rai_cm_listen_qp` up to `out`: the event channel, the id, `rdma_bind_addr`,
`rdma_listen`, and the request, which comes with an id of its own. `mr` is
whether `mr_listen_fd` is not null. -/
def cmListenBody (env : Env) (mr : Bool) : Fallible State Unit := do
  setMode .cm
  acquire .ec
  acquire .listenId
  require
  require
  cmWaitEvent .request
  grant .connId
  move .connId .cmId
  release .request
  buildQpFromCm env
  onlyIf mr (oobListen .mrListenFd)

def cmListenQp (env : Env) (mr : Bool) : Fallible State Int := do
  let ok ← attempt (cmListenBody env mr)
  release .listenId
  if ok then pure 0 else do
    qpDestroy
    pure (-1)

/-- `rai_cm_accept_qp`: `rdma_accept`, the RNR timer (whose failure is ignored)
and the wait for the connection. -/
def cmAcceptBody : Fallible State Unit := do
  require
  let _ ← ask
  cmWaitEvent .event
  release .event

def cmAcceptQp : Fallible State Int := do
  let ok ← attempt cmAcceptBody
  pure (if ok then 0 else -1)

/-- `rai_cm_connect_qp` up to `out`: the event channel, the id, the address,
`rdma_resolve_addr`, `rdma_resolve_route`, the queue pair, `rdma_connect`. -/
def cmConnectBody (env : Env) : Fallible State Unit := do
  setMode .cm
  acquire .ec
  acquire .cmId
  require
  require
  cmWaitEvent .event
  release .event
  require
  cmWaitEvent .event
  release .event
  buildQpFromCm env
  require
  cmWaitEvent .event
  release .event

def cmConnectQp (env : Env) : Fallible State Int := do
  let ok ← attempt (cmConnectBody env)
  if ok then pure 0 else do
    qpDestroy
    pure (-1)

/-! ## The verbs path -/

/-- A device of the list: whether it has the name `RDMA_DEVICE` asks for, and
whether its node GUID is zero. -/
structure Device where
  named : Bool
  guidZero : Bool
  deriving DecidableEq, Repr

/-- Whether to pass over an opened device: without `RDMA_DEVICE`, one that can
be queried and has a zero GUID. -/
def placeholder (want : Bool) (d : Device) : Fallible State Bool :=
  if want then pure false else do
    let queried ← ask
    pure (queried && d.guidZero)

/-- The loop of `open_device`. -/
def scanDevices (want : Bool) : List Device → Fallible State Unit
  | [] => pure ()
  | d :: ds =>
    if want && !d.named then scanDevices want ds
    else do
      let opened ← attempt (acquire .tmp)
      if opened then do
        let skip ← placeholder want d
        if skip then do
          release .tmp
          scanDevices want ds
        else move .tmp .ctx
      else scanDevices want ds

def openDevice (want : Bool) (ds : List Device) : Fallible State Unit := do
  acquire .deviceList
  scanDevices want ds
  release .deviceList
  let found ← read fun s => (s.slot .ctx).isSome
  if found then pure () else leave

def setPort (env : Env) : Fallible State Unit := modify fun s =>
  { s with qp := { s.qp with portNum := if s.qp.portNum = 0 then 1 else s.qp.portNum, gidIndex := env.gidIndex } }

def setLocal (env : Env) : Fallible State Unit := modify fun s =>
  { s with qp := { s.qp with loc := { s.qp.loc with qpn := env.qpn, psn := 0 } } }

def setGid (env : Env) : Fallible State Unit := modify fun s =>
  { s with qp := { s.qp with loc := { s.qp.loc with gid := env.gid } } }

/-- `build_qp_verbs`: the device, the GID, the PD, the CQ, the queue pair,
`ibv_query_gid`, INIT. -/
def buildQpVerbs (env : Env) (want : Bool) (ds : List Device) : Fallible State Unit := do
  openDevice want ds
  setPort env
  onlyIf (env.gidIndex < 0) leave
  acquire .pd
  acquire .cq
  createQp env
  setLocal env
  require
  setGid env
  require

/-- `qp_to_rts`: `ibv_query_port`, RTR, RTS. -/
def qpToRts : Fallible State Unit := do
  let qp ← read fun s => s.qp.qp.isSome
  onlyIf (!qp) leave
  require
  require
  require

def clearMr : Fallible State Unit := modify fun s => { s with slot := Function.update s.slot .mrListenFd none }

def verbsListenBody (env : Env) (want : Bool) (ds : List Device) (mr : Bool) : Fallible State Unit := do
  setMode .verbs
  onlyIf mr clearMr
  oobListen .epFd
  onlyIf mr (oobListen .mrListenFd)
  buildQpVerbs env want ds
  oobAccept env

def verbsListenQp (env : Env) (want : Bool) (ds : List Device) (mr : Bool) : Fallible State Int := do
  let ok ← attempt (verbsListenBody env want ds mr)
  release .epFd
  if ok then pure 0 else do
    onlyIf mr (release .mrListenFd)
    qpDestroy
    pure (-1)

def verbsConnectBody (env : Env) (want : Bool) (ds : List Device) : Fallible State Unit := do
  setMode .verbs
  buildQpVerbs env want ds
  oobConnect env
  qpToRts

def verbsConnectQp (env : Env) (want : Bool) (ds : List Device) : Fallible State Int := do
  let ok ← attempt (verbsConnectBody env want ds)
  if ok then pure 0 else do
    qpDestroy
    pure (-1)

/-! ## The four calls -/

inductive Call
  | cmListen (mr : Bool)
  | cmConnect
  | verbsListen (mr want : Bool) (devices : List Device)
  | verbsConnect (want : Bool) (devices : List Device)

def call (env : Env) : Call → Fallible State Int
  | .cmListen mr => cmListenQp env mr
  | .cmConnect => cmConnectQp env
  | .verbsListen mr want ds => verbsListenQp env want ds mr
  | .verbsConnect want ds => verbsConnectQp env want ds

def Call.mode : Call → Mode
  | .cmListen _ | .cmConnect => .cm
  | .verbsListen _ _ _ | .verbsConnect _ _ => .verbs

end RdmaInfra.Verbs.Setup
