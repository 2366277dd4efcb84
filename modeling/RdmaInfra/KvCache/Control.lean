/-
The control connection of the KV cache: `kv_bench`'s calls against
`kv_server`'s `handshake_meta` and `serve`, down to the bytes.

Requests and replies have no length and no tag on the wire. Each side keeps one
`CtrlBuf`, which it encodes into, sends from and receives into, so a message
leaves bytes of earlier ones behind it. `send_async` and `recv_async` are the
loops of `send_all` and `recv_all` over the TCP connection: `send` and `recv`
move any positive number of bytes, and `poll` does nothing.

A call of the client that fails, or a server that returns -1, ends that side.
The logs beside the programs' own state are what the statements compare.
-/
import RdmaInfra.Lts
import RdmaInfra.Transit
import RdmaInfra.Transport.Tcp
import RdmaInfra.KvCache.Server
import RdmaInfra.KvCache.Slab

namespace RdmaInfra.KvCache

open Transport
open Verbs (Party)

def KV_MSG_META : Int := 2

/-! ## The union -/

/-- The image of a `CtrlBuf`: `int msg[2]` over `KVMeta meta`. -/
abbrev CtrlBuf := List UInt8

namespace CtrlBuf

def sizeofInt : Nat := 4

def sizeofMsg : Nat := 8

def sizeofMeta : Nat := 16

/-- `sizeof(CtrlBuf)`. -/
def size : Nat := 16

/-- `ctrl_buf.msg[k]`. -/
def msg (b : CtrlBuf) (k : Nat) : Int := intOfBytes (field b (k * sizeofInt) sizeofInt)

/-- `ctrl_buf.msg[k] = v`. -/
def setMsg (k : Nat) (v : Int) (b : CtrlBuf) : CtrlBuf := put b (k * sizeofInt) (intBytes v)

/-- The two stores to `ctrl_buf.meta`; its padding keeps what is there. -/
def setMeta (m : KVMeta) (b : CtrlBuf) : CtrlBuf := put (put b 0 (intBytes m.numSlots)) 8 (leBytes 8 m.slotSize)

end CtrlBuf

/-! ## The client -/

inductive Call
  | handshakeMeta
  | kvAlloc
  | kvFree (slotIdx : Int)
  deriving DecidableEq, Repr

/-- What a reply says: the pool's shape, or an `int`. -/
inductive Reply
  | shape (m : KVMeta)
  | int (i : Int)
  deriving DecidableEq, Repr

namespace Call

/-- The stores a call makes before it sends. -/
def encode : Call → CtrlBuf → CtrlBuf
  | handshakeMeta, b => b.setMsg 0 KV_MSG_META
  | kvAlloc, b => (b.setMsg 0 KV_MSG_ALLOC).setMsg 1 0
  | kvFree slotIdx, b => (b.setMsg 0 KV_MSG_FREE).setMsg 1 slotIdx

/-- The length a call sends. -/
def sendLen : Call → Nat
  | handshakeMeta => CtrlBuf.sizeofInt
  | kvAlloc | kvFree _ => CtrlBuf.sizeofMsg

/-- The length a call receives. -/
def recvLen : Call → Nat
  | handshakeMeta => CtrlBuf.sizeofMeta
  | kvAlloc | kvFree _ => CtrlBuf.sizeofInt

/-- What a call makes of the reply, or `none` where it returns -1. -/
def decode : Call → CtrlBuf → Option Reply
  | handshakeMeta, b => some (.shape (.ofBytes b))
  | kvAlloc, b => some (.int (b.msg 0))
  | kvFree _, b => if b.msg 0 ≠ 0 then none else some (.int (b.msg 0))

/-- The request a call encodes for `serve`. -/
def request : Call → Option Msg
  | handshakeMeta => none
  | kvAlloc => some ⟨KV_MSG_ALLOC, 0⟩
  | kvFree slotIdx => some ⟨KV_MSG_FREE, slotIdx⟩

end Call

inductive ClientPc
  | idle
  | send (c : Call)
  | recv (c : Call)
  | failed
  deriving DecidableEq, Repr

/-- `sent` and `received` are the messages of the transfers begun and of those
ended, `made` the calls begun and `results` what those that returned 0 decoded. -/
structure Client where
  todo : List Call
  pc : ClientPc
  io : Cursor UInt8
  made : List Call
  sent : List (List UInt8)
  received : List (List UInt8)
  results : List Reply
  deriving DecidableEq, Repr

namespace Client

def fail (x : Client) : Client := { x with pc := .failed }

/-- The next step of the client's program, outside of `send_all` and `recv_all`. -/
def run (x : Client) : Option Client :=
  match x.pc with
  | .idle =>
    match x.todo with
    | [] => none
    | c :: todo =>
      let buf := c.encode x.io.buf
      if Tcp.inBounds CtrlBuf.size c.sendLen 0 then
        some { x with
          todo := todo, pc := .send c, io := ⟨0, buf⟩, made := x.made ++ [c], sent := x.sent ++ [buf.take c.sendLen] }
      else some x.fail
  | .recv c =>
    if x.io.pos < c.recvLen then none
    else
      match c.decode x.io.buf with
      | none => some x.fail
      | some r =>
        some { x with
          pc := .idle, io := x.io.rewind, received := x.received ++ [x.io.buf.take c.recvLen],
          results := x.results ++ [r] }
  | .send _ | .failed => none

/-- `send_all` returns once all bytes are sent, and the reply is awaited. -/
def afterSend (x : Client) : Client :=
  match x.pc with
  | .send c =>
    if x.io.pos < c.sendLen then x
    else if Tcp.inBounds CtrlBuf.size c.recvLen 0 then { x with pc := .recv c, io := x.io.rewind }
    else x.fail
  | .idle | .recv _ | .failed => x

/-- The length of the `send_all` the client is in. -/
def sending (x : Client) : Option Nat :=
  match x.pc with
  | .send c => some c.sendLen
  | .idle | .recv _ | .failed => none

/-- The length of the `recv_all` the client is in. -/
def receiving (x : Client) : Option Nat :=
  match x.pc with
  | .recv c => some c.recvLen
  | .idle | .send _ | .failed => none

end Client

/-! ## The server -/

/-- `recvMeta` and `sendMeta` are in `handshake_meta`, `recvMsg` and `sendInt`
in `serve`. -/
inductive ServerPc
  | recvMeta
  | sendMeta
  | recvMsg
  | sendInt
  | failed
  deriving DecidableEq, Repr

/-- `core` is the pool with the requests dispatched and their replies, `replies`
all that was encoded, the shape included. -/
structure ServerSide where
  pc : ServerPc
  io : Cursor UInt8
  core : Server
  sent : List (List UInt8)
  received : List (List UInt8)
  replies : List Reply
  deriving DecidableEq, Repr

namespace ServerSide

def fail (x : ServerSide) : ServerSide := { x with pc := .failed }

/-- A request of `len` bytes is in; the reply `r` of `n` bytes is in `buf`. -/
def answer (pc : ServerPc) (len n : Nat) (buf : CtrlBuf) (r : Reply) (x : ServerSide) : ServerSide :=
  { x with
    pc := pc, io := ⟨0, buf⟩, received := x.received ++ [x.io.buf.take len], sent := x.sent ++ [buf.take n],
    replies := x.replies ++ [r] }

/-- The next step of the server's program, with slots of `slotSize` bytes,
outside of `send_all` and `recv_all`. -/
def run (slotSize : Nat) (x : ServerSide) : Option ServerSide :=
  match x.pc with
  | .recvMeta =>
    if x.io.pos < CtrlBuf.sizeofInt then none
    else if CtrlBuf.msg x.io.buf 0 ≠ KV_MSG_META then some x.fail
    else
      let shape : KVMeta := ⟨x.core.pool.numSlots, slotSize⟩
      if Tcp.inBounds CtrlBuf.size CtrlBuf.sizeofMeta 0 then
        some (x.answer .sendMeta CtrlBuf.sizeofInt CtrlBuf.sizeofMeta (CtrlBuf.setMeta shape x.io.buf) (.shape shape))
      else some x.fail
  | .recvMsg =>
    if x.io.pos < CtrlBuf.sizeofMsg then none
    else
      let m : Msg := ⟨CtrlBuf.msg x.io.buf 0, CtrlBuf.msg x.io.buf 1⟩
      match handle x.core.pool m with
      | .error _ => some x.fail
      | .ok (pool, reply) =>
        if Tcp.inBounds CtrlBuf.size CtrlBuf.sizeofInt 0 then
          some { x.answer .sendInt CtrlBuf.sizeofMsg CtrlBuf.sizeofInt (CtrlBuf.setMsg 0 reply x.io.buf) (.int reply) with
            core := ⟨pool, (m, reply) :: x.core.log⟩ }
        else some x.fail
  | .sendMeta | .sendInt | .failed => none

/-- The length of the `send_all` the server is in. -/
def sending (x : ServerSide) : Option Nat :=
  match x.pc with
  | .sendMeta => some CtrlBuf.sizeofMeta
  | .sendInt => some CtrlBuf.sizeofInt
  | .recvMeta | .recvMsg | .failed => none

/-- `send_all` returns once all bytes are sent, and the next request is awaited. -/
def afterSend (x : ServerSide) : ServerSide :=
  match x.sending with
  | some len =>
    if x.io.pos < len then x
    else if Tcp.inBounds CtrlBuf.size CtrlBuf.sizeofMsg 0 then { x with pc := .recvMsg, io := x.io.rewind }
    else x.fail
  | none => x

/-- The length of the `recv_all` the server is in. -/
def receiving (x : ServerSide) : Option Nat :=
  match x.pc with
  | .recvMeta => some CtrlBuf.sizeofInt
  | .recvMsg => some CtrlBuf.sizeofMsg
  | .sendMeta | .sendInt | .failed => none

/-- The requests `serve` has dispatched on, oldest first. -/
def dispatched (x : ServerSide) : List Msg := x.core.log.reverse.map Prod.fst

end ServerSide

/-! ## The connection -/

/-- Both programs, and the bytes sent and not yet received each way. -/
structure Control where
  client : Client
  server : ServerSide
  toServer : List UInt8
  toClient : List UInt8
  deriving DecidableEq, Repr

inductive ControlAction
  | run (p : Party)
  | send (p : Party) (n : Nat)
  | recv (p : Party) (n : Nat)
  deriving DecidableEq, Repr

namespace Control

def step (slotSize : Nat) : ControlAction → Control → Option Control
  | .run .client, s => s.client.run.map fun x => { s with client := x }
  | .run .server, s => (s.server.run slotSize).map fun x => { s with server := x }
  | .send .client n, s =>
    s.client.sending.bind fun len => (s.client.io.sendSome len n).map fun (io, bs) =>
      { s with client := { s.client with io := io }.afterSend, toServer := s.toServer ++ bs }
  | .send .server n, s =>
    s.server.sending.bind fun len => (s.server.io.sendSome len n).map fun (io, bs) =>
      { s with server := { s.server with io := io }.afterSend, toClient := s.toClient ++ bs }
  | .recv .client n, s =>
    s.client.receiving.bind fun len => (s.client.io.recvSome len n s.toClient).map fun (io, stream) =>
      { s with client := { s.client with io := io }, toClient := stream }
  | .recv .server n, s =>
    s.server.receiving.bind fun len => (s.server.io.recvSome len n s.toServer).map fun (io, stream) =>
      { s with server := { s.server with io := io }, toServer := stream }

/-- Both sides connected, with anything in their `CtrlBuf`s. -/
def start (pool : KVPool) (calls : List Call) (clientBuf serverBuf : CtrlBuf) : Control where
  client := ⟨calls, .idle, ⟨0, clientBuf⟩, [], [], [], []⟩
  server := ⟨.recvMeta, ⟨0, serverBuf⟩, ⟨pool, []⟩, [], [], []⟩
  toServer := []
  toClient := []

/-- The connection of a client that makes `calls`. -/
def system (pool : KVPool) (slotSize : Nat) (calls : List Call) (clientBuf serverBuf : CtrlBuf) :
    Lts Control ControlAction where
  init s := s = start pool calls clientBuf serverBuf
  step := step slotSize

end Control

end RdmaInfra.KvCache
