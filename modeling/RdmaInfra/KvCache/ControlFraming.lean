/-
The control connection never loses framing.

The two programs are always in the same call, at most half of it apart: the
request is on its way, or the reply is, or neither (`Phase`). What each message
is comes from the encoder alone, whatever an earlier message left in the union
(`sends_encode`, `take_setMsg`, `setMeta_eq`), and what the other side makes of
it from its bytes alone.
-/
import RdmaInfra.KvCache.Control

namespace RdmaInfra.KvCache

open Verbs (Party)

/-! ## What the messages are -/

/-- The message a call sends. -/
def Call.bytes : Call → List UInt8
  | handshakeMeta => intBytes KV_MSG_META
  | kvAlloc => intBytes KV_MSG_ALLOC ++ intBytes 0
  | kvFree slotIdx => intBytes KV_MSG_FREE ++ intBytes slotIdx

theorem Call.length_bytes (c : Call) : c.bytes.length = c.sendLen := by
  cases c <;> simp [Call.bytes, Call.sendLen, CtrlBuf.sizeofInt, CtrlBuf.sizeofMsg]

namespace CtrlBuf

variable {b : CtrlBuf}

theorem length_setMsg {k : Nat} {v : Int} (h : k * 4 + 4 ≤ b.length) : (setMsg k v b).length = b.length :=
  length_put (by simpa [sizeofInt] using h)

theorem length_setMeta {m : KVMeta} (h : b.length = size) : (setMeta m b).length = size := by
  have h1 : (put b 0 (intBytes m.numSlots)).length = size := by
    rw [length_put (by simp [h, size]), h]
  rw [setMeta, length_put (by simp [h1, size]), h1]

theorem take_setMsg {v : Int} : (setMsg 0 v b).take 4 = intBytes v := by
  have h := take_put b (intBytes v) (Nat.zero_le _)
  simpa [setMsg] using h

theorem take_setMsg_setMsg {v w : Int} (h : 8 ≤ b.length) :
    ((b.setMsg 0 v).setMsg 1 w).take 8 = intBytes v ++ intBytes w := by
  have hlen : (b.setMsg 0 v).length = b.length := length_setMsg (by omega)
  have ht := take_put (b.setMsg 0 v) (intBytes w) (show 4 ≤ _ by omega)
  rw [take_setMsg, length_intBytes] at ht
  exact ht

theorem setMeta_eq {m : KVMeta} (h : b.length = size) : setMeta m b = m.bytes (field b 4 4) := by
  have h1 : put b 0 (intBytes m.numSlots) = intBytes m.numSlots ++ b.drop 4 := by simp [put]
  have h2 : (b.drop 4).length = 12 := by rw [List.length_drop, h]; rfl
  have h3 : ((intBytes m.numSlots ++ b.drop 4).drop (8 + 8)) = [] := by
    apply List.drop_eq_nil_of_le
    rw [List.length_append, length_intBytes, h2]
  have h4 : (intBytes m.numSlots ++ b.drop 4).take 8 = intBytes m.numSlots ++ field b 4 4 := by
    rw [show 8 = (intBytes m.numSlots).length + 4 from rfl, List.take_length_add_append]
    rfl
  rw [setMeta, h1, put, length_leBytes, h3, h4, List.append_nil]
  rfl

/-- A message of two `int`s is read back. -/
theorem msg_of_take {v w : Int} (hv : IsInt v) (hw : IsInt w) (h : b.take 8 = intBytes v ++ intBytes w) :
    b.msg 0 = v ∧ b.msg 1 = w := by
  have h0 : field b 0 4 = intBytes v := by
    rw [← field_take (n := 8) (by omega), h]
    exact field_append (a := []) rfl (length_intBytes v)
  have h1 : field b 4 4 = intBytes w := by
    rw [← field_take (n := 8) (by omega), h, ← List.append_nil (intBytes w)]
    exact field_append (length_intBytes v) (length_intBytes w)
  simp only [msg, sizeofInt, Nat.zero_mul, Nat.one_mul, h0, h1, intOfBytes_intBytes hv, intOfBytes_intBytes hw,
    and_self]

theorem msg_zero_of_take {v : Int} (hv : IsInt v) (h : b.take 4 = intBytes v) : b.msg 0 = v := by
  have h0 : field b 0 4 = intBytes v := h
  simp only [msg, sizeofInt, Nat.zero_mul, h0, intOfBytes_intBytes hv]

end CtrlBuf

/-- The call encodes its message, whatever the union held. -/
theorem sends_encode (c : Call) {b : CtrlBuf} (h : b.length = CtrlBuf.size) :
    (c.encode b).take c.sendLen = c.bytes ∧ (c.encode b).length = CtrlBuf.size := by
  have h8 : 8 ≤ b.length := by rw [h]; decide
  cases c with
  | handshakeMeta => exact ⟨CtrlBuf.take_setMsg, by rw [Call.encode, CtrlBuf.length_setMsg (by omega), h]⟩
  | kvAlloc | kvFree i =>
    refine ⟨CtrlBuf.take_setMsg_setMsg h8, ?_⟩
    rw [Call.encode, CtrlBuf.length_setMsg (by rw [CtrlBuf.length_setMsg (by omega)]; omega),
      CtrlBuf.length_setMsg (by omega), h]

/-! ## Where the two programs are -/

/-- A request `serve` answers. -/
def Call.InRange (numSlots : Int) : Call → Prop
  | handshakeMeta => False
  | kvAlloc => True
  | kvFree slotIdx => 0 ≤ slotIdx ∧ slotIdx < numSlots

def Call.awaiting : Call → ServerPc
  | handshakeMeta => .recvMeta
  | kvAlloc | kvFree _ => .recvMsg

def Call.answering : Call → ServerPc
  | handshakeMeta => .sendMeta
  | kvAlloc | kvFree _ => .sendInt

/-- Between two calls. -/
structure Idle (s : Control) : Prop where
  client : s.client.pc = .idle
  server : s.server.pc = if s.client.made = [] then .recvMeta else .recvMsg
  pos : s.server.io.pos = 0
  toServer : s.toServer = []
  toClient : s.toClient = []
  sent : s.client.sent = s.server.received
  received : s.client.received = s.server.sent
  results : s.client.results = s.server.replies
  requests : s.client.made.filterMap Call.request = s.server.dispatched

/-- The request of `c`, made after the calls `prior`, is on its way with `k` bytes
sent. -/
structure Requesting (s : Control) (c : Call) (k : Nat) (prior : List Call) : Prop where
  client : s.client.pc = .send c ∧ s.client.io.pos = k ∧ k < c.sendLen ∧ Sends c.bytes s.client.io ∨
    s.client.pc = .recv c ∧ s.client.io.pos = 0 ∧ k = c.sendLen
  server : s.server.pc = c.awaiting
  transit : InTransit c.bytes k s.server.io s.toServer
  toClient : s.toClient = []
  made : s.client.made = prior ++ [c]
  sent : s.client.sent = s.server.received ++ [c.bytes]
  received : s.client.received = s.server.sent
  results : s.client.results = s.server.replies
  requests : prior.filterMap Call.request = s.server.dispatched

/-- The reply `p` to `c`, which says `r`, is on its way with `k` bytes sent. -/
structure Replying (s : Control) (c : Call) (k : Nat) (p : List UInt8) (r : Reply) : Prop where
  client : s.client.pc = .recv c
  server : s.server.pc = c.answering ∧ s.server.io.pos = k ∧ k < p.length ∧ Sends p s.server.io ∨
    s.server.pc = .recvMsg ∧ s.server.io.pos = 0 ∧ k = p.length
  length : p.length = c.recvLen
  decode : ∀ b : CtrlBuf, b.length = CtrlBuf.size → b.take p.length = p → c.decode b = some r
  transit : InTransit p k s.client.io s.toClient
  toServer : s.toServer = []
  made : s.client.made ≠ []
  sent : s.client.sent = s.server.received
  received : s.server.sent = s.client.received ++ [p]
  results : s.server.replies = s.client.results ++ [r]
  requests : s.client.made.filterMap Call.request = s.server.dispatched

inductive Phase (s : Control) : Prop
  | idle (h : Idle s)
  | requesting (c : Call) (k : Nat) (prior : List Call) (h : Requesting s c k prior)
  | replying (c : Call) (k : Nat) (p : List UInt8) (r : Reply) (h : Replying s c k p r)

/-- What holds throughout. -/
structure Base (pool : KVPool) (slotSize : Nat) (calls : List Call) (s : Control) : Prop where
  clientBuf : s.client.io.buf.length = CtrlBuf.size
  serverBuf : s.server.io.buf.length = CtrlBuf.size
  calls : s.client.made ++ s.client.todo = calls
  numSlots : s.server.core.pool.numSlots = pool.numSlots
  free : ∀ i ∈ s.server.core.pool.freeList, IsInt i
  served : serve ⟨pool, []⟩ s.server.dispatched = (s.server.core, none)
  fresh : s.server.pc = .recvMeta → s.server.core.log = [] ∧ s.server.replies = []
  replies : s.server.pc ≠ .recvMeta →
    s.server.replies = .shape ⟨pool.numSlots, slotSize⟩ :: s.server.core.log.reverse.map fun e => .int e.2

structure ControlInv (pool : KVPool) (slotSize : Nat) (calls : List Call) (s : Control) : Prop where
  base : Base pool slotSize calls s
  phase : Phase s

section Steps

variable {pool : KVPool} {slotSize : Nat} {rest calls : List Call} {s s' : Control}

/-- A step of the client that keeps its calls. -/
theorem Base.client (hb : Base pool slotSize calls s) {x : Client} {out inp : List UInt8}
    (hbuf : x.io.buf.length = CtrlBuf.size) (hcalls : x.made ++ x.todo = calls) :
    Base pool slotSize calls { s with client := x, toServer := out, toClient := inp } :=
  ⟨hbuf, hb.serverBuf, hcalls, hb.numSlots, hb.free, hb.served, hb.fresh, hb.replies⟩

/-- Bytes move at the server. -/
theorem Base.server (hb : Base pool slotSize calls s) {io : Cursor UInt8} {out inp : List UInt8}
    (hbuf : io.buf.length = CtrlBuf.size) :
    Base pool slotSize calls { s with server := { s.server with io }, toServer := inp, toClient := out } :=
  ⟨hb.clientBuf, hbuf, hb.calls, hb.numSlots, hb.free, hb.served, hb.fresh, hb.replies⟩

/-- The first call is the handshake, and no other is. -/
theorem call_cases {made todo : List Call} {c : Call} (hc : ∀ c ∈ rest, c.InRange pool.numSlots)
    (h : made ++ c :: todo = .handshakeMeta :: rest) :
    made = [] ∧ c = .handshakeMeta ∨ made ≠ [] ∧ c.InRange pool.numSlots := by
  cases made with
  | nil => exact .inl ⟨rfl, (List.cons.inj h).1⟩
  | cons d made =>
    right
    obtain ⟨-, hr⟩ := List.cons.inj h
    exact ⟨List.cons_ne_nil _ _, hc c (hr ▸ List.mem_append_right _ List.mem_cons_self)⟩

theorem awaiting_of_call {made todo : List Call} {c : Call} (hc : ∀ c ∈ rest, c.InRange pool.numSlots)
    (h : made ++ c :: todo = .handshakeMeta :: rest) :
    c.awaiting = if made = [] then .recvMeta else .recvMsg := by
  rcases call_cases hc h with ⟨rfl, rfl⟩ | ⟨hm, hr⟩
  · rfl
  · rw [if_neg hm]
    cases c with
    | handshakeMeta => exact hr.elim
    | kvAlloc | kvFree i => rfl

theorem sendLen_inBounds (c : Call) : Transport.Tcp.inBounds CtrlBuf.size c.sendLen 0 = true := by
  cases c <;> rfl

theorem recvLen_inBounds (c : Call) : Transport.Tcp.inBounds CtrlBuf.size c.recvLen 0 = true := by
  cases c <;> rfl

theorem sendLen_bounds (c : Call) : 0 < c.sendLen ∧ c.sendLen ≤ CtrlBuf.size := by
  cases c <;> simp [Call.sendLen, CtrlBuf.sizeofInt, CtrlBuf.sizeofMsg, CtrlBuf.size]

theorem recvLen_bounds (c : Call) : 0 < c.recvLen ∧ c.recvLen ≤ CtrlBuf.size := by
  cases c <;> simp [Call.recvLen, CtrlBuf.sizeofInt, CtrlBuf.sizeofMeta, CtrlBuf.size]

/-- A call begins. -/
theorem Idle.call (h : Idle s) (hb : Base pool slotSize (.handshakeMeta :: rest) s)
    (hc : ∀ c ∈ rest, c.InRange pool.numSlots) {x : Client} (hr : s.client.run = some x) :
    ControlInv pool slotSize (.handshakeMeta :: rest) { s with client := x } := by
  simp only [Client.run, h.client] at hr
  split at hr
  · cases hr
  next c todo ht =>
  rw [if_pos (sendLen_inBounds c)] at hr
  cases hr
  have hcalls := hb.calls
  rw [ht] at hcalls
  obtain ⟨htake, hlen⟩ := sends_encode c hb.clientBuf
  refine ⟨hb.client hlen (by rw [← hcalls, List.append_assoc]; rfl), .requesting c 0 s.client.made
    ⟨.inl ⟨rfl, rfl, (sendLen_bounds c).1, ?_⟩, ?_, ?_, h.toClient, rfl, ?_, h.received, h.results, h.requests⟩⟩
  · rw [Sends, c.length_bytes]
    exact htake
  · rw [h.server, awaiting_of_call hc hcalls]
  · rw [h.toServer]
    exact .start h.pos (by rw [c.length_bytes, hb.serverBuf]; exact (sendLen_bounds c).2)
  · simp only [htake, h.sent]

/-! ### Bytes move -/

theorem step_send_client {n : Nat} (h : Control.step slotSize (.send .client n) s = some s') :
    ∃ c io bs, s.client.pc = .send c ∧ s.client.io.sendSome c.sendLen n = some (io, bs) ∧
      s' = { s with client := { s.client with io := io }.afterSend, toServer := s.toServer ++ bs } := by
  obtain ⟨len, hlen, h⟩ := Option.bind_eq_some_iff.mp h
  obtain ⟨⟨io, bs⟩, hio, rfl⟩ := Option.map_eq_some_iff.mp h
  simp only [Client.sending] at hlen
  split at hlen
  next c hc =>
    cases hlen
    exact ⟨c, io, bs, hc, hio, rfl⟩
  all_goals cases hlen

theorem step_recv_client {n : Nat} (h : Control.step slotSize (.recv .client n) s = some s') :
    ∃ c io stream, s.client.pc = .recv c ∧ s.client.io.recvSome c.recvLen n s.toClient = some (io, stream) ∧
      s' = { s with client := { s.client with io := io }, toClient := stream } := by
  obtain ⟨len, hlen, h⟩ := Option.bind_eq_some_iff.mp h
  obtain ⟨⟨io, stream⟩, hio, rfl⟩ := Option.map_eq_some_iff.mp h
  simp only [Client.receiving] at hlen
  split at hlen
  next c hc =>
    cases hlen
    exact ⟨c, io, stream, hc, hio, rfl⟩
  all_goals cases hlen

theorem step_send_server {n : Nat} (h : Control.step slotSize (.send .server n) s = some s') :
    ∃ len io bs, s.server.sending = some len ∧ s.server.io.sendSome len n = some (io, bs) ∧
      s' = { s with server := { s.server with io := io }.afterSend, toClient := s.toClient ++ bs } := by
  obtain ⟨len, hlen, h⟩ := Option.bind_eq_some_iff.mp h
  obtain ⟨⟨io, bs⟩, hio, rfl⟩ := Option.map_eq_some_iff.mp h
  exact ⟨len, io, bs, hlen, hio, rfl⟩

theorem step_recv_server {n : Nat} (h : Control.step slotSize (.recv .server n) s = some s') :
    ∃ len io stream, s.server.receiving = some len ∧ s.server.io.recvSome len n s.toServer = some (io, stream) ∧
      s' = { s with server := { s.server with io := io }, toServer := stream } := by
  obtain ⟨len, hlen, h⟩ := Option.bind_eq_some_iff.mp h
  obtain ⟨⟨io, stream⟩, hio, rfl⟩ := Option.map_eq_some_iff.mp h
  exact ⟨len, io, stream, hlen, hio, rfl⟩

theorem receiving_awaiting {x : ServerSide} {c : Call} (h : x.pc = c.awaiting) : x.receiving = some c.sendLen := by
  cases c <;> simp only [ServerSide.receiving, h, Call.awaiting, Call.sendLen]

theorem sending_answering {x : ServerSide} {c : Call} (h : x.pc = c.answering) : x.sending = some c.recvLen := by
  cases c <;> simp only [ServerSide.sending, h, Call.answering, Call.recvLen]

theorem buf_sendSome {io io' : Cursor UInt8} {len n : Nat} {bs : List UInt8} (h : io.sendSome len n = some (io', bs)) :
    io'.buf = io.buf ∧ io'.pos ≤ len := by
  simp only [Cursor.sendSome] at h
  split at h
  next hn =>
    cases h
    exact ⟨rfl, hn.2⟩
  · cases h

theorem ControlInv.send_client (h : ControlInv pool slotSize calls s) {n : Nat}
    (hs : Control.step slotSize (.send .client n) s = some s') : ControlInv pool slotSize calls s' := by
  obtain ⟨c, io, bs, hpc, hio, rfl⟩ := step_send_client hs
  obtain ⟨hb, hphase⟩ := h
  obtain ⟨hbuf, hle⟩ := buf_sendSome hio
  cases hphase with
  | idle h => rw [h.client] at hpc; cases hpc
  | replying c k p r h => rw [h.client] at hpc; cases hpc
  | requesting c' k prior h =>
    rcases h.client with ⟨hc, hpos, hlt, hsends⟩ | ⟨hc, -, -⟩
    swap
    · rw [hc] at hpc; cases hpc
    rw [hc] at hpc
    cases hpc
    have htr := h.transit
    rw [← hpos] at htr
    rw [← c.length_bytes] at hio
    obtain ⟨htr', hsends'⟩ := htr.send hsends hio
    have hlen : io.buf.length = CtrlBuf.size := by rw [hbuf, hb.clientBuf]
    simp only [Client.afterSend, hc]
    by_cases hmore : io.pos < c.sendLen
    · rw [if_pos hmore]
      exact ⟨hb.client hlen hb.calls,
        .requesting c io.pos prior ⟨.inl ⟨rfl, rfl, hmore, hsends'⟩, h.server, htr', h.toClient, h.made, h.sent,
          h.received, h.results, h.requests⟩⟩
    · rw [if_neg hmore, if_pos (recvLen_inBounds c)]
      exact ⟨hb.client hlen hb.calls,
        .requesting c io.pos prior ⟨.inr ⟨rfl, rfl, by omega⟩, h.server, htr', h.toClient, h.made, h.sent,
          h.received, h.results, h.requests⟩⟩

theorem ControlInv.recv_client (h : ControlInv pool slotSize calls s) {n : Nat}
    (hs : Control.step slotSize (.recv .client n) s = some s') : ControlInv pool slotSize calls s' := by
  obtain ⟨c, io, stream, hpc, hio, rfl⟩ := step_recv_client hs
  obtain ⟨hb, hphase⟩ := h
  cases hphase with
  | idle h => rw [h.client] at hpc; cases hpc
  | requesting c k prior h => rw [h.toClient, recvSome_nil] at hio; cases hio
  | replying c' k p r h =>
    obtain rfl : c' = c := by
      have := h.client
      rw [hpc] at this
      cases this
      rfl
    have hlen : io.buf.length = CtrlBuf.size := by
      rw [length_recvSome hio (by rw [hb.clientBuf]; exact (recvLen_bounds c').2), hb.clientBuf]
    rw [← h.length] at hio
    exact ⟨hb.client hlen hb.calls,
      .replying c' k p r ⟨hpc, h.server, h.length, h.decode, h.transit.recv hio, h.toServer, h.made, h.sent,
        h.received, h.results, h.requests⟩⟩

theorem ControlInv.recv_server (h : ControlInv pool slotSize calls s) {n : Nat}
    (hs : Control.step slotSize (.recv .server n) s = some s') : ControlInv pool slotSize calls s' := by
  obtain ⟨len, io, stream, hlen, hio, rfl⟩ := step_recv_server hs
  obtain ⟨hb, hphase⟩ := h
  cases hphase with
  | idle h => rw [h.toServer, recvSome_nil] at hio; cases hio
  | replying c k p r h => rw [h.toServer, recvSome_nil] at hio; cases hio
  | requesting c k prior h =>
    rw [receiving_awaiting h.server] at hlen
    cases hlen
    have hbuf : io.buf.length = CtrlBuf.size := by
      rw [length_recvSome hio (by rw [hb.serverBuf]; exact (sendLen_bounds c).2), hb.serverBuf]
    rw [← c.length_bytes] at hio
    exact ⟨hb.server hbuf,
      .requesting c k prior ⟨h.client, h.server, h.transit.recv hio, h.toClient, h.made, h.sent, h.received,
        h.results, h.requests⟩⟩

theorem ControlInv.send_server (h : ControlInv pool slotSize calls s) {n : Nat}
    (hs : Control.step slotSize (.send .server n) s = some s') : ControlInv pool slotSize calls s' := by
  obtain ⟨len, io, bs, hlen, hio, rfl⟩ := step_send_server hs
  obtain ⟨hb, hphase⟩ := h
  obtain ⟨hbuf, hle⟩ := buf_sendSome hio
  cases hphase with
  | idle h =>
    have hpc := h.server
    split at hpc <;> simp [ServerSide.sending, hpc] at hlen
  | requesting c k prior h =>
    have hpc := h.server
    cases c <;> simp [ServerSide.sending, hpc, Call.awaiting] at hlen
  | replying c k p r h =>
    rcases h.server with ⟨hpc, hpos, hlt, hsends⟩ | ⟨hpc, -, -⟩
    swap
    · simp [ServerSide.sending, hpc] at hlen
    have hsend := sending_answering hpc
    rw [hsend] at hlen
    cases hlen
    have htr := h.transit
    rw [← hpos] at htr
    have hio' := hio
    rw [← h.length] at hio'
    obtain ⟨htr', hsends'⟩ := htr.send hsends hio'
    have hlen : io.buf.length = CtrlBuf.size := by rw [hbuf, hb.serverBuf]
    have hne : s.server.pc ≠ .recvMeta := by rw [hpc]; cases c <;> simp [Call.answering]
    have hsend' : ({ s.server with io := io } : ServerSide).sending = some c.recvLen := sending_answering hpc
    have hlen' := h.length
    simp only [ServerSide.afterSend, hsend']
    by_cases hmore : io.pos < c.recvLen
    · rw [if_pos hmore]
      exact ⟨hb.server hlen,
        .replying c io.pos p r ⟨h.client, .inl ⟨hpc, rfl, by omega, hsends'⟩, h.length, h.decode, htr', h.toServer,
          h.made, h.sent, h.received, h.results, h.requests⟩⟩
    · rw [if_neg hmore, if_pos (by rfl)]
      exact ⟨⟨hb.clientBuf, hlen, hb.calls, hb.numSlots, hb.free, hb.served, (fun hc => by cases hc),
          fun _ => hb.replies hne⟩,
        .replying c io.pos p r ⟨h.client, .inr ⟨rfl, rfl, by omega⟩, h.length, h.decode, htr', h.toServer, h.made,
          h.sent, h.received, h.results, h.requests⟩⟩

/-! ### The programs' own steps -/

/-- A call returns. -/
theorem Replying.ret {c : Call} {k : Nat} {p : List UInt8} {r : Reply} (h : Replying s c k p r)
    (hb : Base pool slotSize calls s) {x : Client} (hr : s.client.run = some x) :
    ControlInv pool slotSize calls { s with client := x } := by
  simp only [Client.run, h.client] at hr
  split at hr
  · cases hr
  next hpos =>
  have hlen := h.length
  have hd : s.client.io.pos = p.length := by
    have h1 := h.transit.pos_le
    have h2 := h.transit.sent_le
    omega
  obtain ⟨hk, hempty, hsends⟩ := h.transit.done hd
  rw [h.decode _ hb.clientBuf hsends] at hr
  cases hr
  rcases h.server with ⟨-, -, hlt, -⟩ | ⟨hpc, hzero, -⟩
  · omega
  refine ⟨hb.client hb.clientBuf hb.calls,
    .idle ⟨rfl, ?_, hzero, h.toServer, hempty, h.sent, ?_, h.results.symm, h.requests⟩⟩
  · simp only [hpc, if_neg h.made]
  · simp only [h.received, ← hlen]
    rw [show s.client.io.buf.take p.length = p from hsends]

/-- What `serve` makes of a request in range. -/
theorem handle_inRange {pool : KVPool} {c : Call} {m : Msg} (hc : c.InRange pool.numSlots) (hm : c.request = some m)
    (hn : IsInt pool.numSlots) (hf : ∀ i ∈ pool.freeList, IsInt i) :
    ∃ pool' reply, handle pool m = .ok (pool', reply) ∧ (IsInt m.type ∧ IsInt m.payload) ∧ IsInt reply ∧
      pool'.numSlots = pool.numSlots ∧ (∀ i ∈ pool'.freeList, IsInt i) ∧ c.bytes = intBytes m.type ++ intBytes m.payload ∧
      (c ≠ .kvAlloc → reply = 0) := by
  have hzero : IsInt 0 := by decide
  cases c with
  | handshakeMeta => exact hc.elim
  | kvAlloc =>
    cases hm
    have h1 : IsInt (-1) := by decide
    simp only [handle, if_true]
    cases hl : pool.freeList.getLast? with
    | none => exact ⟨_, _, rfl, ⟨hzero, hzero⟩, h1, rfl, hf, rfl, fun hne => absurd rfl hne⟩
    | some i =>
      refine ⟨_, _, rfl, ⟨hzero, hzero⟩, hf i (List.mem_of_getLast? hl), rfl, ?_, rfl, fun hne => absurd rfl hne⟩
      exact fun j hj => hf j ((List.dropLast_sublist _).subset hj)
  | kvFree i =>
    cases hm
    obtain ⟨h0, hlt⟩ := hc
    have hi : IsInt i := by
      obtain ⟨-, hmax⟩ := hn
      exact ⟨by omega, by omega⟩
    have hne : KV_MSG_FREE ≠ KV_MSG_ALLOC := by decide
    have hrange : ¬(i < 0 ∨ i ≥ pool.numSlots) := by omega
    simp only [handle, if_neg hne, if_true, if_neg hrange]
    refine ⟨_, _, rfl, ⟨by decide, hi⟩, hzero, rfl, ?_, rfl, fun _ => rfl⟩
    intro j hj
    rcases List.mem_append.mp hj with hj | hj
    · exact hf j hj
    · exact List.mem_singleton.mp hj ▸ hi

theorem serve_append {core core' : Server} {ms : List Msg} {m : Msg} {pool' : KVPool} {reply : Int}
    (h : serve core ms = (core', none)) (hm : handle core'.pool m = .ok (pool', reply)) :
    serve core (ms ++ [m]) = (⟨pool', (m, reply) :: core'.log⟩, none) := by
  induction ms generalizing core with
  | nil =>
    cases h
    simp only [List.nil_append, serve, hm]
  | cons m' ms ih =>
    simp only [List.cons_append, serve] at h ⊢
    split at h
    · cases h
    · exact ih h

/-- What a server with a whole request knows of the client. -/
theorem Requesting.done {c : Call} {k : Nat} {prior : List Call} (h : Requesting s c k prior)
    (hpos : ¬s.server.io.pos < c.sendLen) :
    Sends c.bytes s.server.io ∧ s.toServer = [] ∧ s.client.pc = .recv c ∧ s.client.io.pos = 0 := by
  have hlen := c.length_bytes
  have hd : s.server.io.pos = c.bytes.length := by
    have h1 := h.transit.pos_le
    have h2 := h.transit.sent_le
    omega
  obtain ⟨hk, hempty, hsends⟩ := h.transit.done hd
  rcases h.client with ⟨-, -, hlt, -⟩ | ⟨hpc, hzero, -⟩
  · omega
  · exact ⟨hsends, hempty, hpc, hzero⟩

/-- The handshake is answered. -/
theorem Requesting.shape {k : Nat} {prior : List Call} (h : Requesting s .handshakeMeta k prior)
    (hb : Base pool slotSize calls s) (hn : IsInt pool.numSlots) (hsz : slotSize < 2 ^ 64) {x : ServerSide}
    (hr : s.server.run slotSize = some x) : ControlInv pool slotSize calls { s with server := x } := by
  have hpc : s.server.pc = .recvMeta := h.server
  simp only [ServerSide.run, hpc] at hr
  split at hr
  · cases hr
  next hpos =>
  obtain ⟨hsends, hempty, hcpc, hzero⟩ := h.done hpos
  have hmsg : CtrlBuf.msg s.server.io.buf 0 = KV_MSG_META := CtrlBuf.msg_zero_of_take (by decide) hsends
  rw [if_neg (not_not_intro hmsg), if_pos (by rfl)] at hr
  cases hr
  obtain ⟨hlog, hreplies⟩ := hb.fresh hpc
  let shape : KVMeta := ⟨s.server.core.pool.numSlots, slotSize⟩
  have hshape : shape = ⟨pool.numSlots, slotSize⟩ := by simp only [shape, hb.numSlots]
  have heq : CtrlBuf.setMeta shape s.server.io.buf = shape.bytes (field s.server.io.buf 4 4) :=
    CtrlBuf.setMeta_eq hb.serverBuf
  have hlen : (CtrlBuf.setMeta shape s.server.io.buf).length = CtrlBuf.size := CtrlBuf.length_setMeta hb.serverBuf
  have htake : (CtrlBuf.setMeta shape s.server.io.buf).take CtrlBuf.sizeofMeta = CtrlBuf.setMeta shape s.server.io.buf :=
    List.take_of_length_le (by rw [hlen]; decide)
  have hpad : (field s.server.io.buf 4 4).length = 4 := by
    rw [field, List.length_take, List.length_drop, hb.serverBuf]
    rfl
  refine ⟨⟨hb.clientBuf, hlen, hb.calls, hb.numSlots, hb.free, hb.served, (fun hc => by cases hc), fun _ => ?_⟩,
    .replying .handshakeMeta 0 (CtrlBuf.setMeta shape s.server.io.buf) (.shape shape)
      ⟨hcpc, .inl ⟨rfl, rfl, ?_, ?_⟩, hlen, fun b hbl hbt => ?_, ?_, hempty, ?_, ?_, ?_, ?_, ?_⟩⟩
  · simp only [ServerSide.answer, hreplies, hlog, List.nil_append, List.reverse_nil, List.map_nil]
    rw [← hshape]
  · rw [hlen]
    decide
  · exact List.take_length
  · have hbeq : b = CtrlBuf.setMeta shape s.server.io.buf := by
      rw [← hbt, hlen, ← hbl, List.take_length]
    rw [Call.decode, hbeq, heq, KVMeta.ofBytes_bytes (by rw [hshape]; exact hn) (by rw [hshape]; exact hsz) hpad]
  · rw [h.toClient]
    exact .start hzero (by rw [hlen, hb.clientBuf])
  · rw [h.made]
    exact List.append_ne_nil_of_right_ne_nil _ (List.cons_ne_nil _ _)
  · rw [h.sent]
    simp only [ServerSide.answer]
    rw [show s.server.io.buf.take CtrlBuf.sizeofInt = Call.bytes .handshakeMeta from hsends]
  · simp only [ServerSide.answer, h.received]
    rw [htake]
  · simp only [ServerSide.answer, h.results]
    rfl
  · rw [h.made, List.filterMap_append, show [Call.handshakeMeta].filterMap Call.request = [] from rfl,
      List.append_nil]
    exact h.requests

/-- A request in range has its message, and its reply is an `int`. -/
theorem Call.InRange.cases {c : Call} {numSlots : Int} (h : c.InRange numSlots) :
    ∃ m, c.request = some m ∧ c.awaiting = .recvMsg ∧ c.answering = .sendInt ∧ c.sendLen = CtrlBuf.sizeofMsg ∧
      c.recvLen = CtrlBuf.sizeofInt := by
  cases c with
  | handshakeMeta => exact h.elim
  | kvAlloc | kvFree i => exact ⟨_, rfl, rfl, rfl, rfl, rfl⟩

theorem decode_int {c : Call} {numSlots : Int} (hc : c.InRange numSlots) {b : CtrlBuf} {i : Int} (h : b.msg 0 = i)
    (h0 : c ≠ .kvAlloc → i = 0) : c.decode b = some (.int i) := by
  cases c with
  | handshakeMeta => exact hc.elim
  | kvAlloc => rw [Call.decode, h]
  | kvFree j =>
    rw [Call.decode, h, if_neg (not_not_intro (h0 (by simp)))]

/-- A request of `serve` is answered. -/
theorem Requesting.int {c : Call} {k : Nat} {prior : List Call} (h : Requesting s c k prior)
    (hb : Base pool slotSize calls s) (hc : c.InRange pool.numSlots) (hn : IsInt pool.numSlots) {x : ServerSide}
    (hr : s.server.run slotSize = some x) : ControlInv pool slotSize calls { s with server := x } := by
  obtain ⟨m, hm, hawait, hanswer, hsend, hrecv⟩ := hc.cases
  have hpc : s.server.pc = .recvMsg := h.server.trans hawait
  simp only [ServerSide.run, hpc] at hr
  split at hr
  · cases hr
  next hpos =>
  rw [← hsend] at hpos
  obtain ⟨hsends, hempty, hcpc, hzero⟩ := h.done hpos
  obtain ⟨pool', reply, hhandle, ⟨ht, hp⟩, hri, hns, hfree, hbytes, hack⟩ :=
    handle_inRange (hb.numSlots ▸ hc) hm (hb.numSlots ▸ hn) hb.free
  have hread : (⟨CtrlBuf.msg s.server.io.buf 0, CtrlBuf.msg s.server.io.buf 1⟩ : Msg) = m := by
    have htake : s.server.io.buf.take 8 = intBytes m.type ++ intBytes m.payload := by
      rw [← hbytes, show 8 = c.bytes.length by rw [c.length_bytes, hsend]; rfl]
      exact hsends
    obtain ⟨h0, h1⟩ := CtrlBuf.msg_of_take ht hp htake
    rw [h0, h1]
  rw [hread, hhandle] at hr
  simp only [if_pos (show Transport.Tcp.inBounds CtrlBuf.size CtrlBuf.sizeofInt 0 = true from rfl), Option.some.injEq] at hr
  subst hr
  have hne : s.server.pc ≠ .recvMeta := by rw [hpc]; decide
  have hlen : (CtrlBuf.setMsg 0 reply s.server.io.buf).length = CtrlBuf.size := by
    rw [CtrlBuf.length_setMsg (by rw [hb.serverBuf]; decide), hb.serverBuf]
  have htake : (CtrlBuf.setMsg 0 reply s.server.io.buf).take CtrlBuf.sizeofInt = intBytes reply := CtrlBuf.take_setMsg
  refine ⟨⟨hb.clientBuf, hlen, hb.calls, hns.trans hb.numSlots, hfree, ?_, (fun hc => by cases hc), fun _ => ?_⟩,
    .replying c 0 (intBytes reply) (.int reply)
      ⟨hcpc, .inl ⟨hanswer.symm, rfl, ?_, ?_⟩, ?_, fun b _ hbt => ?_, ?_, hempty, ?_, ?_, ?_, ?_, ?_⟩⟩
  · simp only [ServerSide.dispatched, List.reverse_cons, List.map_append]
    exact serve_append hb.served hhandle
  · simp only [ServerSide.answer, hb.replies hne, List.reverse_cons, List.map_append, List.cons_append]
    rfl
  · rw [length_intBytes]
    decide
  · rw [Sends, length_intBytes]
    exact htake
  · rw [hrecv]
    rfl
  · rw [length_intBytes] at hbt
    exact decode_int hc (CtrlBuf.msg_zero_of_take hri hbt) hack
  · rw [h.toClient]
    exact .start hzero (by rw [length_intBytes, hb.clientBuf]; decide)
  · rw [h.made]
    exact List.append_ne_nil_of_right_ne_nil _ (List.cons_ne_nil _ _)
  · rw [h.sent]
    simp only [ServerSide.answer]
    rw [show s.server.io.buf.take CtrlBuf.sizeofMsg = c.bytes by rw [← hsend, ← c.length_bytes]; exact hsends]
  · simp only [ServerSide.answer, h.received, htake]
  · simp only [ServerSide.answer, h.results]
  · rw [h.made, List.filterMap_append, h.requests]
    simp only [ServerSide.dispatched, List.reverse_cons, List.map_append, List.filterMap_cons, hm, List.filterMap_nil]
    rfl

theorem ControlInv.run_client (h : ControlInv pool slotSize (.handshakeMeta :: rest) s)
    (hc : ∀ c ∈ rest, c.InRange pool.numSlots) (hs : Control.step slotSize (.run .client) s = some s') :
    ControlInv pool slotSize (.handshakeMeta :: rest) s' := by
  obtain ⟨x, hr, rfl⟩ := Option.map_eq_some_iff.mp hs
  obtain ⟨hb, hphase⟩ := h
  cases hphase with
  | idle h => exact h.call hb hc hr
  | requesting c k prior h =>
    rcases h.client with ⟨hpc, -⟩ | ⟨hpc, hpos, -⟩
    · simp [Client.run, hpc] at hr
    · simp [Client.run, hpc, hpos, (recvLen_bounds c).1] at hr
  | replying c k p r h => exact h.ret hb hr

theorem ControlInv.run_server (h : ControlInv pool slotSize (.handshakeMeta :: rest) s)
    (hc : ∀ c ∈ rest, c.InRange pool.numSlots) (hn : IsInt pool.numSlots) (hsz : slotSize < 2 ^ 64)
    (hs : Control.step slotSize (.run .server) s = some s') :
    ControlInv pool slotSize (.handshakeMeta :: rest) s' := by
  obtain ⟨x, hr, rfl⟩ := Option.map_eq_some_iff.mp hs
  obtain ⟨hb, hphase⟩ := h
  cases hphase with
  | idle h =>
    have hpc := h.server
    have hpos := h.pos
    split at hpc <;> simp [ServerSide.run, hpc, hpos, CtrlBuf.sizeofInt, CtrlBuf.sizeofMsg] at hr
  | requesting c k prior h =>
    have hcalls : prior ++ c :: s.client.todo = .handshakeMeta :: rest := by
      rw [← hb.calls, h.made, List.append_assoc]
      rfl
    rcases call_cases hc hcalls with ⟨-, rfl⟩ | ⟨-, hr'⟩
    · exact h.shape hb hn hsz hr
    · exact h.int hb hr' hn hr
  | replying c k p r h =>
    rcases h.server with ⟨hpc, -⟩ | ⟨hpc, hpos, -⟩
    · cases c <;> simp [ServerSide.run, hpc, Call.answering] at hr
    · simp [ServerSide.run, hpc, hpos, CtrlBuf.sizeofMsg] at hr

theorem ControlInv.step (h : ControlInv pool slotSize (.handshakeMeta :: rest) s)
    (hc : ∀ c ∈ rest, c.InRange pool.numSlots) (hn : IsInt pool.numSlots) (hsz : slotSize < 2 ^ 64)
    {a : ControlAction} (hs : Control.step slotSize a s = some s') :
    ControlInv pool slotSize (.handshakeMeta :: rest) s' := by
  match a with
  | .run .client => exact h.run_client hc hs
  | .run .server => exact h.run_server hc hn hsz hs
  | .send .client n => exact h.send_client hs
  | .send .server n => exact h.send_server hs
  | .recv .client n => exact h.recv_client hs
  | .recv .server n => exact h.recv_server hs

theorem start_inv {calls : List Call} {clientBuf serverBuf : CtrlBuf} (hf : ∀ i ∈ pool.freeList, IsInt i)
    (hcb : clientBuf.length = CtrlBuf.size) (hsb : serverBuf.length = CtrlBuf.size) :
    ControlInv pool slotSize calls (.start pool calls clientBuf serverBuf) :=
  ⟨⟨hcb, hsb, rfl, rfl, hf, rfl, fun _ => ⟨rfl, rfl⟩, fun hne => absurd rfl hne⟩,
    .idle ⟨rfl, rfl, rfl, rfl, rfl, rfl, rfl, rfl, rfl⟩⟩

/-! ### Progress -/

theorem server_can_run {x : ServerSide} {len : Nat} (h : x.receiving = some len) (hpos : ¬x.io.pos < len) :
    ∃ y, x.run slotSize = some y := by
  simp only [ServerSide.receiving] at h
  split at h
  next hpc =>
    cases h
    simp only [ServerSide.run, hpc, if_neg hpos]
    split
    · exact ⟨_, rfl⟩
    · split <;> exact ⟨_, rfl⟩
  next hpc =>
    cases h
    simp only [ServerSide.run, hpc, if_neg hpos]
    split
    · exact ⟨_, rfl⟩
    · split <;> exact ⟨_, rfl⟩
  all_goals cases h

/-- While a call is unfinished or unmade, someone can go on. -/
theorem ControlInv.progress {calls : List Call} {clientBuf serverBuf : CtrlBuf}
    (h : ControlInv pool slotSize calls s) (hmore : ¬(s.client.pc = .idle ∧ s.client.todo = [])) :
    (Control.system pool slotSize calls clientBuf serverBuf).Enabled s := by
  obtain ⟨hb, hphase⟩ := h
  cases hphase with
  | idle h =>
    cases ht : s.client.todo with
    | nil => exact absurd ⟨h.client, ht⟩ hmore
    | cons c todo =>
      have hrun : ∃ x, s.client.run = some x := by
        simp only [Client.run, h.client, ht, if_pos (sendLen_inBounds c)]
        exact ⟨_, rfl⟩
      obtain ⟨x, hx⟩ := hrun
      exact ⟨.run .client, _, Option.map_eq_some_iff.mpr ⟨x, hx, rfl⟩⟩
  | requesting c k prior h =>
    rcases h.client with ⟨hpc, hpos, hlt, -⟩ | ⟨hpc, hpos, hk⟩
    · obtain ⟨io, bs, hio⟩ := can_send s.client.io (show _ < c.sendLen by omega)
      have hsend : s.client.sending = some c.sendLen := by simp only [Client.sending, hpc]
      exact ⟨.send .client 1, _, Option.bind_eq_some_iff.mpr ⟨_, hsend, Option.map_eq_some_iff.mpr ⟨_, hio, rfl⟩⟩⟩
    · have hrecv := receiving_awaiting h.server
      by_cases hlt : s.server.io.pos < c.sendLen
      · obtain ⟨io, stream, hio⟩ := h.transit.can_recv (by omega)
        rw [c.length_bytes] at hio
        exact ⟨.recv .server 1, _, Option.bind_eq_some_iff.mpr ⟨_, hrecv, Option.map_eq_some_iff.mpr ⟨_, hio, rfl⟩⟩⟩
      · obtain ⟨y, hy⟩ := server_can_run hrecv hlt
        exact ⟨.run .server, _, Option.map_eq_some_iff.mpr ⟨y, hy, rfl⟩⟩
  | replying c k p r h =>
    have hlen := h.length
    rcases h.server with ⟨hpc, hpos, hlt, -⟩ | ⟨hpc, hpos, hk⟩
    · obtain ⟨io, bs, hio⟩ := can_send s.server.io (show _ < c.recvLen by omega)
      exact ⟨.send .server 1, _,
        Option.bind_eq_some_iff.mpr ⟨_, sending_answering hpc, Option.map_eq_some_iff.mpr ⟨_, hio, rfl⟩⟩⟩
    · have hrecv : s.client.receiving = some c.recvLen := by simp only [Client.receiving, h.client]
      by_cases hlt : s.client.io.pos < p.length
      · obtain ⟨io, stream, hio⟩ := h.transit.can_recv (by omega)
        rw [h.length] at hio
        exact ⟨.recv .client 1, _, Option.bind_eq_some_iff.mpr ⟨_, hrecv, Option.map_eq_some_iff.mpr ⟨_, hio, rfl⟩⟩⟩
      · have hrun : ∃ x, s.client.run = some x := by
          simp only [Client.run, h.client, if_neg (show ¬s.client.io.pos < c.recvLen by omega)]
          split <;> exact ⟨_, rfl⟩
        obtain ⟨x, hx⟩ := hrun
        exact ⟨.run .client, _, Option.map_eq_some_iff.mpr ⟨x, hx, rfl⟩⟩

end Steps

/-! ## Framing -/

/-- The two sides agree on where each message ends and on what it says. The
requests `serve` dispatches on and the replies are those of `serve` over the
messages the client meant. -/
structure Framed (pool : KVPool) (slotSize : Nat) (calls : List Call) (s : Control) : Prop where
  alive : s.client.pc ≠ .failed ∧ s.server.pc ≠ .failed
  calls : s.client.made ++ s.client.todo = calls
  requests : s.server.received <+: s.client.sent
  replies : s.client.received <+: s.server.sent
  dispatched : s.server.dispatched <+: s.client.made.filterMap Call.request
  results : s.client.results <+: s.server.replies
  served : serve ⟨pool, []⟩ s.server.dispatched = (s.server.core, none)
  answered : s.server.replies <+:
    .shape ⟨pool.numSlots, slotSize⟩ :: s.server.core.log.reverse.map fun e => .int e.2
  quiescent : s.client.pc = .idle → s.toServer = [] ∧ s.toClient = [] ∧ s.server.received = s.client.sent ∧
    s.client.received = s.server.sent ∧ s.server.dispatched = s.client.made.filterMap Call.request ∧
    (s.client.made ≠ [] →
      s.client.results = .shape ⟨pool.numSlots, slotSize⟩ :: s.server.core.log.reverse.map fun e => .int e.2)

theorem ControlInv.framed {pool : KVPool} {slotSize : Nat} {calls : List Call} {s : Control}
    (h : ControlInv pool slotSize calls s) : Framed pool slotSize calls s := by
  obtain ⟨hb, hphase⟩ := h
  have hanswered : s.server.replies <+:
      .shape ⟨pool.numSlots, slotSize⟩ :: s.server.core.log.reverse.map fun e => .int e.2 := by
    by_cases hpc : s.server.pc = .recvMeta
    · rw [(hb.fresh hpc).2]
      exact List.nil_prefix
    · exact hb.replies hpc ▸ List.prefix_rfl
  cases hphase with
  | idle h =>
    have hpc := h.server
    refine ⟨⟨by rw [h.client]; simp, by rw [hpc]; split <;> simp⟩, hb.calls, h.sent ▸ List.prefix_rfl,
      h.received ▸ List.prefix_rfl, h.requests ▸ List.prefix_rfl, h.results ▸ List.prefix_rfl, hb.served, hanswered,
      fun _ => ⟨h.toServer, h.toClient, h.sent.symm, h.received, h.requests.symm, fun hm => ?_⟩⟩
    rw [h.results]
    exact hb.replies (by rw [hpc, if_neg hm]; simp)
  | requesting c k prior h =>
    refine ⟨⟨?_, ?_⟩, hb.calls, h.sent ▸ List.prefix_append _ _, h.received ▸ List.prefix_rfl, ?_,
      h.results ▸ List.prefix_rfl, hb.served, hanswered, ?_⟩
    · rcases h.client with ⟨hpc, -⟩ | ⟨hpc, -⟩ <;> rw [hpc] <;> simp
    · rw [h.server]
      cases c <;> simp [Call.awaiting]
    · rw [h.made, List.filterMap_append, h.requests]
      exact List.prefix_append _ _
    · rcases h.client with ⟨hpc, -⟩ | ⟨hpc, -⟩ <;> rw [hpc] <;> simp
  | replying c k p r h =>
    refine ⟨⟨by rw [h.client]; simp, ?_⟩, hb.calls, h.sent ▸ List.prefix_rfl, h.received ▸ List.prefix_append _ _,
      h.requests ▸ List.prefix_rfl, h.results ▸ List.prefix_append _ _, hb.served, hanswered,
      by rw [h.client]; simp⟩
    rcases h.server with ⟨hpc, -⟩ | ⟨hpc, -⟩
    · rw [hpc]
      cases c <;> simp [Call.answering]
    · rw [hpc]
      simp

/-- However the kernel cuts the two streams, a client that makes a handshake and
then any calls in range never loses framing, and never gets stuck. -/
theorem control_framed (pool : KVPool) (slotSize : Nat) (rest : List Call) (clientBuf serverBuf : CtrlBuf)
    (hn : IsInt pool.numSlots) (hsz : slotSize < 2 ^ 64) (hf : ∀ i ∈ pool.freeList, IsInt i)
    (hc : ∀ c ∈ rest, c.InRange pool.numSlots) (hcb : clientBuf.length = CtrlBuf.size)
    (hsb : serverBuf.length = CtrlBuf.size) (s : Control)
    (hs : (Control.system pool slotSize (.handshakeMeta :: rest) clientBuf serverBuf).Reach s) :
    Framed pool slotSize (.handshakeMeta :: rest) s ∧
      (¬(s.client.pc = .idle ∧ s.client.todo = []) →
        (Control.system pool slotSize (.handshakeMeta :: rest) clientBuf serverBuf).Enabled s) := by
  have hI : ControlInv pool slotSize (.handshakeMeta :: rest) s := by
    refine Lts.Reach.inv (I := ControlInv pool slotSize (.handshakeMeta :: rest)) ?_ ?_ hs
    · rintro _ rfl
      exact start_inv hf hcb hsb
    · intro s a s' _ hI hstep
      exact hI.step hc hn hsz hstep
  exact ⟨hI.framed, hI.progress⟩

/-- Two slots of 16 bytes, and unions that hold rubbish: the handshake and an
ALLOC return over streams cut anywhere, and a FREE is under way. -/
theorem control_framed_alloc :
    let pool : KVPool := ⟨2, [0, 1]⟩
    let rubbish : CtrlBuf := List.replicate 16 170
    let calls : List Call := [.handshakeMeta, .kvAlloc, .kvFree 1]
    let conn := Control.system pool 16 calls rubbish rubbish
    let acts : List ControlAction := [.run .client, .send .client 1, .recv .server 1, .send .client 3, .recv .server 3,
      .run .server, .send .server 16, .recv .client 5, .recv .client 11, .run .client, .run .client, .send .client 8,
      .recv .server 3, .recv .server 5, .run .server, .send .server 2, .recv .client 1, .send .server 2,
      .recv .client 3, .run .client, .run .client, .send .client 5]
    ∃ s, conn.exec acts (.start pool calls rubbish rubbish) = some s ∧ s.client.results = [.shape ⟨2, 16⟩, .int 1] ∧
      s.toServer.length = 5 ∧ Framed pool 16 calls s ∧ conn.Enabled s := by
  intro pool rubbish calls conn acts
  have hrun : (conn.exec acts (.start pool calls rubbish rubbish)).map
      (fun s => (s.client.results, s.toServer.length, s.client.pc)) =
      some ([.shape ⟨2, 16⟩, .int 1], 5, .send (.kvFree 1)) := by decide +kernel
  obtain ⟨s, hs, heq⟩ := Option.map_eq_some_iff.mp hrun
  simp only [Prod.mk.injEq] at heq
  obtain ⟨hres, hlen, hpc⟩ := heq
  have hreach : conn.Reach s := Lts.Reach.exec (Lts.Reach.init rfl) hs
  obtain ⟨hframed, hprog⟩ := control_framed pool 16 [.kvAlloc, .kvFree 1] rubbish rubbish (by decide) (by decide)
    (by decide) (by simp [Call.InRange, pool]) rfl rfl s hreach
  exact ⟨s, hs, hres, hlen, hframed, hprog fun h => by simp [hpc] at h⟩

end RdmaInfra.KvCache
