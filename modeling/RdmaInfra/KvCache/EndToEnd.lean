/-
`kv_server` and `kv_bench`, from the first byte of the control connection to
the exit of both.

Each `main` is a program over two connections, the control connection and the
one `exchange_buf` opens, from where both transports are connected. The
one-sided operations are the client's alone: the server registers the slab
before it sends its address and touches it no more, so the slab's memory is
kept beside the client's buffer.

The programs are written out with their failures; that they meet, message by
message, is what leaves one end for every run. What a machine may refuse is in its
`Host`: the memory of the large buffers, their registration, and a post to a full
send queue.
-/
import RdmaInfra.Duplex
import RdmaInfra.KvCache.ControlFraming
import RdmaInfra.KvCache.RunBench
import RdmaInfra.Verbs.BenchConfig
import RdmaInfra.Verbs.Oob

namespace RdmaInfra.KvCache

open Duplex (Proc Meets)
open Transport
open Verbs (ConnInfo raiQpMaxWr)

/-- What a machine answers: whether the memory for so many bytes is to be had,
how many entries `free_list` can grow to, whether a region of so many bytes can be
registered, and how many posts the send queue takes before one of them is polled.
It has `RAI_QP_MAX_WR` entries, of which a driver may leave one empty. -/
structure Host where
  alloc : Nat → Bool
  freeList : Nat
  reg : Nat → Bool
  sendQueue : Nat
  sendQueue_ge : raiQpMaxWr - 1 ≤ sendQueue

/-- The size `pool.mem` is resized to, or `none` where `resize` throws: for a size
no vector can have, or for want of memory. -/
def Host.resize (host : Host) (n : Nat) : Option Nat := if host.alloc n then KvCache.resize n else none

inductive Conn
  | ctrl
  | oob
  deriving DecidableEq, Repr

/-- How a program ends: its exit code and the pool, or its exit code and both
memories. -/
inductive Exit
  | server (ret : Int) (pool : KVPool)
  | client (ret : Int) (mems : Mems UInt8)
  | outOfFuel

abbrev Program := Proc Conn UInt8

/-! ## The transports -/

/-- `send_async` from the union; `false` where it returns -1. -/
def sendCtrl (len : Nat) (buf : CtrlBuf) : Program Bool :=
  if Tcp.inBounds CtrlBuf.size len 0 then .send .ctrl (buf.take len) (.ret true) else .ret false

/-- `recv_async` into the union; `none` where it returns -1. -/
def recvCtrl (len : Nat) (buf : CtrlBuf) : Program (Option CtrlBuf) :=
  if Tcp.inBounds CtrlBuf.size len 0 then .recv .ctrl len fun bs => .ret (bs.map (put buf 0)) else .ret none

/-- `rai_oob_accept`: what is sent is `qp->local`, with the region filled in. -/
def oobAccept (pad : Fin 4 → UInt8) (info : ConnInfo) : Program (Option ConnInfo) :=
  .send .oob (info.bytes pad) <| .recv .oob ConnInfo.size fun bs => .close .oob (.ret (bs.map ConnInfo.ofBytes))

/-- `rai_oob_connect`. -/
def oobConnect (pad : Fin 4 → UInt8) (info : ConnInfo) : Program (Option ConnInfo) :=
  .recv .oob ConnInfo.size fun
    | none => .close .oob (.ret none)
    | some bs => .send .oob (info.bytes pad) (.close .oob (.ret (some (ConnInfo.ofBytes bs))))

/-! ## `kv_server` -/

/-- `handshake_meta` of the server. -/
def handshakeMeta (shape : KVMeta) (buf : CtrlBuf) : Program (Option CtrlBuf) := do
  match ← recvCtrl CtrlBuf.sizeofInt buf with
  | none => return none
  | some buf =>
    if CtrlBuf.msg buf 0 ≠ KV_MSG_META then return none
    else
      let buf := CtrlBuf.setMeta shape buf
      match ← sendCtrl CtrlBuf.sizeofMeta buf with
      | false => return none
      | true => return some buf

/-- What `serve` does with the outcome of a request: it replies and goes on with
`next`, or leaves with what it returns and the pool. -/
def replyCtrl (next : KVPool → CtrlBuf → Program (Option (Int × KVPool))) (pool : KVPool) (buf : CtrlBuf) :
    Except ServeError (KVPool × Int) → Program (Option (Int × KVPool))
  | .error _ => return some (-1, pool)
  | .ok (pool, reply) => do
    let buf := CtrlBuf.setMsg 0 reply buf
    match ← sendCtrl CtrlBuf.sizeofInt buf with
    | false => return some (-1, pool)
    | true => next pool buf

/-- One turn of the loop of `serve`. -/
def turnCtrl (next : KVPool → CtrlBuf → Program (Option (Int × KVPool))) (pool : KVPool) (buf : CtrlBuf) :
    Program (Option (Int × KVPool)) := do
  match ← recvCtrl CtrlBuf.sizeofMsg buf with
  | none => return some (0, pool)
  | some buf => replyCtrl next pool buf (handle pool ⟨CtrlBuf.msg buf 0, CtrlBuf.msg buf 1⟩)

/-- `serve`, for at most `fuel` turns. -/
def serveCtrl : Nat → KVPool → CtrlBuf → Program (Option (Int × KVPool))
  | 0 => fun _ _ => return none
  | fuel + 1 => turnCtrl (serveCtrl fuel)

/-- The destructors of `main` close the data transport's listening socket, if
no `exchange_buf` has been over it, and then the control connection. -/
def leaveServer (ret : Int) (pool : KVPool) : Program Exit := .close .oob (.close .ctrl (.ret (.server ret pool)))

/-- `main` of `kv_server`, with the slab registered at `info.addr`. -/
def serverMain (host : Host) (fuel : Nat) (cfg : Config) (info : ConnInfo) (pad : Fin 4 → UInt8) (buf : CtrlBuf) :
    Program Exit := do
  let pool : KVPool := ⟨cfg.numSlots, []⟩
  match ← handshakeMeta ⟨cfg.numSlots, cfg.slotSize⟩ buf with
  | none => leaveServer 1 pool
  | some buf =>
    match host.resize (slabSize cfg) with
    | none => leaveServer 1 pool
    | some size =>
      let pool := { pool with freeList := initFreeList (min cfg.numSlots.toNat host.freeList) }
      -- The `push_back` that finds no memory throws.
      if host.freeList < cfg.numSlots.toNat then leaveServer 1 pool
      else if size = 0 ∨ host.reg size = false then leaveServer 1 pool
      else
        match ← oobAccept pad info with
        | none => .close .ctrl (.ret (.server 1 pool))
        | some _ =>
          match ← serveCtrl fuel pool buf with
          | none => .ret .outOfFuel
          | some (ret, pool) => .close .ctrl (.ret (.server (if ret ≠ 0 then 1 else 0) pool))

/-! ## `kv_bench` -/

/-- `handshake_meta`, `kv_alloc` and `kv_free` of the client; `none` where they
return -1. -/
def callCtrl (c : Call) (buf : CtrlBuf) : Program (Option (CtrlBuf × Reply)) := do
  let buf := c.encode buf
  match ← sendCtrl c.sendLen buf with
  | false => return none
  | true =>
    match ← recvCtrl c.recvLen buf with
    | none => return none
    | some buf => return (c.decode buf).map fun r => (buf, r)

/-- `(char)(i * 31 + 7)`. -/
def pattern (i : Nat) : UInt8 := .ofNat (i * 31 + 7)

/-- The first `n` bytes of the buffer set, byte by byte. -/
def Mems.fillBuf (n : Nat) (f : Nat → UInt8) (m : Mems UInt8) : Mems UInt8 :=
  { m with buf := fun i => if i < n then f i else m.buf i }

/-- `op` carried out `n` times. -/
def carryOut (op : Mems UInt8 → Option (Mems UInt8)) (n : Nat) (m : Mems UInt8) : Mems UInt8 :=
  (List.range n).foldl (fun m _ => (op m).getD m) m

/-- `run_bench` of `op`, which succeeds or fails by its arguments, whatever the
memories hold, and fails where the operations of its batch before it, none of them
polled, fill the send queue. The effect of each is there by the time it is polled;
of those that are not, `landed` are carried out before the queue pair is gone. -/
def timed (host : Host) (clock : Nat → Nat) (landed : Nat) (op : Mems UInt8 → Option (Mems UInt8)) (slotSize : Nat)
    (cfg : Bench.Config) (m : Mems UInt8) : Mems UInt8 × Bool :=
  let env : Bench.Env :=
    ⟨clock, fun i => (op m).isSome && decide (i % cfg.depth.1 < host.sendQueue), fun _ => true⟩
  -- `latencies(iters)` throws for a negative `iters`, and for want of memory.
  if host.alloc (8 * cfg.iters.toNat) = false then (m, false)
  else
    match Bench.runBench env slotSize cfg.iters cfg.depth with
    | .error .failed => (carryOut op (min landed host.sendQueue) m, false)
    | .error _ => (m, false)
    | .ok report => (carryOut op (Bench.posts report.trace).length m, true)

/-- What `main` does between `kv_alloc` and `kv_free`: the check of the data path
and the two benchmarks. -/
def dataPath (host : Host) (clock : Nat → Nat) (landed : Nat) (cfg : Bench.Config) (mr : Mr) (remote : KVRemote)
    (slotIdx : Int) (m : Mems UInt8) : Mems UInt8 × Bool :=
  let m := m.fillBuf remote.slotSize pattern
  match writeSlot mr remote slotIdx m with
  | none => (m, false)
  | some m =>
    let m := m.fillBuf remote.slotSize fun _ => 0
    match readSlot mr remote slotIdx m with
    | none => (m, false)
    | some m =>
      if ∀ i < remote.slotSize, m.buf i = pattern i then
        match timed host clock landed (writeSlot mr remote slotIdx) remote.slotSize cfg m with
        | (m, false) => (m, false)
        | (m, true) => timed host clock landed (readSlot mr remote slotIdx) remote.slotSize cfg m
      else (m, false)

/-- The destructors of `main` end the data transport, and then close the control
connection. -/
def leaveClient (ret : Int) (m : Mems UInt8) : Program Exit := .close .ctrl (.ret (.client ret m))

/-- `main` of `kv_bench`, against a slab registered as `mr`. -/
def benchMain (host : Host) (clock : Nat → Nat) (landed : Nat) (cfg : Bench.Config) (mr : Mr) (info : ConnInfo)
    (pad : Fin 4 → UInt8) (buf : CtrlBuf) (m : Mems UInt8) : Program Exit := do
  match ← callCtrl .handshakeMeta buf with
  | some (buf, .shape shape) =>
    if shape.slotSize = 0 ∨ host.alloc shape.slotSize = false ∨ host.reg shape.slotSize = false then leaveClient 1 m
    else
      let m := m.fillBuf shape.slotSize fun _ => 0
      match ← oobConnect pad info with
      | none => leaveClient 1 m
      | some peer =>
        let remote : KVRemote := ⟨peer.addr.toNat, peer.rkey.toNat, shape.slotSize, shape.numSlots⟩
        match ← callCtrl .kvAlloc buf with
        | some (buf, .int slotIdx) =>
          if slotIdx < 0 ∨ slotIdx ≥ remote.numSlots then leaveClient 1 m
          else
            match dataPath host clock landed cfg mr remote slotIdx m with
            | (m, false) => leaveClient 1 m
            | (m, true) =>
              match ← callCtrl (.kvFree slotIdx) buf with
              | none => leaveClient 1 m
              | some _ => leaveClient 0 m
        | _ => leaveClient 1 m
  | _ => leaveClient 1 m

/-! ## Message by message -/

section Messages

variable {fin : Conn × Bool → Bool} {b : Bool} {x y : Exit} {cb sb : CtrlBuf}

theorem length_recv {bs : List UInt8} (hb : cb.length = CtrlBuf.size) (h : bs.length ≤ CtrlBuf.size) :
    (put cb 0 bs).length = CtrlBuf.size := by
  rw [length_put (by omega), hb]

variable (cb) in
theorem take_recv {bs : List UInt8} {n : Nat} (h : bs.length = n) : (put cb 0 bs).take n = bs := by
  have ht := take_put cb bs (Nat.zero_le _)
  rw [List.take_zero, List.nil_append, Nat.zero_add] at ht
  rwa [h] at ht

theorem sendCtrl_bind {ρ : Type} {len : Nat} {f : Bool → Program ρ} (h : Tcp.inBounds CtrlBuf.size len 0 = true) :
    sendCtrl len cb >>= f = .send .ctrl (cb.take len) (f true) := by
  rw [sendCtrl, if_pos h]
  rfl

theorem recvCtrl_bind {ρ : Type} {len : Nat} {f : Option CtrlBuf → Program ρ}
    (h : Tcp.inBounds CtrlBuf.size len 0 = true) :
    recvCtrl len cb >>= f = .recv .ctrl len fun bs => f (bs.map (put cb 0)) := by
  rw [recvCtrl, if_pos h]
  rfl

theorem callCtrl_bind {ρ : Type} {c : Call} {f : Option (CtrlBuf × Reply) → Program ρ} (h : cb.length = CtrlBuf.size) :
    callCtrl c cb >>= f = .send .ctrl c.bytes (.recv .ctrl c.recvLen fun
      | none => f none
      | some bs => f ((c.decode (put (c.encode cb) 0 bs)).map fun r => (put (c.encode cb) 0 bs, r))) := by
  unfold callCtrl
  simp only [sendCtrl_bind (sendLen_inBounds c), recvCtrl_bind (recvLen_inBounds c), (sends_encode c h).1,
    Proc.send_bind, Proc.recv_bind]
  congr 2
  funext bs
  cases bs <;> rfl

theorem turnCtrl_bind {ρ : Type} {next : KVPool → CtrlBuf → Program (Option (Int × KVPool))} {pool : KVPool}
    {f : Option (Int × KVPool) → Program ρ} :
    turnCtrl next pool sb >>= f = .recv .ctrl CtrlBuf.sizeofMsg fun
      | none => f (some (0, pool))
      | some bs => replyCtrl next pool (put sb 0 bs)
          (handle pool ⟨CtrlBuf.msg (put sb 0 bs) 0, CtrlBuf.msg (put sb 0 bs) 1⟩) >>= f := by
  unfold turnCtrl
  rw [recvCtrl_bind (by decide), Proc.recv_bind]
  congr 1
  funext bs
  cases bs <;> rfl

theorem replyCtrl_bind {ρ : Type} {next : KVPool → CtrlBuf → Program (Option (Int × KVPool))} {pool pool' : KVPool}
    {reply : Int} {f : Option (Int × KVPool) → Program ρ} :
    replyCtrl next pool sb (.ok (pool', reply)) >>= f =
      .send .ctrl (intBytes reply) (next pool' (CtrlBuf.setMsg 0 reply sb) >>= f) := by
  have hbytes : (CtrlBuf.setMsg 0 reply sb).take CtrlBuf.sizeofInt = intBytes reply := CtrlBuf.take_setMsg
  simp only [replyCtrl]
  rw [sendCtrl_bind (by decide), hbytes, Proc.send_bind]

/-- The two `handshake_meta`. -/
theorem meets_handshake {shape : KVMeta} {k : Option CtrlBuf → Program Exit}
    {j : Option (CtrlBuf × Reply) → Program Exit} (hc : fin (.ctrl, !b) = false) (hs : fin (.ctrl, b) = false)
    (hcb : cb.length = CtrlBuf.size) (hsb : sb.length = CtrlBuf.size) (hn : IsInt shape.numSlots)
    (hsize : shape.slotSize < 2 ^ 64)
    (h : ∀ cb sb : CtrlBuf, cb.length = CtrlBuf.size → sb.length = CtrlBuf.size →
      Meets fin b (k (some sb)) (j (some (cb, .shape shape))) x y) :
    Meets fin b (handshakeMeta shape sb >>= k) (callCtrl .handshakeMeta cb >>= j) x y := by
  have hmsg : CtrlBuf.msg (put sb 0 (Call.bytes .handshakeMeta)) 0 = KV_MSG_META :=
    CtrlBuf.msg_zero_of_take (by decide) (take_recv sb (by rw [Call.length_bytes]; rfl))
  have hsb' : (put sb 0 (Call.bytes .handshakeMeta)).length = CtrlBuf.size :=
    length_recv hsb (by rw [Call.length_bytes]; decide)
  have hmlen := CtrlBuf.length_setMeta (m := shape) hsb'
  have hall : (CtrlBuf.setMeta shape (put sb 0 (Call.bytes .handshakeMeta))).take CtrlBuf.sizeofMeta =
      CtrlBuf.setMeta shape (put sb 0 (Call.bytes .handshakeMeta)) := List.take_of_length_le (by rw [hmlen]; decide)
  have hdec : Call.decode .handshakeMeta
      (put (Call.encode .handshakeMeta cb) 0 (CtrlBuf.setMeta shape (put sb 0 (Call.bytes .handshakeMeta)))) =
        some (.shape shape) := by
    have hrecv := take_recv (Call.encode .handshakeMeta cb) hmlen
    have hlen := length_recv (sends_encode .handshakeMeta hcb).2 hmlen.le
    rw [List.take_of_length_le hlen.le] at hrecv
    rw [Call.decode, hrecv, CtrlBuf.setMeta_eq hsb', KVMeta.ofBytes_bytes hn hsize]
    rw [field, List.length_take, List.length_drop, hsb']
    rfl
  rw [callCtrl_bind hcb, handshakeMeta, recvCtrl_bind (by decide), Proc.recv_bind]
  refine .reply hc (Call.length_bytes _) ?_
  simp only [Option.map_some, hmsg, ne_eq, not_true_eq_false, if_false, Proc.send_bind, Proc.pure_bind,
    sendCtrl_bind (show Tcp.inBounds CtrlBuf.size CtrlBuf.sizeofMeta 0 = true by decide)]
  rw [hall]
  refine .message hs hmlen ?_
  simp only [hdec, Option.map_some]
  exact h _ _ (length_recv (sends_encode .handshakeMeta hcb).2 hmlen.le) hmlen

/-- A request in range, and its turn of `serve`. -/
theorem meets_request {c : Call} {m : Msg} {pool pool' : KVPool} {reply : Int} {fuel : Nat}
    {k : Option (Int × KVPool) → Program Exit} {j : Option (CtrlBuf × Reply) → Program Exit}
    (hc : fin (.ctrl, !b) = false) (hs : fin (.ctrl, b) = false) (hcb : cb.length = CtrlBuf.size)
    (hsb : sb.length = CtrlBuf.size) (hr : c.InRange pool.numSlots) (hn : IsInt pool.numSlots)
    (hf : ∀ i ∈ pool.freeList, IsInt i) (hm : c.request = some m) (hh : handle pool m = .ok (pool', reply))
    (h : ∀ cb sb : CtrlBuf, cb.length = CtrlBuf.size → sb.length = CtrlBuf.size →
      Meets fin b (serveCtrl fuel pool' sb >>= k) (j (some (cb, .int reply))) x y) :
    Meets fin b (serveCtrl (fuel + 1) pool sb >>= k) (callCtrl c cb >>= j) x y := by
  obtain ⟨p, i, hh', ⟨htype, hpay⟩, hint, -, -, hbytes, hack⟩ := handle_inRange hr hm hn hf
  cases hh'.symm.trans hh
  obtain ⟨-, -, -, -, hsend, hrecv⟩ := hr.cases
  have hclen : c.bytes.length = CtrlBuf.sizeofMsg := (Call.length_bytes c).trans hsend
  have hsb' : (put sb 0 c.bytes).length = CtrlBuf.size := length_recv hsb (by rw [hclen]; decide)
  obtain ⟨hm0, hm1⟩ := CtrlBuf.msg_of_take htype hpay ((take_recv sb hclen).trans hbytes)
  have hslen : (CtrlBuf.setMsg 0 reply (put sb 0 c.bytes)).length = CtrlBuf.size := by
    rw [CtrlBuf.length_setMsg (by rw [hsb']; decide), hsb']
  have hdec : c.decode (put (c.encode cb) 0 (intBytes reply)) = some (.int reply) :=
    decode_int hr (CtrlBuf.msg_zero_of_take hint (take_recv _ (length_intBytes reply))) hack
  rw [callCtrl_bind hcb, serveCtrl, turnCtrl_bind]
  refine .reply hc hclen ?_
  simp only [hm0, hm1, hh, replyCtrl_bind]
  refine .message hs ((length_intBytes reply).trans hrecv.symm) ?_
  simp only [hdec, Option.map_some]
  exact h _ _ (length_recv (sends_encode c hcb).2 (by rw [length_intBytes]; decide)) hslen

/-- The two ends of `exchange_buf`. -/
theorem meets_exchange {spad cpad : Fin 4 → UInt8} {server client : ConnInfo} {k j : Option ConnInfo → Program Exit}
    (hc : fin (.oob, !b) = false) (hs : fin (.oob, b) = false)
    (h : Meets (Function.update (Function.update fin (.oob, b) true) (.oob, !b) true) b (k (some client))
      (j (some server)) x y) :
    Meets fin b (oobAccept spad server >>= k) (oobConnect cpad client >>= j) x y := by
  refine .message hs (ConnInfo.length_bytes ..) ?_
  refine .reply hc (ConnInfo.length_bytes ..) ?_
  refine .close hs (.closed ?_ ?_)
  · rw [Function.update_of_ne (by simp), hc]
  · simp only [Option.map_some, ConnInfo.ofBytes_bytes]
    exact h

/-- The client closes the control connection, and `serve` takes it for done. -/
theorem meets_leave {pool : KVPool} {fuel : Nat} {k : Option (Int × KVPool) → Program Exit}
    (hc : fin (.ctrl, !b) = false) (hs : fin (.ctrl, b) = false) (h : k (some (0, pool)) = .close .ctrl (.ret x)) :
    Meets fin b (serveCtrl (fuel + 1) pool sb >>= k) (.close .ctrl (.ret y)) x y := by
  rw [serveCtrl, turnCtrl_bind]
  refine .closed hc (.eof (by rw [Function.update_self]) (by decide) ?_)
  simp only [h]
  refine .close ?_ .ret
  rw [Function.update_of_ne (by simp), Function.update_of_ne (by simp), hs]

end Messages

/-! ## The data path -/

section Data

variable {host : Host} {clock : Nat → Nat} {landed : Nat} {cfg : Bench.Config}

theorem batch_isOk {env : Bench.Env} {i n : Nat} (hop : ∀ k < n, env.op (i + k)) (hpoll : ∀ i, env.poll i)
    (s : Bench.State) : ∃ s', Bench.batch env i n s = .ok s' := by
  unfold Bench.batch Bench.timeNow
  simp only [Bench.forEach_eq hop, Bench.forEach_eq (fun k _ => hpoll (i + k)), bind, Except.bind, pure, Except.pure]
  exact ⟨_, rfl⟩

theorem batch_failed {env : Bench.Env} {i k n : Nat} (hk : k < n) (hop : env.op (i + k) = false) (s : Bench.State) :
    Bench.batch env i n s = .error .failed := by
  have hposts : ∀ e s, Bench.forEach n (fun k => env.op (i + k)) e s = .error .failed :=
    fun e s => Bench.forEach_failed hk hop e s
  unfold Bench.batch Bench.timeNow
  simp only [hposts, bind, Except.bind]

theorem loop_isOk {env : Bench.Env} {total i : Nat} {depth : Bench.Depth} (hop : ∀ j < total, env.op j)
    (hpoll : ∀ i, env.poll i) (hi : depth.1 ∣ i) (hn : Bench.nextMultiple depth.1 total ≤ intMax) (s : Bench.State) :
    ∃ s', Bench.loop env total depth i s = .ok s' := by
  induction hk : total - i using Nat.strong_induction_on generalizing i s with
  | _ k ih =>
    have hd := depth.2.1
    unfold Bench.loop
    by_cases hlt : i < total
    · have hle := Bench.le_nextMultiple hd hi hlt
      obtain ⟨s₁, hs₁⟩ := batch_isOk (n := min depth.1 (total - i)) (fun k hk => hop (i + k) (by omega)) hpoll s
      rw [if_pos hlt, hs₁]
      simp only [bind, Except.bind]
      rw [if_pos (by omega)]
      exact ih (total - (i + depth.1)) (by omega) (Nat.dvd_add hi (Nat.dvd_refl _)) s₁ rfl
    · rw [if_neg hlt]
      exact ⟨s, rfl⟩

/-- A benchmark all of whose operations succeed returns, where its counter does
not overflow. -/
theorem runBench_isOk {env : Bench.Env} (hop : ∀ i < kWarmup + cfg.iters.toNat, env.op i) (hpoll : ∀ i, env.poll i)
    (slotSize : Nat) (h0 : 0 ≤ cfg.iters) (hn : Bench.nextMultiple cfg.depth.1 (kWarmup + cfg.iters.toNat) ≤ intMax) :
    ∃ r, Bench.runBench env slotSize cfg.iters cfg.depth = .ok r := by
  obtain ⟨s, hs⟩ := loop_isOk hop hpoll (Nat.dvd_zero cfg.depth.1) hn {}
  have hle := Bench.self_le_nextMultiple (n := kWarmup + cfg.iters.toNat) cfg.depth.2.1
  unfold Bench.runBench
  rw [if_neg (by omega), if_neg (by omega)]
  simp only [hs, bind, Except.bind, pure, Except.pure]
  exact ⟨_, rfl⟩

theorem runBench_negative {env : Bench.Env} {slotSize : Nat} (h : cfg.iters < 0) :
    Bench.runBench env slotSize cfg.iters cfg.depth = .error .lengthError := by
  unfold Bench.runBench
  rw [if_pos h]
  rfl

/-- An operation of the first batch that fails ends it. -/
theorem runBench_failed {env : Bench.Env} {k : Nat} (hk : k < cfg.depth.1) (hlt : k < kWarmup + cfg.iters.toNat)
    (hop : env.op k = false) (slotSize : Nat) (h0 : 0 ≤ cfg.iters)
    (hn : Bench.nextMultiple cfg.depth.1 (kWarmup + cfg.iters.toNat) ≤ intMax) :
    Bench.runBench env slotSize cfg.iters cfg.depth = .error .failed := by
  have hle := Bench.self_le_nextMultiple (n := kWarmup + cfg.iters.toNat) cfg.depth.2.1
  unfold Bench.runBench
  rw [if_neg (by omega), if_neg (by omega), Bench.loop, if_pos (by omega)]
  rw [batch_failed (k := k) (by omega) (by rwa [Nat.zero_add])]
  rfl

/-- `run_bench` gets through: its vector can be allocated, and no batch has more
operations than the send queue takes. -/
def RunsThrough (host : Host) (cfg : Bench.Config) : Prop :=
  0 ≤ cfg.iters ∧ host.alloc (8 * cfg.iters.toNat) = true ∧
    (cfg.depth.1 ≤ host.sendQueue ∨ kWarmup + cfg.iters.toNat ≤ host.sendQueue)

instance : Decidable (RunsThrough host cfg) := inferInstanceAs (Decidable (_ ∧ _))

theorem carryOut_keeps {op : Mems UInt8 → Option (Mems UInt8)} {P : Mems UInt8 → Prop} {m : Mems UInt8} (n : Nat)
    (hop : ∀ m, P m → ∃ m', op m = some m' ∧ P m') (hm : P m) : P (carryOut op n m) := by
  unfold carryOut
  induction List.range n generalizing m with
  | nil => exact hm
  | cons i is ih =>
    obtain ⟨m', hm', hp⟩ := hop m hm
    rw [List.foldl_cons, hm']
    exact ih hp

/-- What every operation of a benchmark keeps holds after it. -/
theorem timed_keeps {op : Mems UInt8 → Option (Mems UInt8)} {P : Mems UInt8 → Prop} {m : Mems UInt8} (host : Host)
    (clock : Nat → Nat) (landed slotSize : Nat) (hop : ∀ m, P m → ∃ m', op m = some m' ∧ P m')
    (hn : Bench.nextMultiple cfg.depth.1 (kWarmup + cfg.iters.toNat) ≤ intMax) (hm : P m) :
    ∃ m', timed host clock landed op slotSize cfg m = (m', decide (RunsThrough host cfg)) ∧ P m' := by
  have hsome : (op m).isSome = true := by
    obtain ⟨m', hm', -⟩ := hop m hm
    rw [hm']
    rfl
  unfold timed
  simp only [hsome, Bool.true_and]
  by_cases ha : host.alloc (8 * cfg.iters.toNat) = false
  · exact ⟨m, by simp [RunsThrough, ha], hm⟩
  rw [if_neg ha]
  by_cases h0 : 0 ≤ cfg.iters
  swap
  · rw [runBench_negative (by omega)]
    exact ⟨m, by simp [RunsThrough, h0], hm⟩
  by_cases hq : cfg.depth.1 ≤ host.sendQueue ∨ kWarmup + cfg.iters.toNat ≤ host.sendQueue
  · -- No batch has more operations than the queue has room for.
    have hfit : ∀ i < kWarmup + cfg.iters.toNat, i % cfg.depth.1 < host.sendQueue := by
      intro i hi
      have hmod := Nat.mod_lt i cfg.depth.2.1
      have hle := Nat.mod_le i cfg.depth.1
      omega
    have hops : ∀ i < kWarmup + cfg.iters.toNat,
        Bench.Env.op ⟨clock, fun i => decide (i % cfg.depth.1 < host.sendQueue), fun _ => true⟩ i :=
      fun i hi => decide_eq_true (hfit i hi)
    obtain ⟨r, hr⟩ := runBench_isOk hops (fun _ => rfl) slotSize h0 hn
    rw [hr]
    refine ⟨_, ?_, carryOut_keeps (Bench.posts r.trace).length hop hm⟩
    simp [RunsThrough, h0, ha, hq]
  · -- The first batch has one more than that.
    have hmod : host.sendQueue % cfg.depth.1 = host.sendQueue := Nat.mod_eq_of_lt (by omega)
    rw [runBench_failed (k := host.sendQueue) (by omega) (by omega) (by simp [hmod]) slotSize h0 hn]
    refine ⟨_, ?_, carryOut_keeps (min landed host.sendQueue) hop hm⟩
    simp [RunsThrough, hq]

/-- The slot holds the pattern, and so does the buffer; the rest of the server's
memory is as it was. -/
structure Written (L : Layout) (i : Int) (m₀ m : Mems UInt8) : Prop where
  buf : m.buf.read 0 L.slot = (List.range L.slot).map pattern
  slot : m.server.read (L.remote.remoteAddr i) L.slot = (List.range L.slot).map pattern
  rest : ∀ a, a < L.remote.remoteAddr i ∨ L.remote.remoteAddr i + L.slot ≤ a → m.server a = m₀.server a

variable {L : Layout} {i : Int} {m₀ m : Mems UInt8}

theorem byte_of_read {mem : Mem UInt8} {f : Nat → UInt8} {a n j : Nat} (h : mem.read a n = (List.range n).map f)
    (hj : j < n) : mem (a + j) = f j := by
  have hget := Mem.getElem?_read (m := mem) (a := a) hj
  rw [h, List.getElem?_map, List.getElem?_range hj] at hget
  exact (Option.some.inj hget).symm

theorem read_fillBuf (n : Nat) (f : Nat → UInt8) : (m.fillBuf n f).buf.read 0 n = (List.range n).map f := by
  simp only [Mem.read, Mems.fillBuf, Nat.zero_add]
  refine List.map_congr_left fun j hj => ?_
  rw [if_pos (List.mem_range.mp hj)]

variable (m₀) in
/-- A write of the pattern, whatever the slot held. -/
theorem written_of_write (hi : 0 ≤ i ∧ i < L.num) (hbuf : m.buf.read 0 L.slot = (List.range L.slot).map pattern)
    (hrest : ∀ a, a < L.remote.remoteAddr i ∨ L.remote.remoteAddr i + L.slot ≤ a → m.server a = m₀.server a) :
    ∃ m', writeSlot L.mr L.remote i m = some m' ∧ Written L i m₀ m' := by
  refine ⟨_, Layout.writeSlot_eq hi, hbuf, ?_, fun a ha => ?_⟩
  · exact (Mem.read_write Mem.length_read).trans hbuf
  · refine (Mem.write_outside ?_).trans (hrest a ha)
    rw [Mem.length_read]
    exact ha

variable (m₀) in
/-- A read of the slot, whatever the buffer held. -/
theorem written_of_read (hi : 0 ≤ i ∧ i < L.num)
    (hslot : m.server.read (L.remote.remoteAddr i) L.slot = (List.range L.slot).map pattern)
    (hrest : ∀ a, a < L.remote.remoteAddr i ∨ L.remote.remoteAddr i + L.slot ≤ a → m.server a = m₀.server a) :
    ∃ m', readSlot L.mr L.remote i m = some m' ∧ Written L i m₀ m' := by
  refine ⟨_, Layout.readSlot_eq hi, ?_, hslot, hrest⟩
  simp only [hslot]
  exact Mem.read_write (by simp)

/-- The check of the data path passes, and the slot ends with the pattern. -/
theorem dataPath_written (hi : 0 ≤ i ∧ i < L.num)
    (hn : Bench.nextMultiple cfg.depth.1 (kWarmup + cfg.iters.toNat) ≤ intMax) :
    ∃ m', dataPath host clock landed cfg L.mr L.remote i m = (m', decide (RunsThrough host cfg)) ∧
      Written L i m m' := by
  obtain ⟨m₁, hm₁, hw₁⟩ := written_of_write m (m := m.fillBuf L.slot pattern) hi (read_fillBuf _ _) fun _ _ => rfl
  obtain ⟨m₂, hm₂, hw₂⟩ := written_of_read m (m := m₁.fillBuf L.slot fun _ => 0) hi hw₁.slot hw₁.rest
  have hcheck : ∀ j < L.slot, m₂.buf j = pattern j := by
    intro j hj
    have hbyte := byte_of_read hw₂.buf hj
    rwa [Nat.zero_add] at hbyte
  obtain ⟨m₃, hm₃, hw₃⟩ := timed_keeps host clock landed L.slot
    (fun m hm => written_of_write _ hi hm.buf hm.rest) hn hw₂
  obtain ⟨m₄, hm₄, hw₄⟩ := timed_keeps host clock landed L.slot
    (fun m hm => written_of_read _ hi hm.slot hm.rest) hn hw₃
  have hsize : L.remote.slotSize = L.slot := rfl
  unfold dataPath
  simp only [hsize, hm₁, hm₂, hm₃]
  rw [if_pos hcheck]
  by_cases hrun : RunsThrough host cfg
  · simp only [hrun, decide_true] at hm₄ ⊢
    exact ⟨m₄, hm₄, hw₄⟩
  · simp only [hrun, decide_false]
    exact ⟨m₃, rfl, hw₃⟩

end Data

/-! ## Both programs -/

/-- The server gets its slab and its free list, and can register the slab. -/
def Host.Serves (host : Host) (cfg : Config) : Prop :=
  host.resize (slabSize cfg) ≠ none ∧ cfg.numSlots.toNat ≤ host.freeList ∧ host.reg (slabSize cfg) = true

instance (host : Host) (cfg : Config) : Decidable (host.Serves cfg) := inferInstanceAs (Decidable (_ ∧ _ ∧ _))

/-- How the programs end: `x` the server and `y` the client, which started over
the memories `m₀` with the slab at `base`. -/
structure Ends (shost chost : Host) (cfg : Config) (bench : Bench.Config) (base : Nat) (m₀ : Mems UInt8) (x y : Exit) :
    Prop where
  refused : ¬ shost.Serves cfg → (∃ pool, x = .server 1 pool) ∧ ∃ m, y = .client 1 m ∧ m.server = m₀.server
  served : shost.Serves cfg → ∃ m : Mems UInt8, ∃ slot,
    slot = base + (cfg.numSlots.toNat - 1) * cfg.slotSize ∧
    m.server.read slot cfg.slotSize = (List.range cfg.slotSize).map pattern ∧
    (∀ a, a < slot ∨ slot + cfg.slotSize ≤ a → m.server a = m₀.server a) ∧
    if RunsThrough chost bench then x = .server 0 ⟨cfg.numSlots, initFreeList cfg.numSlots.toNat⟩ ∧ y = .client 0 m
    else x = .server 0 ⟨cfg.numSlots, (initFreeList cfg.numSlots.toNat).dropLast⟩ ∧ y = .client 1 m

section Mains

variable {argv : List String} {shost chost : Host} {cfg : Config} {bench : Bench.Config} {clock : Nat → Nat}
  {landed : Nat} {server client : ConnInfo} {spad cpad : Fin 4 → UInt8} {sb cb : CtrlBuf} {fuel : Nat} {m₀ : Mems UInt8}

theorem configParse_bounds (h : configParse argv = some cfg) :
    0 < cfg.numSlots ∧ IsInt cfg.numSlots ∧ cfg.slotSize ≠ 0 ∧ cfg.slotSize < 2 ^ 64 := by
  simp only [configParse] at h
  split at h
  next port numSlots slotSize rest =>
    split at h
    · cases h
    next hacc =>
      cases h
      refine ⟨by simp only; omega, atoi_isInt _, by simp only; omega, ?_⟩
      simp only [intToSizeT]
      omega
  · cases h

theorem initFreeList_getLast {n : Nat} (h : 0 < n) : (initFreeList n).getLast? = some ((n - 1 : Nat) : Int) := by
  obtain ⟨k, rfl⟩ : ∃ k, n = k + 1 := ⟨n - 1, by omega⟩
  simp [initFreeList, List.range_succ]

theorem handle_alloc {n : Nat} (h : 0 < n) :
    handle ⟨n, initFreeList n⟩ ⟨KV_MSG_ALLOC, 0⟩ = .ok (⟨n, (initFreeList n).dropLast⟩, ((n - 1 : Nat) : Int)) := by
  simp only [handle, if_true, initFreeList_getLast h]

theorem handle_free_last {n : Nat} (h : 0 < n) :
    handle ⟨n, (initFreeList n).dropLast⟩ ⟨KV_MSG_FREE, ((n - 1 : Nat) : Int)⟩ = .ok (⟨n, initFreeList n⟩, 0) := by
  have hne : KV_MSG_FREE ≠ KV_MSG_ALLOC := by decide
  have hrange : ¬(((n - 1 : Nat) : Int) < 0 ∨ ((n - 1 : Nat) : Int) ≥ n) := by omega
  simp only [handle, if_neg hne, if_true, if_neg hrange,
    List.dropLast_append_getLast? _ (initFreeList_getLast h)]

/-- The client's buffer is to be had and registered. -/
def Host.Buffers (host : Host) (slotSize : Nat) : Prop := host.alloc slotSize = true ∧ host.reg slotSize = true

theorem Host.resize_eq_some {host : Host} {n k : Nat} (h : host.resize n = some k) : k = n := by
  simp only [Host.resize, KvCache.resize] at h
  split at h
  · split at h
    · cases h
    · exact (Option.some.inj h).symm
  · cases h

/-- The server is gone, its listening socket with it. -/
theorem meets_gone {pool : KVPool} {m : Mems UInt8} {j : Option ConnInfo → Program Exit} (hj : j none = leaveClient 1 m) :
    Meets (fun _ => false) true (leaveServer 1 pool) (oobConnect cpad client >>= j) (.server 1 pool) (.client 1 m) := by
  refine .close rfl (.close rfl (.swap (.eof rfl (by decide) (.close rfl ?_))))
  change Meets _ _ (j none) _ _ _
  rw [hj]
  exact .close rfl .ret

/-- A server without its slab or its free list, or with a slab it cannot register,
is gone before the exchange. -/
theorem meets_refused (h : configParse argv = some cfg) (hc : chost.Buffers cfg.slotSize) (hno : ¬ shost.Serves cfg)
    (hsb : sb.length = CtrlBuf.size) (hcb : cb.length = CtrlBuf.size) (mr : Mr) :
    ∃ pool, Meets (fun _ => false) true (serverMain shost fuel cfg server spad sb)
      (benchMain chost clock landed bench mr client cpad cb m₀)
      (.server 1 pool) (.client 1 (m₀.fillBuf cfg.slotSize fun _ => 0)) := by
  obtain ⟨-, hint, hpos, hlt⟩ := configParse_bounds h
  have hbuf : ¬(cfg.slotSize = 0 ∨ chost.alloc cfg.slotSize = false ∨ chost.reg cfg.slotSize = false) := by
    simp [hpos, hc.1, hc.2]
  unfold serverMain benchMain
  cases hres : shost.resize (slabSize cfg) with
  | none =>
    refine ⟨⟨cfg.numSlots, []⟩, meets_handshake rfl rfl hcb hsb hint hlt fun cb sb _ _ => ?_⟩
    simp only [if_neg hbuf]
    exact meets_gone rfl
  | some k =>
    obtain rfl := Host.resize_eq_some hres
    refine ⟨⟨cfg.numSlots, initFreeList (min cfg.numSlots.toNat shost.freeList)⟩, meets_handshake rfl rfl hcb hsb hint hlt fun cb sb _ _ => ?_⟩
    simp only [if_neg hbuf]
    by_cases hlist : shost.freeList < cfg.numSlots.toNat
    · simp only [hlist, if_true]
      exact meets_gone rfl
    · have hreg : shost.reg (slabSize cfg) = false := by
        rw [← Bool.not_eq_true]
        intro hyes
        exact hno ⟨by simp [hres], by omega, hyes⟩
      simp only [hlist, if_false, hreg, or_true, if_true]
      exact meets_gone rfl

/-- A server that has its slab serves the whole benchmark. -/
theorem meets_served {n : Nat} (hn : cfg.numSlots = n) (hnlt : n < 2 ^ 31) (hn0 : 0 < n) (hpos : 0 < cfg.slotSize)
    (hlt : cfg.slotSize < 2 ^ 31) (hsize : slabSize cfg = n * cfg.slotSize)
    (hyes : shost.Serves cfg) (hc : chost.Buffers cfg.slotSize) (hbase : server.addr.toNat + slabSize cfg ≤ 2 ^ 64)
    (hiters : Bench.nextMultiple bench.depth.1 (kWarmup + bench.iters.toNat) ≤ intMax)
    (hsb : sb.length = CtrlBuf.size) (hcb : cb.length = CtrlBuf.size) (hfuel : 3 ≤ fuel) :
    ∃ x y, Meets (fun _ => false) true (serverMain shost fuel cfg server spad sb)
        (benchMain chost clock landed bench ⟨server.addr.toNat, slabSize cfg, server.rkey.toNat⟩ client cpad cb m₀) x y ∧
      Ends shost chost cfg bench server.addr.toNat m₀ x y := by
  obtain ⟨hsome, hlist, hreg⟩ := hyes
  obtain ⟨k, hres⟩ := Option.ne_none_iff_exists'.mp hsome
  obtain rfl := Host.resize_eq_some hres
  let L : Layout := ⟨server.addr.toNat, server.rkey.toNat, n, cfg.slotSize, hpos, hlt, hnlt, hsize ▸ hbase⟩
  have hslot : 0 ≤ ((n - 1 : Nat) : Int) ∧ ((n - 1 : Nat) : Int) < L.num := by
    simp only [L]
    omega
  have hint : IsInt cfg.numSlots := ⟨by omega, by omega⟩
  have hdata : ∃ m, dataPath chost clock landed bench ⟨server.addr.toNat, slabSize cfg, server.rkey.toNat⟩
      ⟨server.addr.toNat, server.rkey.toNat, cfg.slotSize, cfg.numSlots⟩ ((n - 1 : Nat) : Int)
        (m₀.fillBuf cfg.slotSize fun _ => 0) = (m, decide (RunsThrough chost bench)) ∧
      Written L ((n - 1 : Nat) : Int) (m₀.fillBuf cfg.slotSize fun _ => 0) m := by
    rw [hsize, hn]
    exact dataPath_written (L := L) hslot hiters
  obtain ⟨m, hdata, hw⟩ := hdata
  obtain ⟨f, rfl⟩ : ∃ f, fuel = f + 1 + 1 + 1 := ⟨fuel - 3, by omega⟩
  have hslab : ¬(slabSize cfg = 0 ∨ shost.reg (slabSize cfg) = false) := by
    have hmul := Nat.mul_pos hn0 hpos
    simp only [hreg, reduceCtorEq, or_false]
    omega
  have hbuf : ¬(cfg.slotSize = 0 ∨ chost.alloc cfg.slotSize = false ∨ chost.reg cfg.slotSize = false) := by
    simp [hpos.ne', hc.1, hc.2]
  have hfree : ∀ i ∈ initFreeList n, IsInt i := by
    intro i hi
    have := mem_initFreeList.mp hi
    exact ⟨by omega, by omega⟩
  have haddr : L.remote.remoteAddr ((n - 1 : Nat) : Int) = server.addr.toNat + (n - 1) * cfg.slotSize := by
    rw [Layout.remoteAddr_eq hslot, Int.toNat_natCast]
  refine ⟨.server 0 ⟨n, if RunsThrough chost bench then initFreeList n else (initFreeList n).dropLast⟩,
    .client (if RunsThrough chost bench then 0 else 1) m, ?_, fun hno => absurd ⟨hsome, hlist, hreg⟩ hno, fun _ => ?_⟩
  · unfold serverMain benchMain
    refine meets_handshake rfl rfl hcb hsb hint (by simp only; omega) fun cb sb hcb hsb => ?_
    simp only [hres, if_neg (Nat.not_lt.mpr hlist), if_neg hslab, if_neg hbuf]
    refine meets_exchange rfl rfl ?_
    simp only [Nat.min_eq_left hlist]
    simp only [hn, Int.toNat_natCast]
    refine meets_request (c := .kvAlloc) rfl rfl hcb hsb trivial (hn ▸ hint) hfree rfl (handle_alloc hn0)
      fun cb sb hcb hsb => ?_
    simp only [hn] at hdata
    have hrange : ¬(((n - 1 : Nat) : Int) < 0 ∨ ((n - 1 : Nat) : Int) ≥ n) := by omega
    simp only [if_neg hrange, hdata]
    by_cases hrun : RunsThrough chost bench
    · simp only [hrun, decide_true, if_true]
      refine meets_request (c := .kvFree ((n - 1 : Nat) : Int)) rfl rfl hcb hsb hslot (hn ▸ hint)
        (fun i hi => hfree i ((List.dropLast_sublist _).subset hi)) rfl (handle_free_last hn0) fun cb sb hcb hsb => ?_
      exact meets_leave rfl rfl rfl
    · simp only [hrun, decide_false, if_false]
      exact meets_leave rfl rfl rfl
  · refine ⟨m, _, rfl, ?_, fun a ha => ?_, ?_⟩
    · rw [hn, Int.toNat_natCast, ← haddr]
      exact hw.slot
    · rw [hn, Int.toNat_natCast, ← haddr] at ha
      exact hw.rest a ha
    · by_cases hrun : RunsThrough chost bench
      · simp [hrun, hn]
      · simp [hrun, hn]

variable (shost chost bench clock landed server client spad cpad sb cb fuel m₀) in
/-- Both programs, with any bytes in their unions, over connections that hold any
positive number of bytes, where the client has its buffer: the server exits with 0
and the pool it started with, the client with 0 and the pattern in the last slot
and nowhere else, in every run, and every run gets there. A slab or a free list that
cannot be allocated, or a slab that cannot be registered, ends both with 1. A benchmark that does not run through
ends the client with 1, its slot never freed. -/
theorem kv_end_to_end (h : configParse argv = some cfg) (hc : chost.Buffers cfg.slotSize)
    (hbase : server.addr.toNat + slabSize cfg ≤ 2 ^ 64)
    (hiters : Bench.nextMultiple bench.depth.1 (kWarmup + bench.iters.toNat) ≤ intMax)
    (hsb : sb.length = CtrlBuf.size) (hcb : cb.length = CtrlBuf.size) (hfuel : 3 ≤ fuel) (cap : Conn × Bool → ℕ∞)
    (hcap : ∀ c, 1 ≤ cap c) :
    ∃ x y, Ends shost chost cfg bench server.addr.toNat m₀ x y ∧
      ∀ t, Duplex.net.Steps cap (Duplex.start true (serverMain shost fuel cfg server spad sb)
          (benchMain chost clock landed bench ⟨server.addr.toNat, slabSize cfg, server.rkey.toNat⟩ client cpad cb m₀)) t →
        (∃ v, Duplex.net.Steps cap t v ∧ (v.node true).proc = .ret x ∧ (v.node false).proc = .ret y) ∧
        (∀ x', (t.node true).proc = .ret x' → x' = x) ∧ ∀ y', (t.node false).proc = .ret y' → y' = y := by
  have hmeets : ∃ x y, Meets (fun _ => false) true (serverMain shost fuel cfg server spad sb)
        (benchMain chost clock landed bench ⟨server.addr.toNat, slabSize cfg, server.rkey.toNat⟩ client cpad cb m₀) x y ∧
      Ends shost chost cfg bench server.addr.toNat m₀ x y := by
    by_cases hyes : shost.Serves cfg
    · rcases slabSize_cases h with hthrow | ⟨n, hn, hnlt, hpos, hlt, hsize⟩
      · -- Such a size no vector can have.
        exact absurd (by simp only [Host.resize, hthrow, ite_self]) hyes.1
      · obtain ⟨h0, -⟩ := configParse_bounds h
        exact meets_served hn hnlt (by omega) hpos hlt hsize hyes hc hbase hiters hsb hcb hfuel
    · obtain ⟨pool, hm⟩ := meets_refused h hc hyes hsb hcb _
      exact ⟨_, _, hm, fun _ => ⟨⟨pool, rfl⟩, _, rfl, rfl⟩, fun hserves => absurd hserves hyes⟩
  obtain ⟨x, y, hm, hends⟩ := hmeets
  refine ⟨x, y, hends, fun t ht => ⟨?_, ?_⟩⟩
  · exact hm.completes hcap ht
  · exact hm.returns ht

end Mains

/-- A machine that refuses nothing but a post to a full queue. -/
def plentiful : Host := ⟨fun _ => true, intMax, fun _ => true, raiQpMaxWr, by decide⟩

/-- Three slots of 16 bytes at address 4096, over connections of one byte: ten
iterations one by one, and a thousand at once, of which the send queue takes 128. -/
theorem kv_end_to_end_three_slots :
    let info : ConnInfo := ⟨4096, ⟨fun _ => 0⟩, 7, 1, 1⟩
    let start (bench : Bench.Config) := Duplex.start true
      (serverMain plentiful 3 ⟨12345, 3, 16⟩ info (fun _ => 0) (List.replicate 16 0))
      (benchMain plentiful (fun k => k) 0 bench ⟨4096, 48, 7⟩ ⟨0, ⟨fun _ => 0⟩, 9, 2, 2⟩ (fun _ => 0)
        (List.replicate 16 0) ⟨fun _ => 0, fun _ => 0⟩)
    (∃ v m, Duplex.net.Steps (fun _ => 1) (start { serverIp := "10.0.0.1", iters := 10 }) v ∧
      (v.node true).proc = .ret (.server 0 ⟨3, [0, 1, 2]⟩) ∧ (v.node false).proc = .ret (.client 0 m) ∧
        m.server 4128 = 7 ∧ m.server 4143 = 216 ∧ m.server 4127 = 0) ∧
    ∃ v m, Duplex.net.Steps (fun _ => 1) (start { serverIp := "10.0.0.1", iters := 1000, depth := ⟨1000, by decide⟩ }) v ∧
      (v.node true).proc = .ret (.server 0 ⟨3, [0, 1]⟩) ∧ (v.node false).proc = .ret (.client 1 m) ∧
        m.server 4128 = 7 := by
  intro info start
  have h : configParse ["kv_server", "12345", "3", "16"] = some ⟨12345, 3, 16⟩ := by decide
  have hrun (bench : Bench.Config) (hiters : Bench.nextMultiple bench.depth.1 (kWarmup + bench.iters.toNat) ≤ intMax) :=
    kv_end_to_end plentiful plentiful bench (fun k => k) 0 info ⟨0, ⟨fun _ => 0⟩, 9, 2, 2⟩ (fun _ => 0) (fun _ => 0)
      (List.replicate 16 0) (List.replicate 16 0) 3 ⟨fun _ => 0, fun _ => 0⟩ h ⟨rfl, rfl⟩ (by decide) hiters rfl rfl
      le_rfl (fun _ => 1) fun _ => le_rfl
  constructor
  · obtain ⟨x, y, hends, hruns⟩ := hrun { serverIp := "10.0.0.1", iters := 10 } (by decide)
    obtain ⟨⟨v, hv, hx, hy⟩, -⟩ := hruns _ .refl
    obtain ⟨m, slot, rfl, hslot, hrest, hexit⟩ := hends.served (by decide)
    obtain ⟨rfl, rfl⟩ := hexit
    have hbyte : ∀ j < 16, m.server (4128 + j) = pattern j := fun j hj => byte_of_read hslot hj
    exact ⟨v, m, hv, hx, hy, hbyte 0 (by decide), hbyte 15 (by decide), hrest 4127 (by decide)⟩
  · obtain ⟨x, y, hends, hruns⟩ := hrun { serverIp := "10.0.0.1", iters := 1000, depth := ⟨1000, by decide⟩ } (by decide)
    obtain ⟨⟨v, hv, hx, hy⟩, -⟩ := hruns _ .refl
    obtain ⟨m, slot, rfl, hslot, hrest, hexit⟩ := hends.served (by decide)
    obtain ⟨rfl, rfl⟩ := hexit
    exact ⟨v, m, hv, hx, hy, byte_of_read hslot (by decide : 0 < 16)⟩

end RdmaInfra.KvCache
