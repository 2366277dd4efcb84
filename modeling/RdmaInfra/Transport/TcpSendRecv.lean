/-
The send/recv test of `backend_compare` over TCP (`run_server_sendrecv`,
`run_client_sendrecv`).

Both sides bounce one buffer: the client sends it and waits for it to come back,
the server receives it and sends it on. `recv_async` is a blocking read here, so
all that keeps the two from waiting for each other is the order of the two calls
on each side. The number of round trips is each side's own `--iters`; a client
that leaves closes the connection, and the server's next receive fails.
-/
import RdmaInfra.Duplex
import RdmaInfra.BenchUtils
import RdmaInfra.Transit
import RdmaInfra.Transport.Tcp

namespace RdmaInfra.Transport.TcpSendRecv

open Duplex (Proc Meets)

variable {β : Type}

/-- A program over the one connection. -/
abbrev Program (β : Type) := Proc Unit β

/-- `send_async(&sb.h, len, 1, 0)` from the buffer, which is registered with its
own length; `false` where it returns -1. -/
def sendAsync (len : Nat) (buf : List β) : Program β Bool :=
  if Tcp.inBounds buf.length len 0 then .send () (buf.take len) (.ret true) else .ret false

/-- `recv_async(&sb.h, len, 1, 0)`; `none` where it returns -1. -/
def recvAsync (len : Nat) (buf : List β) : Program β (Option (List β)) :=
  if Tcp.inBounds buf.length len 0 then .recv () len fun bs => .ret (bs.map (put buf 0)) else .ret none

/-- The loop of `run_server_sendrecv`: what is in the buffer at its end, or `none`
where it returns -1. -/
def serverLoop (len : Nat) : Nat → List β → Program β (Option (List β))
  | 0, buf => return some buf
  | k + 1, buf => do
    match ← recvAsync len buf with
    | none => return none
    | some buf =>
      match ← sendAsync len buf with
      | false => return none
      | true => serverLoop len k buf

/-- The loop of `run_client_sendrecv`. -/
def clientLoop (len : Nat) : Nat → List β → Program β (Option (List β))
  | 0, buf => return some buf
  | k + 1, buf => do
    match ← sendAsync len buf with
    | false => return none
    | true =>
      match ← recvAsync len buf with
      | none => return none
      | some buf => clientLoop len k buf

/-- The server's `cfg.iters`, where `kWarmup + cfg.iters` is an `int`. -/
abbrev ServerIters := { i : Int // kWarmup + i ≤ intMax }

/-- The client's, where it gets as far as `connect`: before that it allocates
`latencies(cfg.iters)`, which throws for a negative `cfg.iters`. The server has no
such vector. -/
abbrev ClientIters := { i : Int // 0 ≤ i ∧ kWarmup + i ≤ intMax }

/-- `kWarmup + cfg.iters`, as a number of turns. -/
def totalIters (iters : Int) : Nat := (kWarmup + iters).toNat

/-- `run_server_sendrecv` from `accept` on, and the end of its transport. -/
def runServerSendrecv (len : Nat) (iters : ServerIters) (buf : List β) : Program β (Option (List β)) := do
  let buf ← serverLoop len (totalIters iters) buf
  .close () (.ret buf)

/-- `run_client_sendrecv` from `connect` on, and the end of its transport. -/
def runClientSendrecv (len : Nat) (iters : ClientIters) (buf : List β) : Program β (Option (List β)) := do
  let buf ← clientLoop len (totalIters iters) buf
  .close () (.ret buf)

section Loops

variable {fin : Unit × Bool → Bool} {b : Bool} {sbuf cbuf : List β} {x y : Option (List β)} {len k j : Nat}
  {f g : Option (List β) → Program β (Option (List β))}

theorem put_all {buf bs : List β} (h : bs.length = buf.length) : put buf 0 bs = bs := by
  simp [put, h]

theorem inBounds_all {buf : List β} (h0 : 0 < buf.length) (hlt : buf.length < 2 ^ 64) :
    Tcp.inBounds buf.length buf.length 0 = true := Tcp.inBounds_of_le h0 le_rfl hlt

theorem sendAsync_bind {ρ : Type} {buf : List β} {h : Bool → Program β ρ} (h0 : 0 < buf.length)
    (hlt : buf.length < 2 ^ 64) :
    sendAsync buf.length buf >>= h = .send () buf (h true) := by
  rw [sendAsync, if_pos (inBounds_all h0 hlt), List.take_length]
  rfl

theorem recvAsync_bind {ρ : Type} {buf : List β} {h : Option (List β) → Program β ρ} (hlen : buf.length = len)
    (h0 : 0 < len) (hlt : len < 2 ^ 64) :
    recvAsync len buf >>= h = .recv () len fun bs => h (bs.map (put buf 0)) := by
  subst hlen
  rw [recvAsync, if_pos (inBounds_all h0 hlt)]
  rfl

/-- One round trip: the server has the client's buffer, and the client has it
back. -/
theorem meets_turn (hs : fin ((), b) = false) (hc : fin ((), !b) = false) (h0 : 0 < cbuf.length)
    (hlt : cbuf.length < 2 ^ 64) (hlen : sbuf.length = cbuf.length)
    (h : Meets fin b (serverLoop cbuf.length k cbuf >>= f) (clientLoop cbuf.length j cbuf >>= g) x y) :
    Meets fin b (serverLoop cbuf.length (k + 1) sbuf >>= f) (clientLoop cbuf.length (j + 1) cbuf >>= g) x y := by
  rw [serverLoop, clientLoop, recvAsync_bind hlen h0 hlt, sendAsync_bind h0 hlt, recvAsync_bind rfl h0 hlt,
    Proc.recv_bind, Proc.send_bind, Proc.recv_bind]
  refine .reply hc rfl ?_
  simp only [Option.map_some, put_all hlen.symm]
  rw [sendAsync_bind h0 hlt, Proc.send_bind]
  refine .message hs rfl ?_
  simp only [Option.map_some, put_all rfl]
  exact h

/-- The client leaves first, or with the server. -/
theorem meets_loops (hs : fin ((), b) = false) (hc : fin ((), !b) = false) (h0 : 0 < cbuf.length)
    (hlt : cbuf.length < 2 ^ 64) (hlen : sbuf.length = cbuf.length) (hle : j ≤ k) :
    Meets fin b (serverLoop cbuf.length k sbuf >>= fun buf => .close () (.ret buf))
      (clientLoop cbuf.length j cbuf >>= fun buf => .close () (.ret buf))
      (if j < k then none else some (if j = 0 then sbuf else cbuf)) (some cbuf) := by
  induction j generalizing k sbuf with
  | zero =>
    refine .closed hc ?_
    cases k with
    | zero =>
      refine .close ?_ .ret
      rw [Function.update_of_ne (by simp), hs]
    | succ k =>
      rw [serverLoop, recvAsync_bind hlen h0 hlt, Proc.recv_bind]
      refine .eof (by rw [Function.update_self]) h0 (.close ?_ .ret)
      rw [Function.update_of_ne (by simp), Function.update_of_ne (by simp), hs]
  | succ j ih =>
    obtain ⟨k, rfl⟩ : ∃ i, k = i + 1 := ⟨k - 1, by omega⟩
    have hrest := ih (rfl : cbuf.length = cbuf.length) (show j ≤ k by omega)
    simp only [ite_self] at hrest
    simp only [Nat.add_lt_add_iff_right, Nat.succ_ne_zero, if_false]
    exact meets_turn hs hc h0 hlt hlen hrest

end Loops

/-- Two sides that agree on `--size`, and a client that does not ask for more
round trips than the server has: whatever the sockets hold, every run can end and
ends one way. The client returns 0 with its buffer as it was, the server 0 with
the client's bytes if both meant as many round trips, and -1 otherwise. -/
theorem sendrecv_completes (sbuf cbuf : List β) (h0 : 0 < cbuf.length) (hlt : cbuf.length < 2 ^ 64)
    (hlen : sbuf.length = cbuf.length) (siters : ServerIters) (citers : ClientIters) (hle : citers.1 ≤ siters.1)
    (cap : Unit × Bool → ℕ∞) (hcap : ∀ c, 1 ≤ cap c) (t : Duplex.State Unit β (Option (List β)))
    (ht : Duplex.net.Steps cap (Duplex.start true (runServerSendrecv cbuf.length siters sbuf)
      (runClientSendrecv cbuf.length citers cbuf)) t) :
    let x := if citers.1 < siters.1 then none else some cbuf
    (∃ v, Duplex.net.Steps cap t v ∧ (v.node true).proc = .ret x ∧ (v.node false).proc = .ret (some cbuf)) ∧
      (∀ x', (t.node true).proc = .ret x' → x' = x) ∧ ∀ y, (t.node false).proc = .ret y → y = some cbuf := by
  intro x
  have hpos := citers.2.1
  have hturns : totalIters citers ≤ totalIters siters := by
    unfold totalIters
    omega
  have hx : (if totalIters citers < totalIters siters then none
      else some (if totalIters citers = 0 then sbuf else cbuf)) = x := by
    have hiff : totalIters citers < totalIters siters ↔ citers.1 < siters.1 := by
      unfold totalIters
      omega
    have hne : totalIters citers ≠ 0 := by
      simp only [totalIters, kWarmup]
      omega
    simp only [x, hiff, if_neg hne]
  have hm : Meets (fun _ => false) true (runServerSendrecv cbuf.length siters sbuf)
      (runClientSendrecv cbuf.length citers cbuf) x (some cbuf) :=
    hx ▸ meets_loops rfl rfl h0 hlt hlen hturns
  exact ⟨hm.completes hcap ht, hm.returns ht⟩

/-- A client with one iteration, against a server with one and with two. -/
theorem sendrecv_completes_two_bytes :
    (∃ v, Duplex.net.Steps (fun _ => 1)
        (Duplex.start true (runServerSendrecv 2 ⟨1, by decide⟩ [0, 0]) (runClientSendrecv 2 ⟨1, by decide⟩ [3, 4])) v ∧
      (v.node true).proc = .ret (some [3, 4]) ∧ (v.node false).proc = .ret (some [3, 4])) ∧
    ∃ v, Duplex.net.Steps (fun _ => 1)
        (Duplex.start true (runServerSendrecv 2 ⟨2, by decide⟩ [0, 0]) (runClientSendrecv 2 ⟨1, by decide⟩ [3, 4])) v ∧
      (v.node true).proc = .ret none ∧ (v.node false).proc = .ret (some [3, 4]) := by
  constructor
  · obtain ⟨hv, -⟩ := sendrecv_completes [0, 0] [3, 4] (by decide) (by decide) rfl ⟨1, by decide⟩ ⟨1, by decide⟩ le_rfl
      (fun _ => 1) (fun _ => le_rfl) _ .refl
    exact hv
  · obtain ⟨hv, -⟩ := sendrecv_completes [0, 0] [3, 4] (by decide) (by decide) rfl ⟨2, by decide⟩ ⟨1, by decide⟩
      (by decide) (fun _ => 1) (fun _ => le_rfl) _ .refl
    exact hv

end RdmaInfra.Transport.TcpSendRecv
