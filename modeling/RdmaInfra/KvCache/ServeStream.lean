/-
`serve` on the bytes of a client that ends.

The client's bytes arrive in pieces of any size and then end. `recv_all` fails
where they end, at the start of a request and in the middle of one alike, and
`serve` takes every failure of its one receive for a client that is done. What
it answers and leaves in the pool comes from the complete requests before the
first bad one, however the bytes were cut (`serveStream_eq`).
-/
import RdmaInfra.KvCache.ControlFraming

namespace RdmaInfra.KvCache

open Transport

/-! ## Receiving -/

/-- The connection and the union: the bytes still to come, the kernel calls made, the buffer. -/
structure Reader where
  stream : List UInt8
  calls : Nat
  buf : CtrlBuf
  deriving DecidableEq, Repr

/-- What `recv` returns, of `want` bytes asked for and `avail > 0` to come, where the kernel would give `cut`. -/
def recvCount (cut want avail : Nat) : Nat := max 1 (min cut (min want avail))

/-- `recv_all` from `recved` on; `none` where it returns -1. -/
def recvAll (cuts : Nat → Nat) (len recved : Nat) (x : Reader) : Option Reader :=
  if recved < len then
    if x.stream = [] then none
    else
      let n := recvCount (cuts x.calls) (len - recved) x.stream.length
      recvAll cuts len (recved + n) ⟨x.stream.drop n, x.calls + 1, put x.buf recved (x.stream.take n)⟩
  else some x
termination_by len - recved
decreasing_by
  unfold recvCount
  omega

/-- `recv_async` into the union. -/
def recvAsync (cuts : Nat → Nat) (len : Nat) (x : Reader) : Option Reader :=
  if Tcp.inBounds CtrlBuf.size len 0 then recvAll cuts len 0 x else none

theorem recvCount_bounds (cut : Nat) {want avail : Nat} (hw : 0 < want) (ha : 0 < avail) :
    1 ≤ recvCount cut want avail ∧ recvCount cut want avail ≤ want ∧ recvCount cut want avail ≤ avail := by
  unfold recvCount
  omega

/-- A stream that ends too early fails the call, however it is cut. -/
theorem recvAll_eof {cuts : Nat → Nat} {len recved : Nat} {x : Reader} (h : x.stream.length < len - recved) :
    recvAll cuts len recved x = none := by
  induction hk : len - recved using Nat.strong_induction_on generalizing recved x with
  | _ k ih =>
    unfold recvAll
    rw [if_pos (by omega)]
    by_cases hnil : x.stream = []
    · rw [if_pos hnil]
    · have hpos : 0 < x.stream.length := List.length_pos_iff.mpr hnil
      have hn := recvCount_bounds (cuts x.calls) (show 0 < len - recved by omega) hpos
      rw [if_neg hnil]
      refine ih (len - (recved + _)) (by omega) ?_ rfl
      simp only [List.length_drop]
      omega

/-- A stream that is long enough fills the buffer with its first bytes, however it is cut. -/
theorem recvAll_ok (cuts : Nat → Nat) {len recved : Nat} {x : Reader} (hle : recved ≤ len)
    (hb : len ≤ x.buf.length) (h : len - recved ≤ x.stream.length) :
    ∃ y, recvAll cuts len recved x = some y ∧ y.stream = x.stream.drop (len - recved) ∧
      y.buf.length = x.buf.length ∧ y.buf.take len = x.buf.take recved ++ x.stream.take (len - recved) := by
  induction hk : len - recved using Nat.strong_induction_on generalizing recved x with
  | _ k ih =>
    unfold recvAll
    by_cases hlt : recved < len
    · have hpos : 0 < x.stream.length := by omega
      have hn := recvCount_bounds (cuts x.calls) (show 0 < len - recved by omega) hpos
      rw [if_pos hlt, if_neg (List.length_pos_iff.mp hpos)]
      simp only
      generalize recvCount (cuts x.calls) (len - recved) x.stream.length = n at hn ⊢
      have htake : (x.stream.take n).length = n := List.length_take_of_le hn.2.2
      have hlen : (put x.buf recved (x.stream.take n)).length = x.buf.length := length_put (by rw [htake]; omega)
      have hput := take_put x.buf (x.stream.take n) (show recved ≤ x.buf.length by omega)
      rw [htake] at hput
      have hrest : len - (recved + n) = k - n := by omega
      have henough : len - (recved + n) ≤ (x.stream.drop n).length := by
        rw [List.length_drop]
        omega
      obtain ⟨y, hy, hys, hyl, hyt⟩ := ih (len - (recved + n)) (by omega)
        (x := ⟨x.stream.drop n, x.calls + 1, put x.buf recved (x.stream.take n)⟩)
        (by omega) (hlen.symm ▸ hb) henough rfl
      refine ⟨y, hy, ?_, hyl.trans hlen, ?_⟩
      · rw [hys, List.drop_drop, hrest]
        congr 1
        omega
      · rw [hyt, hput, List.append_assoc, hrest, show k = n + (k - n) by omega, List.take_add,
          Nat.add_sub_cancel_left]
    · have h0 : k = 0 := by omega
      subst h0
      rw [if_neg hlt]
      refine ⟨x, rfl, by simp, rfl, ?_⟩
      rw [show recved = len by omega]
      simp

theorem recvAll_length {cuts : Nat → Nat} {len recved : Nat} {x y : Reader} (h : recvAll cuts len recved x = some y) :
    y.stream.length + (len - recved) = x.stream.length := by
  induction hk : len - recved using Nat.strong_induction_on generalizing recved x with
  | _ k ih =>
    unfold recvAll at h
    by_cases hlt : recved < len
    · rw [if_pos hlt] at h
      by_cases hnil : x.stream = []
      · rw [if_pos hnil] at h
        cases h
      · have hpos : 0 < x.stream.length := List.length_pos_iff.mpr hnil
        have hn := recvCount_bounds (cuts x.calls) (show 0 < len - recved by omega) hpos
        rw [if_neg hnil] at h
        have := ih (len - (recved + _)) (by omega) h rfl
        simp only [List.length_drop] at this
        omega
    · rw [if_neg hlt] at h
      cases h
      omega

/-! ## The loop -/

/-- What `serve` returns, the pool it leaves and the bytes it has sent. -/
structure Outcome where
  ret : Int
  pool : KVPool
  replies : List UInt8
  deriving DecidableEq, Repr

/-- The state of the loop. -/
structure Serving where
  pool : KVPool
  replies : List UInt8
  reader : Reader
  deriving DecidableEq, Repr

/-- The answer to a request received into `x`, delivered: the next turn, or what `serve` returns. -/
def dispatch (s : Serving) (x : Reader) (m : Msg) : Serving ⊕ Outcome :=
  match handle s.pool m with
  | .error _ => .inr ⟨-1, s.pool, s.replies⟩
  | .ok (pool, reply) =>
    let buf := x.buf.setMsg 0 reply
    .inl ⟨pool, s.replies ++ buf.take CtrlBuf.sizeofInt, { x with buf := buf }⟩

/-- One turn of the loop of `serve`. -/
def serveTurn (cuts : Nat → Nat) (s : Serving) : Serving ⊕ Outcome :=
  match recvAsync cuts CtrlBuf.sizeofMsg s.reader with
  | none => .inr ⟨0, s.pool, s.replies⟩
  | some x => dispatch s x ⟨x.buf.msg 0, x.buf.msg 1⟩

theorem dispatch_stream {s s' : Serving} {x : Reader} {m : Msg} (h : dispatch s x m = .inl s') :
    s'.reader.stream = x.stream := by
  unfold dispatch at h
  split at h
  · cases h
  · cases h
    rfl

/-- A turn that goes on has taken a request off the stream. -/
theorem serveTurn_length {cuts : Nat → Nat} {s s' : Serving} (h : serveTurn cuts s = .inl s') :
    s'.reader.stream.length + 8 = s.reader.stream.length := by
  unfold serveTurn at h
  split at h
  · cases h
  · next x hx =>
    unfold recvAsync at hx
    rw [if_pos (by decide)] at hx
    rw [dispatch_stream h]
    exact recvAll_length hx

/-- `serve` of `kv_server`. -/
def serveStream (cuts : Nat → Nat) (s : Serving) : Outcome :=
  match _h : serveTurn cuts s with
  | .inr o => o
  | .inl s' => serveStream cuts s'
termination_by s.reader.stream.length
decreasing_by
  have := serveTurn_length _h
  omega

/-- The request a run of 8 bytes is. -/
def Msg.ofBytes (r : List UInt8) : Msg := ⟨CtrlBuf.msg r 0, CtrlBuf.msg r 1⟩

theorem CtrlBuf.ofBytes_take (b : CtrlBuf) : Msg.ofBytes (b.take 8) = ⟨b.msg 0, b.msg 1⟩ := by
  unfold Msg.ofBytes CtrlBuf.msg CtrlBuf.sizeofInt
  rw [field_take (by omega), field_take (by omega)]

/-- The stream ends inside a request, or before it. -/
theorem serveTurn_eof {cuts : Nat → Nat} {s : Serving} (h : s.reader.stream.length < 8) :
    serveTurn cuts s = .inr ⟨0, s.pool, s.replies⟩ := by
  unfold serveTurn recvAsync
  rw [if_pos (by decide), recvAll_eof h]

/-- A whole request is taken, however it is cut. -/
theorem serveTurn_request {cuts : Nat → Nat} {s : Serving} {r rest : List UInt8}
    (hb : s.reader.buf.length = CtrlBuf.size) (hs : s.reader.stream = r ++ rest) (hr : r.length = 8) :
    ∃ x, serveTurn cuts s = dispatch s x (Msg.ofBytes r) ∧ x.stream = rest ∧ x.buf.length = CtrlBuf.size := by
  have h8 : CtrlBuf.sizeofMsg ≤ s.reader.buf.length := by rw [hb]; decide
  have hlen : CtrlBuf.sizeofMsg - 0 ≤ s.reader.stream.length := by
    rw [hs, List.length_append, hr]
    exact Nat.le_add_right _ _
  obtain ⟨x, hx, hxs, hxl, hxt⟩ := recvAll_ok cuts (Nat.zero_le _) h8 hlen
  have hmsg : Msg.ofBytes r = ⟨x.buf.msg 0, x.buf.msg 1⟩ := by
    rw [← CtrlBuf.ofBytes_take, show x.buf.take 8 = _ from hxt, hs]
    exact congrArg Msg.ofBytes (List.take_left' hr).symm
  refine ⟨x, ?_, ?_, hxl.trans hb⟩
  · unfold serveTurn recvAsync
    rw [if_pos (by decide), hx, hmsg]
  · rw [hxs, hs]
    exact List.drop_left' hr

theorem dispatch_error {s : Serving} {x : Reader} {m : Msg} {e : ServeError} (h : handle s.pool m = .error e) :
    dispatch s x m = .inr ⟨-1, s.pool, s.replies⟩ := by
  unfold dispatch
  simp only [h]

/-- What a turn does is what `handle` says. -/
theorem dispatch_ok {s : Serving} {x : Reader} {m : Msg} {pool : KVPool} {reply : Int}
    (h : handle s.pool m = .ok (pool, reply)) :
    dispatch s x m = .inl ⟨pool, s.replies ++ intBytes reply, { x with buf := x.buf.setMsg 0 reply }⟩ := by
  unfold dispatch
  simp only [h]
  rw [show CtrlBuf.sizeofInt = 4 from rfl, CtrlBuf.take_setMsg]

/-! ## Requests -/

/-- The bytes of the replies logged, oldest first. -/
def Server.replyBytes (s : Server) : List UInt8 := s.log.reverse.flatMap fun e => intBytes e.2

/-- How a run over requests ends, in bytes. -/
def outcomeOf (r : Server × Option ServeError) : Outcome :=
  ⟨if r.2 = none then 0 else -1, r.1.pool, r.1.replyBytes⟩

/-- The bytes of complete requests, and then fewer than a request: the run is
that over the requests, whatever the cuts and the contents of the union. -/
theorem serveStream_eq (cuts : Nat → Nat) (core : Server) (reqs : List (List UInt8)) (tail : List UInt8)
    (hreqs : ∀ r ∈ reqs, r.length = 8) (htail : tail.length < 8) {x : Reader} (hb : x.buf.length = CtrlBuf.size)
    (hx : x.stream = reqs.flatten ++ tail) :
    serveStream cuts ⟨core.pool, core.replyBytes, x⟩ = outcomeOf (serve core (reqs.map Msg.ofBytes)) := by
  induction reqs generalizing core x with
  | nil =>
    rw [List.flatten_nil, List.nil_append] at hx
    have hturn : serveTurn cuts ⟨core.pool, core.replyBytes, x⟩ = .inr ⟨0, core.pool, core.replyBytes⟩ :=
      serveTurn_eof (hx ▸ htail)
    unfold serveStream
    rw [hturn]
    rfl
  | cons r reqs ih =>
    rw [List.flatten_cons, List.append_assoc] at hx
    obtain ⟨y, hturn, hys, hyl⟩ := serveTurn_request (s := ⟨core.pool, core.replyBytes, x⟩) hb hx (hreqs r (by simp))
    unfold serveStream
    rw [hturn, List.map_cons, serve]
    cases hh : handle core.pool (Msg.ofBytes r) with
    | error e =>
      rw [dispatch_error (s := ⟨core.pool, core.replyBytes, x⟩) hh]
      rfl
    | ok res =>
      obtain ⟨pool, reply⟩ := res
      have hlog : core.replyBytes ++ intBytes reply = Server.replyBytes ⟨pool, (Msg.ofBytes r, reply) :: core.log⟩ := by
        simp [Server.replyBytes]
      have h4 : 0 * 4 + 4 ≤ y.buf.length := by rw [hyl]; decide
      rw [dispatch_ok (s := ⟨core.pool, core.replyBytes, x⟩) hh]
      simp only [hlog]
      exact ih ⟨pool, _⟩ (fun r hr => hreqs r (by simp [hr])) ((CtrlBuf.length_setMsg h4).trans hyl) hys

/-- The complete requests of a stream. -/
def requests (bytes : List UInt8) : List (List UInt8) :=
  if 8 ≤ bytes.length then bytes.take 8 :: requests (bytes.drop 8) else []
termination_by bytes.length
decreasing_by
  rw [List.length_drop]
  omega

theorem requests_append {r rest : List UInt8} (hr : r.length = 8) : requests (r ++ rest) = r :: requests rest := by
  conv_lhs => unfold requests
  rw [if_pos (by rw [List.length_append]; omega), List.take_left' hr, List.drop_left' hr]

/-- A stream is its complete requests and what is left of it. -/
theorem requests_spec (bytes : List UInt8) :
    (∀ r ∈ requests bytes, r.length = 8) ∧
      ∃ tail, bytes = (requests bytes).flatten ++ tail ∧ tail.length = bytes.length % 8 := by
  induction hn : bytes.length using Nat.strong_induction_on generalizing bytes with
  | _ n ih =>
    unfold requests
    by_cases h8 : 8 ≤ bytes.length
    · have hdrop : (bytes.drop 8).length = n - 8 := by rw [List.length_drop, hn]
      obtain ⟨hall, tail, htail, hlen⟩ := ih (n - 8) (by omega) (bytes.drop 8) hdrop
      rw [if_pos h8]
      refine ⟨?_, tail, ?_, by omega⟩
      · rw [List.forall_mem_cons]
        exact ⟨List.length_take_of_le h8, hall⟩
      · rw [List.flatten_cons, List.append_assoc, ← htail, List.take_append_drop]
    · rw [if_neg h8]
      refine ⟨by simp, bytes, by simp, ?_⟩
      rw [hn, Nat.mod_eq_of_lt (by omega)]

theorem requests_flatten {reqs : List (List UInt8)} (h : ∀ r ∈ reqs, r.length = 8) : requests reqs.flatten = reqs := by
  induction reqs with
  | nil =>
    unfold requests
    simp
  | cons r reqs ih =>
    rw [List.forall_mem_cons] at h
    rw [List.flatten_cons, requests_append h.1, ih h.2]

/-- A request `serve` answers. -/
def acceptable (numSlots : Int) (m : Msg) : Bool :=
  m.type = KV_MSG_ALLOC ∨ m.type = KV_MSG_FREE ∧ 0 ≤ m.payload ∧ m.payload < numSlots

theorem handle_of_acceptable {pool : KVPool} {m : Msg} (h : acceptable pool.numSlots m) :
    ∃ pool' reply, handle pool m = .ok (pool', reply) := by
  simp only [acceptable, decide_eq_true_eq] at h
  unfold handle
  obtain ht | ⟨ht, h0, hlt⟩ := h
  · rw [if_pos ht]
    split
    · exact ⟨_, _, rfl⟩
    · exact ⟨_, _, rfl⟩
  · rw [if_neg (by rw [ht]; decide), if_pos ht, if_neg (by omega)]
    exact ⟨_, _, rfl⟩

theorem handle_of_not_acceptable {pool : KVPool} {m : Msg} (h : ¬ acceptable pool.numSlots m) :
    ∃ e, handle pool m = .error e := by
  cases hh : handle pool m with
  | error e => exact ⟨e, rfl⟩
  | ok res =>
    exfalso
    apply h
    simp only [acceptable, decide_eq_true_eq]
    obtain ⟨-, ⟨ht, -⟩ | ⟨ht, -⟩ | ⟨ht, hrange, -⟩⟩ := handle_ok hh
    · exact Or.inl ht
    · exact Or.inl ht
    · exact Or.inr ⟨ht, hrange⟩

/-- A run goes as far as the first bad request, which leaves no trace. -/
theorem serve_takeWhile (core : Server) (ms : List Msg) :
    (serve core ms).1 = (serve core (ms.takeWhile (acceptable core.pool.numSlots))).1 ∧
      ((serve core ms).2 = none ↔ ∀ m ∈ ms, acceptable core.pool.numSlots m) := by
  induction ms generalizing core with
  | nil => simp [serve]
  | cons m ms ih =>
    rw [List.forall_mem_cons]
    by_cases hm : acceptable core.pool.numSlots m
    · obtain ⟨pool', reply, hh⟩ := handle_of_acceptable hm
      have hn := (handle_ok hh).1
      have := ih ⟨pool', (m, reply) :: core.log⟩
      simp only [hn] at this
      simp only [List.takeWhile_cons_of_pos hm, serve, hh, hm, true_and]
      exact this
    · obtain ⟨e, hh⟩ := handle_of_not_acceptable hm
      simp only [List.takeWhile_cons_of_neg hm, serve, hh]
      simp [hm]

/-! ## Accepted streams -/

/-- A concatenation of complete requests, each of which `serve` answers. -/
def WellFormed (numSlots : Int) (bytes : List UInt8) : Prop :=
  ∃ reqs : List (List UInt8), bytes = reqs.flatten ∧
    ∀ r ∈ reqs, r.length = 8 ∧ acceptable numSlots (Msg.ofBytes r)

theorem wellFormed_iff {numSlots : Int} {bytes : List UInt8} :
    WellFormed numSlots bytes ↔
      bytes.length % 8 = 0 ∧ ∀ r ∈ requests bytes, acceptable numSlots (Msg.ofBytes r) := by
  obtain ⟨hall, tail, htail, hlen⟩ := requests_spec bytes
  constructor
  · intro h
    obtain ⟨reqs, rfl, hreqs⟩ := h
    have h8 : ∀ r ∈ reqs, r.length = 8 := fun r hr => (hreqs r hr).1
    rw [requests_flatten h8] at htail ⊢
    have hnil : tail = [] := by simpa using htail
    exact ⟨by rw [← hlen, hnil]; rfl, fun r hr => (hreqs r hr).2⟩
  · intro h
    have hnil : tail = [] := List.eq_nil_of_length_eq_zero (by omega)
    rw [hnil, List.append_nil] at htail
    exact ⟨requests bytes, htail, fun r hr => ⟨hall r hr, h.2 r hr⟩⟩

/-- The server after the requests before the first bad one. -/
def goodRun (pool : KVPool) (bytes : List UInt8) : Server :=
  (serve ⟨pool, []⟩ (((requests bytes).map Msg.ofBytes).takeWhile (acceptable pool.numSlots))).1

/-- The outcome tells a clean disconnect from a broken stream, and no bad or
truncated request has an effect. -/
structure Distinguishes (pool : KVPool) (bytes : List UInt8) (o : Outcome) : Prop where
  accepted : o.ret = 0 ↔ WellFormed pool.numSlots bytes
  rejected : o.ret = -1 ↔ ¬ WellFormed pool.numSlots bytes
  freeList : o.pool = (goodRun pool bytes).pool
  replies : o.replies = (goodRun pool bytes).replyBytes

/-- What `serve` makes of a stream, for every cut of it. -/
theorem serveStream_outcome (cuts : Nat → Nat) (pool : KVPool) (bytes : List UInt8) {buf : CtrlBuf}
    (hb : buf.length = CtrlBuf.size) :
    let o := serveStream cuts ⟨pool, [], ⟨bytes, 0, buf⟩⟩
    o.ret = (if ∀ r ∈ requests bytes, acceptable pool.numSlots (Msg.ofBytes r) then 0 else -1) ∧
      o.pool = (goodRun pool bytes).pool ∧ o.replies = (goodRun pool bytes).replyBytes := by
  obtain ⟨hall, tail, htail, hlen⟩ := requests_spec bytes
  have hrun := serveStream_eq cuts ⟨pool, []⟩ (requests bytes) tail hall (by omega) (x := ⟨bytes, 0, buf⟩) hb htail
  obtain ⟨hcore, hret⟩ := serve_takeWhile ⟨pool, []⟩ ((requests bytes).map Msg.ofBytes)
  rw [List.forall_mem_map] at hret
  intro o
  have ho : o = outcomeOf (serve ⟨pool, []⟩ ((requests bytes).map Msg.ofBytes)) := hrun
  rw [ho]
  refine ⟨if_congr hret rfl rfl, congrArg Server.pool hcore, congrArg Server.replyBytes hcore⟩

/-- A truncated request is told from a clean disconnect just where a bad
request comes before it. -/
theorem serveStream_distinguishes_iff (pool : KVPool) (bytes : List UInt8) :
    (∀ (cuts : Nat → Nat) (buf : CtrlBuf), buf.length = CtrlBuf.size →
      Distinguishes pool bytes (serveStream cuts ⟨pool, [], ⟨bytes, 0, buf⟩⟩)) ↔
    bytes.length % 8 = 0 ∨ ∃ r ∈ requests bytes, ¬ acceptable pool.numSlots (Msg.ofBytes r) := by
  constructor
  · intro h
    have hd := h (fun _ => 1) (List.replicate CtrlBuf.size 0) List.length_replicate
    obtain ⟨hret, -⟩ := serveStream_outcome (fun _ => 1) pool bytes (List.length_replicate (n := CtrlBuf.size) (a := 0))
    have hacc := hd.accepted
    rw [hret, wellFormed_iff] at hacc
    by_cases hgood : ∀ r ∈ requests bytes, acceptable pool.numSlots (Msg.ofBytes r)
    · rw [if_pos hgood] at hacc
      exact Or.inl (hacc.mp rfl).1
    · simp only [not_forall] at hgood
      obtain ⟨r, hr, hbad⟩ := hgood
      exact Or.inr ⟨r, hr, hbad⟩
  · intro h cuts buf hb
    obtain ⟨hret, hpool, hreplies⟩ := serveStream_outcome cuts pool bytes hb
    have hwf : WellFormed pool.numSlots bytes ↔ ∀ r ∈ requests bytes, acceptable pool.numSlots (Msg.ofBytes r) := by
      rw [wellFormed_iff]
      constructor
      · intro hw
        exact hw.2
      · intro hgood
        obtain hlen | ⟨r, hr, hbad⟩ := h
        · exact ⟨hlen, hgood⟩
        · exact absurd (hgood r hr) hbad
    refine ⟨?_, ?_, hpool, hreplies⟩
    · rw [hret, hwf]
      split <;> simp_all
    · rw [hret, hwf]
      split <;> simp_all

/-- Three bytes of a request and then the end of the file: `serve` returns 0. -/
theorem serveStream_truncated :
    (serveStream (fun _ => 8) ⟨⟨1, [0]⟩, [], ⟨[0, 0, 0], 0, List.replicate CtrlBuf.size 0⟩⟩).ret = 0 ∧
    ¬ Distinguishes ⟨1, [0]⟩ [0, 0, 0]
      (serveStream (fun _ => 8) ⟨⟨1, [0]⟩, [], ⟨[0, 0, 0], 0, List.replicate CtrlBuf.size 0⟩⟩) := by
  have hnone : requests [0, 0, 0] = [] := by
    unfold requests
    rw [if_neg (by decide)]
  obtain ⟨hret, -⟩ := serveStream_outcome (fun _ => 8) ⟨1, [0]⟩ [0, 0, 0]
    (List.length_replicate (n := CtrlBuf.size) (a := 0))
  rw [hnone, if_pos (by simp)] at hret
  refine ⟨hret, fun h => ?_⟩
  have hwf := wellFormed_iff.mp (h.accepted.mp hret)
  exact absurd hwf.1 (by decide)

end RdmaInfra.KvCache
