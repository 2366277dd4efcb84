/-
A TCP connection between two `TcpTransport`s, one direction of it: a list of
`send_async` calls at one end and a list of `recv_async` calls at the other,
with lengths that need not match.

Each call is `send_all` or `recv_all`, a loop of kernel calls. The kernel moves
any positive number of bytes at a time or fails, so a run is any interleaving
of the two loops with any counts. A call keeps what its kernel calls answered
and which bytes it moved; between calls an end may change its memory as it
likes.
-/
import RdmaInfra.Lts
import RdmaInfra.Memory
import RdmaInfra.Transport.Transfer

namespace RdmaInfra.Transport.TcpChannel

variable {β : Type}

/-! ## One end -/

/-- The arguments of `send_async` or `recv_async`. -/
structure Call where
  handle : BufferHandle
  len : Nat
  offset : Nat
  deriving DecidableEq, Repr

/-- A call on a buffer that exists, within its size. -/
structure Call.InBounds (c : Call) : Prop where
  addr : c.handle.addr ≠ 0
  room : c.handle.addr + c.handle.size ≤ 2 ^ 64
  pos : 1 ≤ c.len
  fits : c.offset + c.len ≤ c.handle.size

/-- The first byte a call addresses. -/
def Call.start (c : Call) : Nat := c.handle.addr + c.offset

/-- A call in its loop: the kernel's answers and the bytes moved so far, and
the memory it began with. -/
structure Running (β : Type) where
  call : Call
  region : Region
  before : Mem β
  kernel : List Int
  bytes : List β

/-- A call that is over. -/
structure Returned (β : Type) where
  call : Call
  before : Mem β
  after : Mem β
  kernel : List Int
  bytes : List β
  ret : Int

structure Endpoint (β : Type) where
  calls : List Call
  mem : Mem β
  running : Option (Running β)
  returned : List (Returned β)

namespace Endpoint

/-- Between calls. -/
def store (m : Mem β) (e : Endpoint β) : Option (Endpoint β) :=
  match e.running with
  | none => some { e with mem := m }
  | some _ => none

/-- The next call, as far as its loop. -/
def call (e : Endpoint β) : Option (Endpoint β) :=
  match e.running, e.calls with
  | none, c :: rest =>
    match Tcp.sendAsync c.handle c.len c.offset with
    | none => some { e with calls := rest, returned := e.returned ++ [⟨c, e.mem, e.mem, [], [], -1⟩] }
    | some region => some { e with calls := rest, running := some ⟨c, region, e.mem, [], []⟩ }
  | _, _ => none

def finish (r : Running β) (kernel : List Int) (ret : Int) (e : Endpoint β) : Endpoint β :=
  { e with running := none, returned := e.returned ++ [⟨r.call, r.before, e.mem, kernel, r.bytes, ret⟩] }

/-- The loop is over. -/
def ret (e : Endpoint β) : Option (Endpoint β) :=
  match e.running with
  | some r => if r.bytes.length < r.region.size then none else some (e.finish r r.kernel 0)
  | none => none

/-- The kernel answers `n <= 0`. -/
def fail (n : Int) (e : Endpoint β) : Option (Endpoint β) :=
  match e.running with
  | some r =>
    if r.bytes.length < r.region.size ∧ n ≤ 0 then some (e.finish r (r.kernel ++ [n]) (-1)) else none
  | none => none

/-- The kernel answers `n > 0` and moves `bs`. -/
def move (r : Running β) (n : Nat) (bs : List β) (m : Mem β) (e : Endpoint β) : Endpoint β :=
  { e with mem := m, running := some { r with kernel := r.kernel ++ [(n : Int)], bytes := r.bytes ++ bs } }

/-- Every byte the calls of an end have moved, in order. -/
def moved (e : Endpoint β) : List β := e.returned.flatMap Returned.bytes ++ (e.running.map Running.bytes).getD []

/-- The calls made, and those still to make. -/
def program (e : Endpoint β) : List Call :=
  e.returned.map Returned.call ++ (e.running.map Running.call).toList ++ e.calls

end Endpoint

/-! ## The connection -/

inductive Side
  | sender
  | receiver
  deriving DecidableEq, Repr

inductive Act (β : Type)
  | store (side : Side) (m : Mem β)
  | call (side : Side)
  | ret (side : Side)
  | fail (side : Side) (n : Int)
  | send (n : Nat)
  | recv (n : Nat)

/-- The stream between the ends, with all it was ever given and has given up. -/
structure State (β : Type) where
  tx : Endpoint β
  rx : Endpoint β
  stream : List β
  handed : List β
  taken : List β

/-- A step of one end alone. -/
def State.atEnd (s : State β) (f : Endpoint β → Option (Endpoint β)) : Side → Option (State β)
  | .sender => (f s.tx).map fun e => { s with tx := e }
  | .receiver => (f s.rx).map fun e => { s with rx := e }

/-- `send` takes `n` bytes of the `len - sent` it was offered. -/
def State.send (s : State β) (n : Nat) : Option (State β) :=
  match s.tx.running with
  | some r =>
    if 0 < n ∧ r.bytes.length + n ≤ r.region.size then
      let bs := s.tx.mem.read (r.region.addr + r.bytes.length) n
      some { s with tx := s.tx.move r n bs s.tx.mem, stream := s.stream ++ bs, handed := s.handed ++ bs }
    else none
  | none => none

/-- `recv` gives `n` bytes of the stream, at most the `len - recved` there is room for. -/
def State.recv (s : State β) (n : Nat) : Option (State β) :=
  match s.rx.running with
  | some r =>
    if 0 < n ∧ n ≤ s.stream.length ∧ r.bytes.length + n ≤ r.region.size then
      let bs := s.stream.take n
      some { s with
        rx := s.rx.move r n bs (s.rx.mem.write (r.region.addr + r.bytes.length) bs)
        stream := s.stream.drop n
        taken := s.taken ++ bs }
    else none
  | none => none

def step : Act β → State β → Option (State β)
  | .store side m, s => s.atEnd (Endpoint.store m) side
  | .call side, s => s.atEnd Endpoint.call side
  | .ret side, s => s.atEnd Endpoint.ret side
  | .fail side n, s => s.atEnd (Endpoint.fail n) side
  | .send n, s => s.send n
  | .recv n, s => s.recv n

/-- Two connected transports, with the calls their programs make. -/
def channel (sends recvs : List Call) : Lts (State β) (Act β) where
  init s := ∃ m m', s = ⟨⟨sends, m, none, []⟩, ⟨recvs, m', none, []⟩, [], [], []⟩
  step := step

/-! ## Calls -/

theorem Call.InBounds.sendAsync {c : Call} (h : c.InBounds) :
    Tcp.sendAsync c.handle c.len c.offset = some ⟨c.start, c.len⟩ := by
  obtain ⟨haddr, hroom, hpos, hfits⟩ := h
  unfold Tcp.sendAsync Call.start
  rw [if_neg haddr, if_pos (Tcp.inBounds_of_le (by omega) (by omega) (by omega)), sizeT_of_lt (by omega)]

/-- A sender's memory stays as it is, and the bytes are those of its region. -/
def Reads (before : Mem β) (a : Nat) (bytes : List β) (after : Mem β) : Prop :=
  after = before ∧ bytes = before.read a bytes.length

/-- A receiver's memory has the bytes written to its region. -/
def Writes (before : Mem β) (a : Nat) (bytes : List β) (after : Mem β) : Prop := after = before.write a bytes

/-- What a call has done when it is over, `E` being its effect on the memory. -/
structure Returned.Ok (E : Mem β → Nat → List β → Mem β → Prop) (f : Returned β) : Prop where
  call : f.call.InBounds
  kernel : f.kernel.length ≤ f.call.len
  effect : E f.before f.call.start f.bytes f.after
  ret : (f.ret = 0 ∧ f.bytes.length = f.call.len ∧ ∀ n ∈ f.kernel, 0 < n) ∨
    (f.ret = -1 ∧ f.bytes.length < f.call.len ∧ ∃ n ∈ f.kernel, n ≤ 0)

/-- What a call has done so far: every kernel call moved a byte at least. -/
structure Running.Ok (E : Mem β → Nat → List β → Mem β → Prop) (r : Running β) (m : Mem β) : Prop where
  call : r.call.InBounds
  region : r.region = ⟨r.call.start, r.call.len⟩
  le : r.bytes.length ≤ r.call.len
  kernel : r.kernel.length ≤ r.bytes.length
  positive : ∀ n ∈ r.kernel, 0 < n
  effect : E r.before r.call.start r.bytes m

structure Endpoint.Ok (E : Mem β → Nat → List β → Mem β → Prop) (e : Endpoint β) : Prop where
  calls : ∀ c ∈ e.calls, c.InBounds
  running : ∀ r, e.running = some r → r.Ok E e.mem
  returned : ∀ f ∈ e.returned, f.Ok E

namespace Endpoint

variable {E : Mem β → Nat → List β → Mem β → Prop} {e e' : Endpoint β} {r : Running β} {n : Nat} {k : Int}
  {bs : List β} {m : Mem β}

theorem Ok.store (h : e.Ok E) (hs : e.store m = some e') : e'.Ok E ∧ e'.moved = e.moved ∧ e'.program = e.program := by
  unfold Endpoint.store at hs
  split at hs
  · next hr =>
    cases hs
    exact ⟨⟨h.calls, by simp [hr], h.returned⟩, rfl, rfl⟩
  · cases hs

theorem Ok.call (hE : ∀ (m : Mem β) a, E m a [] m) (h : e.Ok E) (hs : e.call = some e') :
    e'.Ok E ∧ e'.moved = e.moved ∧ e'.program = e.program := by
  unfold Endpoint.call at hs
  split at hs
  · next c rest hr hc =>
    have hin : c.InBounds := h.calls c (by simp [hc])
    have hrest : ∀ c' ∈ rest, c'.InBounds := fun c' hc' => h.calls c' (by simp [hc, hc'])
    rw [hin.sendAsync] at hs
    cases hs
    refine ⟨⟨hrest, fun r hr' => ?_, h.returned⟩, by simp [moved, hr], by simp [program, hr, hc]⟩
    cases hr'
    exact ⟨hin, rfl, Nat.zero_le _, Nat.le_refl _, by simp, hE _ _⟩
  · cases hs

theorem program_finish (hr : e.running = some r) (kernel : List Int) (ret : Int) :
    (e.finish r kernel ret).program = e.program := by
  simp [program, finish, hr]

theorem moved_finish (hr : e.running = some r) (kernel : List Int) (ret : Int) :
    (e.finish r kernel ret).moved = e.moved := by
  simp [moved, finish, hr]

theorem Ok.finish (h : e.Ok E) {kernel : List Int} {ret : Int}
    (hf : Returned.Ok E ⟨r.call, r.before, e.mem, kernel, r.bytes, ret⟩) : (e.finish r kernel ret).Ok E := by
  refine ⟨h.calls, by simp [Endpoint.finish], fun f hf' => ?_⟩
  simp only [Endpoint.finish, List.mem_append, List.mem_singleton] at hf'
  obtain hf' | rfl := hf'
  · exact h.returned f hf'
  · exact hf

theorem Ok.ret (h : e.Ok E) (hs : e.ret = some e') : e'.Ok E ∧ e'.moved = e.moved ∧ e'.program = e.program := by
  unfold Endpoint.ret at hs
  split at hs
  · next r hr =>
    split at hs
    · cases hs
    next hlen =>
    cases hs
    have hok := h.running r hr
    have hreg : r.region.size = r.call.len := by rw [hok.region]
    have hle := hok.le
    have hk := hok.kernel
    exact ⟨h.finish ⟨hok.call, by simp only; omega, hok.effect, .inl ⟨rfl, by simp only; omega, hok.positive⟩⟩,
      moved_finish hr _ _, program_finish hr _ _⟩
  · cases hs

/-- The loop ends just where all its bytes are moved. -/
theorem Ok.ret_iff (h : e.Ok E) (hr : e.running = some r) : e.ret.isSome ↔ r.bytes.length = r.call.len := by
  have hok := h.running r hr
  have hreg : r.region.size = r.call.len := by rw [hok.region]
  have hle := hok.le
  unfold Endpoint.ret
  rw [hr]
  simp only
  split
  · simp only [Option.isSome_none, Bool.false_eq_true, false_iff]
    omega
  · simp only [Option.isSome_some, true_iff]
    omega

theorem Ok.fail (h : e.Ok E) (hs : e.fail k = some e') : e'.Ok E ∧ e'.moved = e.moved ∧ e'.program = e.program := by
  unfold Endpoint.fail at hs
  split at hs
  · next r hr =>
    split at hs
    · next hlen =>
      cases hs
      have hok := h.running r hr
      have hreg : r.region.size = r.call.len := by rw [hok.region]
      have hk := hok.kernel
      exact ⟨h.finish ⟨hok.call, by simp only [List.length_append, List.length_singleton]; omega, hok.effect,
        .inr ⟨rfl, by simp only; omega, k, by simp, hlen.2⟩⟩,
        moved_finish hr _ _, program_finish hr _ _⟩
    · cases hs
  · cases hs

theorem moved_move (hr : e.running = some r) : (e.move r n bs m).moved = e.moved ++ bs := by
  simp [moved, move, hr]

theorem program_move (hr : e.running = some r) : (e.move r n bs m).program = e.program := by
  simp [program, move, hr]

/-- A kernel call that moves bytes. -/
theorem Ok.move (h : e.Ok E) (hr : e.running = some r) (hn : 0 < n) (hbs : bs.length = n)
    (hle : r.bytes.length + n ≤ r.region.size)
    (heff : E r.before r.call.start (r.bytes ++ bs) m) : (e.move r n bs m).Ok E := by
  have hok := h.running r hr
  have hreg : r.region.size = r.call.len := by rw [hok.region]
  have hk := hok.kernel
  refine ⟨h.calls, fun r' hr' => ?_, h.returned⟩
  cases hr'
  refine ⟨hok.call, hok.region, ?_, ?_, fun n' hn' => ?_, heff⟩
  · simp only [List.length_append]
    omega
  · simp only [List.length_append, List.length_singleton]
    omega
  · simp only [List.mem_append, List.mem_singleton] at hn'
    obtain hn' | rfl := hn'
    · exact hok.positive n' hn'
    · omega

end Endpoint

/-! ## Runs -/

structure Inv (sends recvs : List Call) (s : State β) : Prop where
  tx : s.tx.Ok Reads
  rx : s.rx.Ok Writes
  handed : s.handed = s.tx.moved
  taken : s.taken = s.rx.moved
  stream : s.handed = s.taken ++ s.stream
  sends : s.tx.program = sends
  recvs : s.rx.program = recvs

variable {sends recvs : List Call} {s s' : State β}

theorem Inv.atEnd {f : Endpoint β → Option (Endpoint β)} (h : Inv sends recvs s) {side : Side}
    (hs : s.atEnd f side = some s')
    (htx : ∀ e', f s.tx = some e' → e'.Ok Reads ∧ e'.moved = s.tx.moved ∧ e'.program = s.tx.program)
    (hrx : ∀ e', f s.rx = some e' → e'.Ok Writes ∧ e'.moved = s.rx.moved ∧ e'.program = s.rx.program) :
    Inv sends recvs s' := by
  cases side with
  | sender =>
    obtain ⟨e', he, rfl⟩ := Option.map_eq_some_iff.mp hs
    obtain ⟨hok, hmoved, hprog⟩ := htx e' he
    exact ⟨hok, h.rx, h.handed.trans hmoved.symm, h.taken, h.stream, hprog.trans h.sends, h.recvs⟩
  | receiver =>
    obtain ⟨e', he, rfl⟩ := Option.map_eq_some_iff.mp hs
    obtain ⟨hok, hmoved, hprog⟩ := hrx e' he
    exact ⟨h.tx, hok, h.handed, h.taken.trans hmoved.symm, h.stream, h.sends, hprog.trans h.recvs⟩

theorem Inv.send {n : Nat} (h : Inv sends recvs s) (hs : s.send n = some s') : Inv sends recvs s' := by
  unfold State.send at hs
  split at hs
  · next r hr =>
    split at hs
    · next hn =>
      cases hs
      have hok := h.tx.running r hr
      obtain ⟨hmem, hbytes⟩ := hok.effect
      have hstart : r.region.addr = r.call.start := by rw [hok.region]
      have heff : Reads r.before r.call.start
          (r.bytes ++ s.tx.mem.read (r.region.addr + r.bytes.length) n) s.tx.mem := by
        refine ⟨hmem, ?_⟩
        rw [List.length_append, Mem.length_read, Mem.read_add, ← hbytes, hstart, hmem]
      refine ⟨h.tx.move hr hn.1 Mem.length_read hn.2 heff, h.rx, ?_, h.taken, ?_,
        (Endpoint.program_move hr).trans h.sends, h.recvs⟩
      · rw [Endpoint.moved_move hr, h.handed]
      · rw [h.stream, List.append_assoc]
    · cases hs
  · cases hs

theorem Inv.recv {n : Nat} (h : Inv sends recvs s) (hs : s.recv n = some s') : Inv sends recvs s' := by
  unfold State.recv at hs
  split at hs
  · next r hr =>
    split at hs
    · next hn =>
      cases hs
      have hok := h.rx.running r hr
      have hstart : r.region.addr = r.call.start := by rw [hok.region]
      have heff : Writes r.before r.call.start (r.bytes ++ s.stream.take n)
          (s.rx.mem.write (r.region.addr + r.bytes.length) (s.stream.take n)) := by
        unfold Writes
        rw [show s.rx.mem = r.before.write r.call.start r.bytes from hok.effect, hstart, Mem.write_append]
      have hlen : (s.stream.take n).length = n := List.length_take_of_le hn.2.1
      refine ⟨h.tx, h.rx.move hr hn.1 hlen hn.2.2 heff, h.handed, ?_, ?_, h.sends,
        (Endpoint.program_move hr).trans h.recvs⟩
      · rw [Endpoint.moved_move hr, h.taken]
      · rw [h.stream, List.append_assoc, List.take_append_drop]
    · cases hs
  · cases hs

theorem Inv.step {a : Act β} (h : Inv sends recvs s) (hs : step a s = some s') : Inv sends recvs s' := by
  have hreads (m : Mem β) (a : Nat) : Reads m a [] m := ⟨rfl, rfl⟩
  have hwrites (m : Mem β) (a : Nat) : Writes m a [] m := (Mem.write_nil m a).symm
  cases a with
  | store side m => exact h.atEnd hs (fun _ he => h.tx.store he) (fun _ he => h.rx.store he)
  | call side => exact h.atEnd hs (fun _ he => h.tx.call hreads he) (fun _ he => h.rx.call hwrites he)
  | ret side => exact h.atEnd hs (fun _ he => h.tx.ret he) (fun _ he => h.rx.ret he)
  | fail side n => exact h.atEnd hs (fun _ he => h.tx.fail he) (fun _ he => h.rx.fail he)
  | send n => exact h.send hs
  | recv n => exact h.recv hs

theorem reach_inv (hs : ∀ c ∈ sends, c.InBounds) (hr : ∀ c ∈ recvs, c.InBounds)
    (h : (channel sends recvs).Reach s) : Inv sends recvs s := by
  refine Lts.Reach.inv (fun s h0 => ?_) (fun _ _ _ _ hi hst => hi.step hst) h
  obtain ⟨m, m', rfl⟩ := h0
  exact ⟨⟨hs, by simp, by simp⟩, ⟨hr, by simp, by simp⟩, rfl, rfl, rfl, rfl, rfl⟩

/-- A loop that is over: it made at most one kernel call per byte, and failed just where one of them did. -/
structure Returned.Looped (f : Returned β) : Prop where
  calls : f.kernel.length ≤ f.call.len
  ret : f.ret = 0 ∨ f.ret = -1
  failed : f.ret = -1 ↔ ∃ n ∈ f.kernel, n ≤ 0

theorem Returned.Ok.looped {E : Mem β → Nat → List β → Mem β → Prop} {f : Returned β} (h : f.Ok E) : f.Looped := by
  refine ⟨h.kernel, ?_, ?_⟩
  · obtain hr | hr := h.ret
    · exact Or.inl hr.1
    · exact Or.inr hr.1
  · obtain ⟨hr, -, hpos⟩ | ⟨hr, -, hneg⟩ := h.ret
    · rw [hr]
      constructor
      · intro h0
        cases h0
      · intro hex
        obtain ⟨n, hn, hle⟩ := hex
        have := hpos n hn
        omega
    · simp [hr, hneg]

theorem Returned.Ok.length_eq {E : Mem β → Nat → List β → Mem β → Prop} {f : Returned β} (h : f.Ok E)
    (h0 : f.ret = 0) : f.bytes.length = f.call.len := by
  obtain ⟨-, hlen, -⟩ | ⟨hr, -⟩ := h.ret
  · exact hlen
  · omega

theorem Returned.Ok.length_le {E : Mem β → Nat → List β → Mem β → Prop} {f : Returned β} (h : f.Ok E) :
    f.bytes.length ≤ f.call.len := by
  obtain ⟨-, hlen, -⟩ | ⟨-, hlen, -⟩ := h.ret
  · exact hlen.le
  · exact hlen.le

/-- The bytes received are those sent, in order, whatever the calls and the
kernel's counts on the two sides; a send that returns 0 has handed over its
region, a receive writes nothing but its own. A loop makes no more kernel
calls than it moves bytes, and returns when it has moved them all. -/
theorem channel_fifo (sends recvs : List Call) (hsends : ∀ c ∈ sends, c.InBounds) (hrecvs : ∀ c ∈ recvs, c.InBounds)
    (s : State β) (h : (channel sends recvs).Reach s) :
    (∀ k < s.taken.length, s.taken[k]? = s.handed[k]?) ∧
    (s.handed = s.tx.moved ∧ s.tx.program = sends ∧ s.taken = s.rx.moved ∧ s.rx.program = recvs) ∧
    (∀ f ∈ s.tx.returned, f.Looped ∧ f.after = f.before ∧
      (f.ret = 0 → f.bytes = f.before.read f.call.start f.call.len)) ∧
    (∀ f ∈ s.rx.returned, f.Looped ∧
      (f.ret = 0 → f.bytes.length = f.call.len ∧ f.after = f.before.write f.call.start f.bytes) ∧
      ∀ i, i < f.call.start ∨ f.call.start + f.call.len ≤ i → f.after i = f.before i) ∧
    (∀ e, e = s.tx ∨ e = s.rx → ∀ r, e.running = some r → r.kernel.length ≤ r.bytes.length ∧
      r.bytes.length ≤ r.call.len ∧ (e.ret.isSome ↔ r.bytes.length = r.call.len)) := by
  have hinv := reach_inv hsends hrecvs h
  refine ⟨fun k hk => ?_, ⟨hinv.handed, hinv.sends, hinv.taken, hinv.recvs⟩, fun f hf => ?_, fun f hf => ?_,
    fun e he r hr => ?_⟩
  · rw [hinv.stream, List.getElem?_append_left hk]
  · have hok := hinv.tx.returned f hf
    refine ⟨hok.looped, hok.effect.1, fun h0 => ?_⟩
    rw [← hok.length_eq h0]
    exact hok.effect.2
  · have hok := hinv.rx.returned f hf
    have heff : f.after = f.before.write f.call.start f.bytes := hok.effect
    refine ⟨hok.looped, fun h0 => ⟨hok.length_eq h0, heff⟩, fun i hi => ?_⟩
    have hlen := hok.length_le
    rw [heff]
    exact Mem.write_outside (by omega)
  · obtain rfl | rfl := he
    · exact ⟨(hinv.tx.running r hr).kernel, (hinv.tx.running r hr).le, hinv.tx.ret_iff hr⟩
    · exact ⟨(hinv.rx.running r hr).kernel, (hinv.rx.running r hr).le, hinv.rx.ret_iff hr⟩

/-- Three bytes sent in one call and received in two. -/
def threeSends : List Call := [⟨⟨4096, 8, none⟩, 3, 2⟩]

def threeRecvs : List Call := [⟨⟨8192, 4, none⟩, 2, 0⟩, ⟨⟨8192, 4, none⟩, 1, 3⟩]

def threeActs : List (Act Nat) :=
  [.call .sender, .send 1, .call .receiver, .recv 1, .send 2, .ret .sender, .recv 1, .ret .receiver,
    .call .receiver, .recv 1, .ret .receiver]

theorem channel_fifo_three :
    ∃ s : State Nat, (channel threeSends threeRecvs).Reach s ∧ s.taken = [4098, 4099, 4100] ∧
      (∀ k < s.taken.length, s.taken[k]? = s.handed[k]?) ∧
      s.rx.returned.map Returned.ret = [0, 0] ∧ ∀ f ∈ s.rx.returned, f.Looped := by
  have hrun : ((channel threeSends threeRecvs).exec threeActs
      ⟨⟨threeSends, id, none, []⟩, ⟨threeRecvs, fun _ => 0, none, []⟩, [], [], []⟩).map
      (fun s => (s.taken, s.rx.returned.map Returned.ret)) = some ([4098, 4099, 4100], [0, 0]) := by
    decide +kernel
  obtain ⟨s, hs, heq⟩ := Option.map_eq_some_iff.mp hrun
  have hreach : (channel threeSends threeRecvs).Reach s := Lts.Reach.exec (Lts.Reach.init ⟨id, _, rfl⟩) hs
  have hsends : ∀ c ∈ threeSends, c.InBounds := by
    simp only [threeSends, List.forall_mem_cons]
    exact ⟨⟨by decide, by decide, by decide, by decide⟩, by simp⟩
  have hrecvs : ∀ c ∈ threeRecvs, c.InBounds := by
    simp only [threeRecvs, List.forall_mem_cons]
    exact ⟨⟨by decide, by decide, by decide, by decide⟩, ⟨by decide, by decide, by decide, by decide⟩, by simp⟩
  have h := channel_fifo threeSends threeRecvs hsends hrecvs s hreach
  exact ⟨s, hreach, congrArg Prod.fst heq, h.1, congrArg Prod.snd heq, fun f hf => (h.2.2.2.1 f hf).1⟩

end RdmaInfra.Transport.TcpChannel
