/-
The slab of the KV server, and the client's view of it.

The server sizes the slab from its arguments, the client places slot `i` at
`base_addr + i * slot_size` from values it got over the wire, and neither sees
the other's arithmetic. All of it is modulo 2^64. Where `resize` does not
throw, the product did not wrap (`slabSize_cases`), so every slot has its own
range of the slab, and the slab behaves as an array of slots (`Refines`).
-/
import RdmaInfra.Memory
import RdmaInfra.Wire
import RdmaInfra.Verbs.Ops

namespace RdmaInfra.KvCache

open Verbs (sgeInBounds)

/-! ## The server -/

structure Config where
  port : Int
  numSlots : Int
  slotSize : Nat
  deriving DecidableEq, Repr

/-- `config_parse` of `kv_server`, on `argv`. -/
def configParse (argv : List String) : Option Config :=
  match argv with
  | _ :: port :: numSlots :: slotSize :: _ =>
    let cfg : Config := ⟨atoi port, atoi numSlots, intToSizeT (atoi slotSize)⟩
    if cfg.numSlots ≤ 0 ∨ cfg.slotSize = 0 then none else some cfg
  | _ => none

/-- `pool.num_slots * pool.slot_size`. -/
def slabSize (cfg : Config) : Nat := sizeT (intToSizeT cfg.numSlots * cfg.slotSize)

/-- `std::vector<char>::max_size()`. -/
def maxSize : Nat := 2 ^ 63 - 1

/-- The size `pool.mem` is resized to, or `none` where `resize` throws and the
server exits. (It may also throw for want of memory.) -/
def resize (n : Nat) : Option Nat := if n > maxSize then none else some n

/-- A registered memory region, as the NIC checks remote accesses against it. -/
structure Mr where
  addr : Nat
  size : Nat
  rkey : Nat
  deriving DecidableEq, Repr

/-- Whether the NIC lets a remote access of `len` bytes at `addr` through. -/
def Mr.permits (mr : Mr) (rkey addr len : Nat) : Bool :=
  rkey == mr.rkey && decide (mr.addr ≤ addr ∧ addr + len ≤ mr.addr + mr.size)

/-! ## The client -/

structure KVMeta where
  numSlots : Int
  slotSize : Nat
  deriving DecidableEq, Repr

/-- The image of `KVMeta`; `pad` is what the padding happens to hold. -/
def KVMeta.bytes (m : KVMeta) (pad : List UInt8) : List UInt8 := intBytes m.numSlots ++ pad ++ leBytes 8 m.slotSize

def KVMeta.ofBytes (bs : List UInt8) : KVMeta := ⟨intOfBytes (field bs 0 4), leNat (field bs 8 8)⟩

structure KVRemote where
  baseAddr : Nat
  rkey : Nat
  slotSize : Nat
  numSlots : Int
  deriving DecidableEq, Repr

/-- What the client knows after `handshake_meta` and `exchange_buf`. -/
def KVRemote.ofWire (metaBytes : List UInt8) (addr rkey : Nat) : KVRemote :=
  let m := KVMeta.ofBytes metaBytes
  ⟨addr, rkey, m.slotSize, m.numSlots⟩

/-- `remote.base_addr + slot_idx * remote.slot_size`. -/
def KVRemote.remoteAddr (remote : KVRemote) (slotIdx : Int) : Nat :=
  sizeT (remote.baseAddr + sizeT (intToSizeT slotIdx * remote.slotSize))

section Ops

variable {β : Type}

/-- Both memories: the server's, by address, and the client's buffer. -/
structure Mems (β : Type) where
  server : Mem β
  buf : Mem β

/-- `write_async(&sb.h, remote_addr, rkey, slot_size, id, 0)` and its `poll`:
`none` where the post or its completion fails. The local buffer is registered
with `slot_size` bytes, and the length is a `uint32_t` parameter. -/
def writeSlot (mr : Mr) (remote : KVRemote) (slotIdx : Int) (m : Mems β) : Option (Mems β) :=
  let addr := sizeT (remote.remoteAddr slotIdx + 0)
  let size := u32 remote.slotSize
  if sgeInBounds remote.slotSize size 0 && mr.permits remote.rkey addr size then
    some { m with server := m.server.write addr (m.buf.read 0 size) }
  else none

/-- `read_async` of a whole slot and its `poll`. -/
def readSlot (mr : Mr) (remote : KVRemote) (slotIdx : Int) (m : Mems β) : Option (Mems β) :=
  let addr := sizeT (remote.remoteAddr slotIdx + 0)
  let size := u32 remote.slotSize
  if sgeInBounds remote.slotSize size 0 && mr.permits remote.rkey addr size then
    some { m with buf := m.buf.write 0 (m.server.read addr size) }
  else none

/-- What a client does: it changes its buffer, writes it to a slot, reads a
slot into it. -/
inductive SlotOp (β : Type)
  | fill (f : Mem β)
  | write (slotIdx : Int)
  | read (slotIdx : Int)

def SlotOp.run (mr : Mr) (remote : KVRemote) : SlotOp β → Mems β → Option (Mems β)
  | .fill f, m => some { m with buf := f }
  | .write i, m => writeSlot mr remote i m
  | .read i, m => readSlot mr remote i m

def runOps (mr : Mr) (remote : KVRemote) : List (SlotOp β) → Mems β → Option (Mems β)
  | [], m => some m
  | op :: ops, m => (op.run mr remote m).bind (runOps mr remote ops)

/-! ## What the slab is for -/

/-- An array of slots and a buffer: what the client means to work on. -/
structure Slots (β : Type) where
  slot : Int → List β
  buf : List β

def SlotOp.apply (slotSize : Nat) : SlotOp β → Slots β → Slots β
  | .fill f, a => { a with buf := f.read 0 slotSize }
  | .write i, a => { a with slot := Function.update a.slot i a.buf }
  | .read i, a => { a with buf := a.slot i }

/-- The slots as they lie in memory, where the client looks for them. -/
def Mems.view (remote : KVRemote) (m : Mems β) : Slots β :=
  ⟨fun i => m.server.read (remote.remoteAddr i) remote.slotSize, m.buf.read 0 remote.slotSize⟩

/-- The slots an operation uses are among those the pool hands out. -/
def SlotOp.Valid (numSlots : Int) : SlotOp β → Prop
  | .fill _ => True
  | .write i | .read i => 0 ≤ i ∧ i < numSlots

end Ops

/-! ## The layout -/

/-- A product that neither side of which is negative is exact; with a negative
slot size it is a value no vector can have. -/
theorem slabSize_cases {argv : List String} {cfg : Config} (h : configParse argv = some cfg) :
    resize (slabSize cfg) = none ∨
      ∃ n : Nat, cfg.numSlots = n ∧ n < 2 ^ 31 ∧ 0 < cfg.slotSize ∧ cfg.slotSize < 2 ^ 31 ∧
        slabSize cfg = n * cfg.slotSize := by
  simp only [configParse] at h
  split at h
  swap
  · cases h
  next numSlots slotSize _ =>
  split at h
  · cases h
  next hacc =>
  cases h
  have hn := atoi_isInt numSlots
  have hs := atoi_isInt slotSize
  generalize atoi numSlots = n at *
  generalize atoi slotSize = i at *
  simp only [not_or, not_le] at hacc
  have hnn := intToSizeT_of_nonneg hn hacc.1.le
  have hnlt : n.toNat < 2 ^ 31 := by have := hn.2; omega
  by_cases h0 : 0 ≤ i
  · right
    have hi := intToSizeT_of_nonneg hs h0
    have hilt : i.toNat < 2 ^ 31 := by have := hs.2; omega
    have hprod : n.toNat * i.toNat < 2 ^ 64 := by
      have := Nat.mul_le_mul hnlt.le hilt.le
      omega
    refine ⟨n.toNat, by simp only; omega, hnlt, by simp only; omega, by simp only; omega, ?_⟩
    simp only [slabSize, hnn, hi]
    exact sizeT_of_lt hprod
  · left
    -- A negative slot size `-k`: the product is `2^64 - n * k`, and `n * k` is small.
    have hi := intToSizeT_of_neg hs (by omega)
    obtain ⟨k, hk⟩ : ∃ k : Nat, k = (-i).toNat := ⟨_, rfl⟩
    have hk1 : 1 ≤ k := by omega
    have hk2 : k ≤ 2 ^ 31 := by have := hs.1; omega
    have hn1 : 1 ≤ n.toNat := by omega
    have hnk : n.toNat * k ≤ 2 ^ 62 := by have := Nat.mul_le_mul hnlt.le hk2; omega
    have hnk1 : 1 ≤ n.toNat * k := Nat.mul_pos hn1 hk1
    have hsum : n.toNat * (2 ^ 64 - k) + n.toNat * k = n.toNat * 2 ^ 64 := by
      rw [← Nat.mul_add, Nat.sub_add_cancel (by omega)]
    have hval : n.toNat * (2 ^ 64 - k) = (n.toNat - 1) * 2 ^ 64 + (2 ^ 64 - n.toNat * k) := by
      have : n.toNat * 2 ^ 64 = (n.toNat - 1) * 2 ^ 64 + 2 ^ 64 := by
        rw [← Nat.succ_mul, Nat.succ_eq_add_one, Nat.sub_add_cancel hn1]
      omega
    have hsize : sizeT (intToSizeT n * intToSizeT i) = 2 ^ 64 - n.toNat * k := by
      rw [hnn, hi, ← hk, sizeT, hval, Nat.mul_comm, Nat.mul_add_mod]
      exact Nat.mod_eq_of_lt (by omega)
    rw [slabSize, hsize, resize, if_pos]
    simp only [maxSize]
    omega

theorem KVMeta.ofBytes_bytes {m : KVMeta} {pad : List UInt8} (hn : IsInt m.numSlots) (hs : m.slotSize < 2 ^ 64)
    (hp : pad.length = 4) : KVMeta.ofBytes (m.bytes pad) = m := by
  obtain ⟨n, sz⟩ := m
  have h8 : sz < 256 ^ 8 := by simp only at hs; omega
  have hf0 : field (KVMeta.bytes ⟨n, sz⟩ pad) 0 4 = intBytes n := by
    rw [KVMeta.bytes, List.append_assoc]
    exact field_append (a := []) rfl (length_intBytes n)
  have hf8 : field (KVMeta.bytes ⟨n, sz⟩ pad) 8 8 = leBytes 8 sz := by
    rw [KVMeta.bytes, ← List.append_nil (leBytes 8 sz)]
    exact field_append (by rw [List.length_append, length_intBytes, hp]) (length_leBytes ..)
  rw [KVMeta.ofBytes, hf0, hf8, intOfBytes_intBytes hn, leNat_leBytes h8]

/-- The sizes both sides agree on, and where the slab lies. -/
structure Layout where
  base : Nat
  rkey : Nat
  num : Nat
  slot : Nat
  slot_pos : 0 < slot
  slot_lt : slot < 2 ^ 31
  num_lt : num < 2 ^ 31
  no_wrap : base + num * slot ≤ 2 ^ 64

namespace Layout

variable (L : Layout)

def mr : Mr := ⟨L.base, L.num * L.slot, L.rkey⟩

def remote : KVRemote := ⟨L.base, L.rkey, L.slot, L.num⟩

variable {L} {i j : Int}

theorem slot_end (h : 0 ≤ i ∧ i < L.num) : i.toNat * L.slot + L.slot ≤ L.num * L.slot := by
  have := Nat.mul_le_mul_right L.slot (show i.toNat + 1 ≤ L.num by omega)
  rwa [Nat.add_mul, Nat.one_mul] at this

/-- The client's arithmetic is exact. -/
theorem remoteAddr_eq (h : 0 ≤ i ∧ i < L.num) : L.remote.remoteAddr i = L.base + i.toNat * L.slot := by
  have hend := slot_end h
  have hw := L.no_wrap
  have hp := L.slot_pos
  have hint : IsInt i := ⟨by omega, by have := L.num_lt; omega⟩
  simp only [KVRemote.remoteAddr, remote, intToSizeT_of_nonneg hint h.1]
  rw [sizeT_of_lt (n := i.toNat * L.slot) (by omega), sizeT_of_lt (by omega)]

theorem slot_inside (h : 0 ≤ i ∧ i < L.num) :
    L.base ≤ L.remote.remoteAddr i ∧ L.remote.remoteAddr i + L.slot ≤ L.base + L.num * L.slot := by
  have := slot_end h
  rw [remoteAddr_eq h]
  omega

theorem slot_disjoint (hi : 0 ≤ i ∧ i < L.num) (hj : 0 ≤ j ∧ j < L.num) (hne : i ≠ j) :
    L.remote.remoteAddr i + L.slot ≤ L.remote.remoteAddr j ∨ L.remote.remoteAddr j + L.slot ≤ L.remote.remoteAddr i := by
  rw [remoteAddr_eq hi, remoteAddr_eq hj]
  rcases lt_or_gt_of_ne hne with h | h
  · have := Nat.mul_le_mul_right L.slot (show i.toNat + 1 ≤ j.toNat by omega)
    rw [Nat.add_mul, Nat.one_mul] at this
    omega
  · have := Nat.mul_le_mul_right L.slot (show j.toNat + 1 ≤ i.toNat by omega)
    rw [Nat.add_mul, Nat.one_mul] at this
    omega

theorem slot_cover {a : Nat} (h1 : L.base ≤ a) (h2 : a < L.base + L.num * L.slot) :
    ∃ i : Int, (0 ≤ i ∧ i < L.num) ∧ L.remote.remoteAddr i ≤ a ∧ a < L.remote.remoteAddr i + L.slot := by
  have hdiv : (a - L.base) / L.slot < L.num := Nat.div_lt_of_lt_mul (by rw [Nat.mul_comm]; omega)
  have h := Nat.div_add_mod' (a - L.base) L.slot
  have hm := Nat.mod_lt (a - L.base) L.slot_pos
  generalize (a - L.base) / L.slot = q at hdiv h
  refine ⟨q, by omega, ?_⟩
  rw [remoteAddr_eq (by omega), Int.toNat_natCast]
  omega

/-! ### The slots as an array -/

variable {β : Type} {m : Mems β}

theorem permits (h : 0 ≤ i ∧ i < L.num) : L.mr.permits L.rkey (L.remote.remoteAddr i) L.slot = true := by
  have := slot_inside h
  simp [Mr.permits, mr, this]

theorem addr_eq (h : 0 ≤ i ∧ i < L.num) : sizeT (L.remote.remoteAddr i + 0) = L.remote.remoteAddr i := by
  have := slot_inside h
  have := L.no_wrap
  have := L.slot_pos
  exact sizeT_of_lt (by omega)

theorem size_eq : u32 L.slot = L.slot := u32_of_lt (by have := L.slot_lt; omega)

theorem sge_ok : sgeInBounds L.slot L.slot 0 = true :=
  Verbs.sgeInBounds_of_le L.slot_pos (by omega) (by have := L.slot_lt; omega)

theorem writeSlot_eq (h : 0 ≤ i ∧ i < L.num) :
    writeSlot L.mr L.remote i m =
      some { m with server := m.server.write (L.remote.remoteAddr i) (m.buf.read 0 L.slot) } := by
  have hs : L.remote.slotSize = L.slot := rfl
  have hk : L.remote.rkey = L.rkey := rfl
  simp only [writeSlot, hs, hk, addr_eq h, size_eq, sge_ok, permits h, Bool.and_self, if_true]

theorem readSlot_eq (h : 0 ≤ i ∧ i < L.num) :
    readSlot L.mr L.remote i m = some { m with buf := m.buf.write 0 (m.server.read (L.remote.remoteAddr i) L.slot) } := by
  have hs : L.remote.slotSize = L.slot := rfl
  have hk : L.remote.rkey = L.rkey := rfl
  simp only [readSlot, hs, hk, addr_eq h, size_eq, sge_ok, permits h, Bool.and_self, if_true]

end Layout

/-- Memory shows every slot as the array has it. -/
def Refines (L : Layout) (a : Slots β) (m : Mems β) : Prop :=
  m.buf.read 0 L.slot = a.buf ∧ ∀ i : Int, 0 ≤ i ∧ i < L.num → m.server.read (L.remote.remoteAddr i) L.slot = a.slot i

section Refine

variable {β : Type} {L : Layout}

/-- An operation on valid slots succeeds, does to memory what it does to the
array, and leaves memory outside the slab alone. -/
theorem run_refines {a : Slots β} {m : Mems β} {op : SlotOp β} (hv : op.Valid L.num) (h : Refines L a m) :
    ∃ m', op.run L.mr L.remote m = some m' ∧ Refines L (op.apply L.slot a) m' ∧
      ∀ x, x < L.base ∨ L.base + L.num * L.slot ≤ x → m'.server x = m.server x := by
  cases op with
  | fill f => exact ⟨_, rfl, ⟨rfl, h.2⟩, fun _ _ => rfl⟩
  | write i =>
    refine ⟨_, Layout.writeSlot_eq hv, ⟨h.1, fun j hj => ?_⟩, fun x hx => ?_⟩
    · simp only [SlotOp.apply]
      by_cases hij : j = i
      · subst hij
        rw [Function.update_self, ← h.1]
        exact Mem.read_write (by simp)
      · rw [Function.update_of_ne hij, ← h.2 j hj]
        refine Mem.read_write_disjoint ?_
        rw [Mem.length_read]
        exact (Layout.slot_disjoint hj hv hij)
    · have := Layout.slot_inside hv
      exact Mem.write_outside (by rw [Mem.length_read]; omega)
  | read i =>
    refine ⟨_, Layout.readSlot_eq hv, ⟨?_, h.2⟩, fun _ _ => rfl⟩
    simp only [SlotOp.apply]
    rw [← h.2 i hv]
    exact Mem.read_write (by simp)

theorem runOps_refines {ops : List (SlotOp β)} {a : Slots β} {m : Mems β} (hv : ∀ op ∈ ops, op.Valid L.num)
    (h : Refines L a m) :
    ∃ m', runOps L.mr L.remote ops m = some m' ∧ Refines L (ops.foldl (fun a op => op.apply L.slot a) a) m' ∧
      ∀ x, x < L.base ∨ L.base + L.num * L.slot ≤ x → m'.server x = m.server x := by
  induction ops generalizing a m with
  | nil => exact ⟨m, rfl, h, fun _ _ => rfl⟩
  | cons op ops ih =>
    obtain ⟨m1, h1, hr1, ho1⟩ := run_refines (hv op List.mem_cons_self) h
    obtain ⟨m', h', hr', ho'⟩ := ih (fun op hop => hv op (List.mem_cons_of_mem _ hop)) hr1
    exact ⟨m', by simp [runOps, h1, h'], hr', fun x hx => (ho' x hx).trans (ho1 x hx)⟩

end Refine

/-- For every accepted configuration, `resize` throws, or the client's slots
are exact ranges inside the slab, disjoint and covering it; and then any
sequence of writes and reads of whole slots succeeds and is one on an array of
slots: a read gives what was last written to its slot, and a write changes no
other. -/
theorem slab_isolation {β : Type} (argv : List String) (cfg : Config) (h : configParse argv = some cfg) :
    resize (slabSize cfg) = none ∨
    ∀ (base rkey : Nat) (pad : List UInt8), base + slabSize cfg ≤ 2 ^ 64 → pad.length = 4 →
      let mr : Mr := ⟨base, slabSize cfg, rkey⟩
      let remote := KVRemote.ofWire (KVMeta.bytes ⟨cfg.numSlots, cfg.slotSize⟩ pad) base rkey
      (∀ i : Int, 0 ≤ i ∧ i < cfg.numSlots → remote.remoteAddr i = base + i.toNat * cfg.slotSize ∧
        remote.remoteAddr i + cfg.slotSize ≤ base + slabSize cfg) ∧
      (∀ i j : Int, 0 ≤ i ∧ i < cfg.numSlots → 0 ≤ j ∧ j < cfg.numSlots → i ≠ j →
        remote.remoteAddr i + cfg.slotSize ≤ remote.remoteAddr j ∨
          remote.remoteAddr j + cfg.slotSize ≤ remote.remoteAddr i) ∧
      (∀ a, base ≤ a → a < base + slabSize cfg → ∃ i : Int, (0 ≤ i ∧ i < cfg.numSlots) ∧
        remote.remoteAddr i ≤ a ∧ a < remote.remoteAddr i + cfg.slotSize) ∧
      ∀ ops : List (SlotOp β), (∀ op ∈ ops, op.Valid cfg.numSlots) → ∀ m : Mems β,
        ∃ m', runOps mr remote ops m = some m' ∧
          m'.buf.read 0 cfg.slotSize =
            (ops.foldl (fun a op => op.apply cfg.slotSize a) (m.view remote)).buf ∧
          ∀ i : Int, 0 ≤ i ∧ i < cfg.numSlots → m'.server.read (remote.remoteAddr i) cfg.slotSize =
            (ops.foldl (fun a op => op.apply cfg.slotSize a) (m.view remote)).slot i := by
  rcases slabSize_cases h with hthrow | ⟨n, hn, hnlt, hpos, hlt, hsize⟩
  · exact .inl hthrow
  right
  intro base rkey pad hbase hpad mr remote
  let L : Layout := ⟨base, rkey, n, cfg.slotSize, hpos, hlt, hnlt, hsize ▸ hbase⟩
  have hmr : mr = L.mr := by simp only [mr, hsize, Layout.mr, L]
  have hremote : remote = L.remote := by
    have hwire : KVMeta.ofBytes (KVMeta.bytes ⟨cfg.numSlots, cfg.slotSize⟩ pad) = ⟨cfg.numSlots, cfg.slotSize⟩ :=
      KVMeta.ofBytes_bytes ⟨by simp only [hn]; omega, by simp only [hn]; omega⟩ (by simp only; omega) hpad
    simp only [remote, KVRemote.ofWire, hwire]
    simp only [hn, Layout.remote, L]
  rw [hmr, hremote, hsize, hn]
  refine ⟨fun i hi => ⟨Layout.remoteAddr_eq (L := L) hi, (Layout.slot_inside (L := L) hi).2⟩,
    fun i j hi hj hne => Layout.slot_disjoint (L := L) hi hj hne,
    fun a h1 h2 => Layout.slot_cover (L := L) h1 h2, fun ops hv m => ?_⟩
  obtain ⟨m', hm', hr, -⟩ := runOps_refines (L := L) (a := m.view L.remote) hv ⟨rfl, fun i hi => rfl⟩
  exact ⟨m', hm', hr.1, hr.2⟩

/-- Three slots of 16 bytes: the first two written, the first one read back. -/
theorem slab_isolation_three_slots :
    let remote := KVRemote.ofWire (KVMeta.bytes ⟨3, 16⟩ [0, 0, 0, 0]) 4096 7
    let ops : List (SlotOp Nat) := [.fill id, .write 0, .fill fun _ => 9, .write 1, .read 0]
    ∃ m', runOps ⟨4096, 48, 7⟩ remote ops ⟨fun _ => 0, fun _ => 0⟩ = some m' ∧
      m'.buf.read 0 16 = List.range 16 ∧ m'.server.read (remote.remoteAddr 1) 16 = List.replicate 16 9 := by
  have h : configParse ["kv_server", "12345", "3", "16"] = some ⟨12345, 3, 16⟩ := by decide
  have hnt : resize (slabSize ⟨12345, 3, 16⟩) ≠ none := by decide
  obtain ⟨-, -, -, hops⟩ :=
    (slab_isolation (β := Nat) _ _ h).resolve_left hnt 4096 7 [0, 0, 0, 0] (by decide) rfl
  obtain ⟨m', hm', hbuf, hslot⟩ := hops [.fill id, .write 0, .fill fun _ => 9, .write 1, .read 0]
    (by simp [SlotOp.Valid]) ⟨fun _ => 0, fun _ => 0⟩
  exact ⟨m', hm', hbuf.trans (by decide), (hslot 1 (by decide)).trans (by decide)⟩

end RdmaInfra.KvCache
