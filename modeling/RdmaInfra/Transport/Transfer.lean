/-
The transfers of the two `Transport` backends: which arguments each lets
through, and which bytes of the buffer it then touches.

Both compare a sum of two caller's numbers with the size of the buffer, in
`size_t` arithmetic. TCP makes the comparison on the whole `len`; RDMA hands
`len` to `rai_post_send` and its siblings, whose `size` is a `uint32_t`, and
the comparison is made on what is left of it.
-/
import RdmaInfra.Verbs.Ops
import RdmaInfra.Transport.Tcp

namespace RdmaInfra.Transport

open Verbs (sgeInBounds)

/-- `rai_mr_t`: whether `mr->mr` is set, and the buffer. -/
structure Mr where
  registered : Bool
  buf : Nat
  size : Nat
  deriving DecidableEq, Repr

/-- `BufferHandle`, with `nullptr` as address 0 and `priv` as the `rai_mr_t` it
points to. -/
structure BufferHandle where
  addr : Nat
  size : Nat
  priv : Option Mr
  deriving DecidableEq, Repr

/-- The bytes of local memory an operation touches. -/
structure Region where
  addr : Nat
  size : Nat
  deriving DecidableEq, Repr

inductive Backend
  | tcp
  | rdma
  deriving DecidableEq, Repr

inductive Kind
  | send
  | recv
  | write
  | read
  deriving DecidableEq, Repr

namespace Tcp

def regBuf (buf size : Nat) : Option BufferHandle :=
  if buf = 0 ∨ size = 0 then none else some ⟨buf, size, none⟩

/-- `TcpTransport::send_async` and `recv_async`, the socket calls succeeding. -/
def sendAsync (h : BufferHandle) (len offset : Nat) : Option Region :=
  if h.addr = 0 then none
  else if inBounds h.size len offset then some ⟨sizeT (h.addr + offset), len⟩
  else none

/-- One-sided reads are not supported, and a write is a send. -/
def transfer (h : BufferHandle) (len offset : Nat) : Kind → Option Region
  | .send | .recv | .write => sendAsync h len offset
  | .read => none

end Tcp

namespace Rdma

/-- `RdmaTransport::reg_buf` on a connected transport, `ibv_reg_mr`
succeeding. -/
def regBuf (buf size : Nat) : Option BufferHandle :=
  if buf = 0 ∨ size = 0 then none else some ⟨buf, size, some ⟨true, buf, size⟩⟩

/-- `prepare_sge` on a queue pair that exists. -/
def prepareSge (mr : Option Mr) (size offset : Nat) : Option Region :=
  match mr with
  | none => none
  | some mr =>
    if mr.registered && sgeInBounds mr.size size offset then some ⟨sizeT (mr.buf + offset), size⟩ else none

/-- `send_async`, `recv_async`, `write_async` and `read_async`, the post
succeeding: `len` becomes the `uint32_t size` of `rai_post_*`. -/
def transfer (h : BufferHandle) (len offset : Nat) (_ : Kind) : Option Region := prepareSge h.priv (u32 len) offset

end Rdma

def regBuf : Backend → Nat → Nat → Option BufferHandle
  | .tcp => Tcp.regBuf
  | .rdma => Rdma.regBuf

def transfer : Backend → BufferHandle → Nat → Nat → Kind → Option Region
  | .tcp => Tcp.transfer
  | .rdma => Rdma.transfer

/-- What a backend keeps of a registration. -/
def regPriv : Backend → Nat → Nat → Option Mr
  | .tcp, _, _ => none
  | .rdma, buf, size => some ⟨true, buf, size⟩

/-- The bytes a backend takes `len` for. -/
def width : Backend → Nat → Nat
  | .tcp, len => len
  | .rdma, len => u32 len

/-! ## What is let through -/

section Accept

variable {b : Backend} {k : Kind} {h : BufferHandle} {r : Region} {buf S len offset : Nat}

/-- The handle of a registered buffer names it. -/
theorem regBuf_eq (hr : regBuf b buf S = some h) : buf ≠ 0 ∧ S ≠ 0 ∧ h = ⟨buf, S, regPriv b buf S⟩ := by
  have hif : regBuf b buf S = if buf = 0 ∨ S = 0 then none else some ⟨buf, S, regPriv b buf S⟩ := by
    cases b <;> rfl
  rw [hif] at hr
  split at hr
  · cases hr
  next hn =>
    cases hr
    exact ⟨fun h0 => hn (.inl h0), fun h0 => hn (.inr h0), rfl⟩

/-- Both backends make one check, each on its own reading of `len`. -/
theorem transfer_eq (hr : regBuf b buf S = some h) (hk : b = .tcp → k ≠ .read) :
    transfer b h len offset k =
      if width b len ≠ 0 ∧ sizeT (width b len + offset) ≤ S then some ⟨sizeT (buf + offset), width b len⟩ else none := by
  obtain ⟨hb, -, rfl⟩ := regBuf_eq hr
  cases b with
  | tcp =>
    have ht : Tcp.transfer ⟨buf, S, none⟩ len offset k = Tcp.sendAsync ⟨buf, S, none⟩ len offset := by
      cases k with
      | send | recv | write => rfl
      | read => exact absurd rfl (hk rfl)
    simp only [transfer, regPriv, ht, Tcp.sendAsync, hb, if_false]
    exact if_congr Tcp.inBounds_iff rfl rfl
  | rdma =>
    simp only [transfer, regPriv, Rdma.transfer, Rdma.prepareSge, Bool.true_and]
    exact if_congr Verbs.sgeInBounds_iff rfl rfl

theorem transfer_some (hr : regBuf b buf S = some h) (ht : transfer b h len offset k = some r) :
    width b len ≠ 0 ∧ sizeT (width b len + offset) ≤ S ∧ r = ⟨sizeT (buf + offset), width b len⟩ := by
  have hk : b = .tcp → k ≠ .read := by
    rintro rfl rfl
    cases ht
  rw [transfer_eq hr hk] at ht
  split at ht
  next hc => cases ht; exact ⟨hc.1, hc.2, rfl⟩
  · cases ht

end Accept

/-! ## Bounds -/

/-- An operation that is let through stays inside its buffer exactly when the
sum it was checked with did not wrap. -/
theorem transfer_inside_iff (b : Backend) (k : Kind) (h : BufferHandle) (buf S len offset : Nat) (hS : S < 2 ^ 64)
    (hr : regBuf b buf S = some h) (r : Region) (ht : transfer b h len offset k = some r) :
    offset + r.size ≤ S ↔ width b len + offset < 2 ^ 64 := by
  obtain ⟨-, hle, rfl⟩ := transfer_some hr ht
  simp only [sizeT] at hle ⊢
  omega

theorem transfer_inside_iff_last_bytes :
    transfer .rdma ⟨4096, 16, some ⟨true, 4096, 16⟩⟩ 8 8 .read = some ⟨4104, 8⟩ ∧ 8 + 8 ≤ 16 := by
  have ht : transfer .rdma ⟨4096, 16, some ⟨true, 4096, 16⟩⟩ 8 8 .read = some ⟨4104, 8⟩ := by decide
  exact ⟨ht, (transfer_inside_iff .rdma .read _ 4096 16 8 8 (by decide) rfl _ ht).mpr (by decide)⟩

/-- Eight bytes from four before the end of the address space, of a buffer of
16: let through by both backends, on every operation they have. -/
theorem transfer_wraps :
    (∀ k, k ≠ .read → transfer .tcp ⟨4096, 16, none⟩ 8 (2 ^ 64 - 4) k = some ⟨4092, 8⟩) ∧
    (∀ k, transfer .rdma ⟨4096, 16, some ⟨true, 4096, 16⟩⟩ 8 (2 ^ 64 - 4) k = some ⟨4092, 8⟩) ∧
    ¬2 ^ 64 - 4 + 8 ≤ 16 := by
  refine ⟨fun k hk => ?_, fun k => ?_, by decide⟩
  · cases k with
    | send | recv | write => decide
    | read => exact absurd rfl hk
  · cases k <;> decide

/-! ## The two backends -/

/-- Both backends accept or both refuse, and what they accept is `len` bytes at
`offset` of the buffer. -/
def Agree (buf S len offset : Nat) (k : Kind) : Prop :=
  ∀ ht hr, regBuf .tcp buf S = some ht → regBuf .rdma buf S = some hr →
    ((transfer .tcp ht len offset k).isSome ↔ (transfer .rdma hr len offset k).isSome) ∧
    ∀ r, transfer .tcp ht len offset k = some r ∨ transfer .rdma hr len offset k = some r →
      r = ⟨sizeT (buf + offset), len⟩

/-- The backends agree exactly on the lengths that fit in 32 bits, and on the
longer ones that both refuse. -/
theorem backends_agree_iff (buf S len offset : Nat) (k : Kind) (hk : k = .send ∨ k = .recv) (hb : buf ≠ 0)
    (hS : S ≠ 0) (hlt : len + offset < 2 ^ 64) :
    Agree buf S len offset k ↔
      len < 2 ^ 32 ∨ (S < len + offset ∧ (len % 2 ^ 32 = 0 ∨ S < len % 2 ^ 32 + offset)) := by
  have hread : k ≠ .read := by rintro rfl; simp at hk
  have ht : ∀ b h, regBuf b buf S = some h → transfer b h len offset k =
      if width b len ≠ 0 ∧ width b len + offset ≤ S then some ⟨sizeT (buf + offset), width b len⟩ else none := by
    intro b h hr
    have hw : width b len ≤ len := by cases b <;> simp only [width, u32] <;> omega
    rw [transfer_eq hr fun _ => hread, sizeT_of_lt (by omega)]
  have hreg : ∀ b, regBuf b buf S = some ⟨buf, S, regPriv b buf S⟩ := by
    intro b
    cases b <;> simp [regBuf, Tcp.regBuf, Rdma.regBuf, regPriv, hb, hS]
  have hwt : width .tcp len = len := rfl
  have hwr : width .rdma len = len % 2 ^ 32 := rfl
  constructor
  · intro h
    obtain ⟨hiff, hmove⟩ := h _ _ (hreg .tcp) (hreg .rdma)
    rw [ht .tcp _ (hreg _), ht .rdma _ (hreg _)] at hiff hmove
    by_cases hB : width .rdma len ≠ 0 ∧ width .rdma len + offset ≤ S
    · have heq := hmove _ (.inr (if_pos hB))
      simp only [Region.mk.injEq] at heq
      omega
    · rw [if_neg hB] at hiff
      have hA : ¬(width .tcp len ≠ 0 ∧ width .tcp len + offset ≤ S) := by
        intro hA
        rw [if_pos hA] at hiff
        simp at hiff
      omega
  · intro hc h1 h2 hr1 hr2
    rw [ht .tcp _ hr1, ht .rdma _ hr2]
    by_cases hA : width .tcp len ≠ 0 ∧ width .tcp len + offset ≤ S
    · have heq : width .rdma len = len := by omega
      rw [if_pos hA, if_pos (by omega), heq, hwt]
      refine ⟨Iff.rfl, fun r hr => ?_⟩
      rw [or_self] at hr
      exact (Option.some.inj hr).symm
    · rw [if_neg hA, if_neg (by omega)]
      exact ⟨Iff.rfl, fun r hr => by simp at hr⟩

/-- Up to 32 bits the backends agree at both ends of a buffer. -/
theorem backends_agree_four_gib : Agree 4096 (2 ^ 32) (2 ^ 32 - 1) 1 .send ∧ Agree 4096 (2 ^ 32) 1 (2 ^ 32) .recv :=
  ⟨(backends_agree_iff 4096 (2 ^ 32) (2 ^ 32 - 1) 1 .send (.inl rfl) (by decide) (by decide) (by decide)).mpr
      (.inl (by decide)),
    (backends_agree_iff 4096 (2 ^ 32) 1 (2 ^ 32) .recv (.inr rfl) (by decide) (by decide) (by decide)).mpr
      (.inl (by decide))⟩

/-- Of 4 GiB and 8 bytes, all in the buffer, RDMA sends 8; of a buffer of 16
bytes TCP refuses them and RDMA sends 8. -/
theorem backends_differ : ¬Agree 4096 (2 ^ 33) (2 ^ 32 + 8) 0 .send ∧ ¬Agree 4096 16 (2 ^ 32 + 8) 0 .send := by
  constructor
  · intro h
    have := (h ⟨4096, 2 ^ 33, none⟩ ⟨4096, 2 ^ 33, some ⟨true, 4096, 2 ^ 33⟩⟩ rfl rfl).2 ⟨4096, 8⟩ (.inr (by decide))
    simp at this
  · intro h
    have := (h ⟨4096, 16, none⟩ ⟨4096, 16, some ⟨true, 4096, 16⟩⟩ rfl rfl).1
    revert this
    decide

end RdmaInfra.Transport
