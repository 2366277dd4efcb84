/-
What the out-of-band exchange carries (`rdma_common.h`) and the byte streams
that carry it.

A `rai_conn_info_t` travels as its memory image: its fields at their offsets
and, since the struct is aligned to 8 bytes, 4 bytes of padding whose values
nothing fixes.
-/
import Mathlib.Data.List.OfFn
import RdmaInfra.Wire
import RdmaInfra.Verbs.Gid

namespace RdmaInfra.Verbs

structure ConnInfo where
  addr : UInt64
  gid : Gid
  rkey : UInt32
  qpn : UInt32
  psn : UInt32
  deriving DecidableEq

namespace ConnInfo

/-- `sizeof(rai_conn_info_t)`. -/
def size : Nat := 40

/-- The struct after `memset`. -/
def zero : ConnInfo := ⟨0, ⟨fun _ => 0⟩, 0, 0, 0⟩

/-- The image, with padding `pad`. -/
def bytes (pad : Fin 4 → UInt8) (c : ConnInfo) : List UInt8 :=
  leBytes 8 c.addr.toNat ++ List.ofFn c.gid.raw ++ leBytes 4 c.rkey.toNat ++ leBytes 4 c.qpn.toNat ++
    leBytes 4 c.psn.toNat ++ List.ofFn pad

/-- The struct an image is. -/
def ofBytes (bs : List UInt8) : ConnInfo where
  addr := .ofNat (leNat (field bs 0 8))
  gid := ⟨fun i => bs.getD (8 + i) 0⟩
  rkey := .ofNat (leNat (field bs 24 4))
  qpn := .ofNat (leNat (field bs 28 4))
  psn := .ofNat (leNat (field bs 32 4))

@[simp] theorem length_bytes (pad : Fin 4 → UInt8) (c : ConnInfo) : (c.bytes pad).length = size := by
  simp [bytes, size]

theorem ofNat_field64 {a c : List UInt8} {x : UInt64} {off : Nat} (ha : a.length = off) :
    UInt64.ofNat (leNat (field (a ++ (leBytes 8 x.toNat ++ c)) off 8)) = x := by
  rw [field_append ha (length_leBytes 8 _), leNat_leBytes x.toNat_lt, UInt64.ofNat_toNat]

theorem ofNat_field32 {a c : List UInt8} {x : UInt32} {off : Nat} (ha : a.length = off) :
    UInt32.ofNat (leNat (field (a ++ (leBytes 4 x.toNat ++ c)) off 4)) = x := by
  rw [field_append ha (length_leBytes 4 _), leNat_leBytes x.toNat_lt, UInt32.ofNat_toNat]

theorem ofBytes_bytes (pad : Fin 4 → UInt8) (c : ConnInfo) : ofBytes (c.bytes pad) = c := by
  obtain ⟨addr, ⟨raw⟩, rkey, qpn, psn⟩ := c
  simp only [ofBytes, bytes, ConnInfo.mk.injEq, Gid.mk.injEq, List.append_assoc]
  refine ⟨?_, ?_, ?_, ?_, ?_⟩
  · exact ofNat_field64 (a := []) rfl
  · funext i
    rw [List.getD_eq_getElem?_getD, List.getElem?_append_right (by simp), List.getElem?_append_left (by simp),
      List.getElem?_ofFn]
    simp only [length_leBytes, Nat.add_sub_cancel_left, i.isLt, dite_true, Option.getD_some]
  · rw [← List.append_assoc]
    exact ofNat_field32 (by simp)
  · rw [← List.append_assoc, ← List.append_assoc]
    exact ofNat_field32 (by simp)
  · rw [← List.append_assoc, ← List.append_assoc, ← List.append_assoc]
    exact ofNat_field32 (by simp)

end ConnInfo

/-- One direction of a connection: what was sent, and how much of it the other
end has received. -/
structure Stream where
  sent : List UInt8
  read : Nat

namespace Stream

def empty : Stream := ⟨[], 0⟩

/-- `send` accepted these bytes. -/
def send (bs : List UInt8) (st : Stream) : Stream := { st with sent := st.sent ++ bs }

/-- `recv` returns `n` bytes. -/
def recv (n : Nat) (st : Stream) : Option (List UInt8 × Stream) :=
  if 0 < n ∧ st.read + n ≤ st.sent.length then
    some ((st.sent.drop st.read).take n, { st with read := st.read + n })
  else none

end Stream

end RdmaInfra.Verbs
