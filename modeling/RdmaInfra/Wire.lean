/-
Structs on the wire: both ends are little-endian machines of one ABI, so a
struct travels as its memory image, field by field at fixed offsets.
-/
import RdmaInfra.CInt

namespace RdmaInfra

/-- The low `k` bytes of `n`, least significant first. -/
def leBytes : Nat → Nat → List UInt8
  | 0, _ => []
  | k + 1, n => UInt8.ofNat n :: leBytes k (n / 256)

/-- The number a run of bytes stands for. -/
def leNat : List UInt8 → Nat
  | [] => 0
  | b :: bs => b.toNat + 256 * leNat bs

@[simp] theorem length_leBytes (k n : Nat) : (leBytes k n).length = k := by
  induction k generalizing n with
  | zero => rfl
  | succ k ih => simp [leBytes, ih]

theorem leNat_leBytes {k n : Nat} (h : n < 256 ^ k) : leNat (leBytes k n) = n := by
  induction k generalizing n with
  | zero => simp only [leBytes, leNat]; omega
  | succ k ih =>
    have hd : n / 256 < 256 ^ k := Nat.div_lt_of_lt_mul (by rwa [Nat.mul_comm, ← Nat.pow_succ])
    rw [leBytes, leNat, ih hd]
    simp only [UInt8.toNat_ofNat']
    omega

/-- The bytes of an `int`. -/
def intBytes (i : Int) : List UInt8 := leBytes 4 (i % 2 ^ 32).toNat

@[simp] theorem length_intBytes (i : Int) : (intBytes i).length = 4 := length_leBytes ..

def intOfBytes (bs : List UInt8) : Int := toInt (leNat bs)

theorem intOfBytes_intBytes {i : Int} (h : IsInt i) : intOfBytes (intBytes i) = i := by
  obtain ⟨h1, h2⟩ := h
  have hlt : (i % 2 ^ 32).toNat < 256 ^ 4 := by omega
  rw [intOfBytes, intBytes, leNat_leBytes hlt, toInt]
  omega

/-- Field `len` bytes at `off` of a struct's image. -/
def field (bs : List UInt8) (off len : Nat) : List UInt8 := (bs.drop off).take len

theorem field_take {bs : List UInt8} {off len n : Nat} (h : off + len ≤ n) :
    field (bs.take n) off len = field bs off len := by
  rw [field, field, List.drop_take, List.take_take, Nat.min_eq_left (by omega)]

theorem field_append {a b c : List UInt8} {off len : Nat} (ha : a.length = off) (hb : b.length = len) :
    field (a ++ (b ++ c)) off len = b := by
  subst ha hb
  simp [field]

end RdmaInfra
