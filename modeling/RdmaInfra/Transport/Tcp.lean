/-
The TCP backend (`tcp_backend.cpp`): the argument checks of a transfer.

A transfer that passes them is `send_all` or `recv_all`: the kernel takes or
gives any positive number of bytes at a time until the length is reached, so
the call itself blocks and `poll` has nothing left to wait for.
-/
import RdmaInfra.CInt

namespace RdmaInfra.Transport.Tcp

/-- The size check of `send_async` and `recv_async`, on a registered buffer of
`size` bytes. Unlike `rai_post_send`, it is made on the whole `size_t`. -/
def inBounds (size len offset : Nat) : Bool := len != 0 && !decide (sizeT (len + offset) > size)

theorem inBounds_iff {size len offset : Nat} :
    inBounds size len offset = true ↔ len ≠ 0 ∧ sizeT (len + offset) ≤ size := by
  simp only [inBounds, Bool.and_eq_true, bne_iff_ne, Bool.not_eq_true', decide_eq_false_iff_not, gt_iff_lt, not_lt]

theorem inBounds_of_le {size len offset : Nat} (h0 : 0 < len) (h : len + offset ≤ size) (hs : size < 2 ^ 64) :
    inBounds size len offset = true := by
  rw [inBounds_iff, sizeT_of_lt (by omega)]
  omega

end RdmaInfra.Transport.Tcp
