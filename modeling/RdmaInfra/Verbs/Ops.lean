/-
Work requests and completions (`rdma_ops.c`): the two ends of a connection,
the argument checks every post shares, and the kinds of completion a queue
holds.
-/
import RdmaInfra.CInt

namespace RdmaInfra.Verbs

inductive Party
  | server
  | client
  deriving DecidableEq, Repr

def Party.peer : Party → Party
  | .server => .client
  | .client => .server

@[simp] theorem Party.peer_peer (p : Party) : p.peer.peer = p := by cases p <;> rfl

theorem Party.peer_ne (p : Party) : p.peer ≠ p := by cases p <;> simp [Party.peer]

theorem Party.eq_or_peer (p q : Party) : q = p ∨ q = p.peer := by cases p <;> cases q <;> simp [Party.peer]

inductive WcKind
  | send
  | recv
  deriving DecidableEq, Repr

/-- The size check of `prepare_sge`, for a request of `size` bytes (already a
`uint32_t`) at `offset` of a memory region of `mrSize` bytes. The sum is a
`size_t` sum. -/
def sgeInBounds (mrSize size offset : Nat) : Bool :=
  size != 0 && !decide (sizeT (size + offset) > mrSize)

theorem sgeInBounds_iff {mrSize size offset : Nat} :
    sgeInBounds mrSize size offset = true ↔ size ≠ 0 ∧ sizeT (size + offset) ≤ mrSize := by
  simp only [sgeInBounds, Bool.and_eq_true, bne_iff_ne, Bool.not_eq_true', decide_eq_false_iff_not, gt_iff_lt, not_lt]

theorem sgeInBounds_of_le {mrSize size offset : Nat} (h0 : 0 < size) (h : size + offset ≤ mrSize)
    (hm : mrSize < 2 ^ 64) : sgeInBounds mrSize size offset = true := by
  rw [sgeInBounds_iff, sizeT_of_lt (by omega)]
  omega

end RdmaInfra.Verbs
