/-
RDMA writes in flight.

A posted write reads its source bytes in order, each at any moment until it
lands, so a source changed too early is caught. Writes of one queue pair land
in the order they were posted, and the bytes of one in increasing address
order. A write's completion is pollable any time after its last byte has
landed. The counts are kept from the start: `done - reaped` completions are in
the queue.
-/
import RdmaInfra.Memory

namespace RdmaInfra.Verbs

/-- A write of `size` bytes from `src` of this side's memory to `dst` of the
peer's, the bytes read so far, and how many of them have landed. -/
structure Write (β : Type) where
  src : Nat
  dst : Nat
  size : Nat
  data : List β
  landed : Nat

/-- One side's writes: those not landed, oldest first, and how many were
posted, have landed, have completed and have been reaped. -/
structure Writes (β : Type) where
  sq : List (Write β)
  posted : Nat
  landed : Nat
  done : Nat
  reaped : Nat

namespace Writes

variable {β : Type}

def init : Writes β := ⟨[], 0, 0, 0, 0⟩

/-- `rai_post_write`, its checks passed. -/
def post (src dst size : Nat) (q : Writes β) : Writes β :=
  { q with sq := q.sq ++ [⟨src, dst, size, [], 0⟩], posted := q.posted + 1 }

/-- The NIC reads `n` more bytes for the `k`-th write. -/
def fetch (mem : Mem β) (k n : Nat) (q : Writes β) : Option (Writes β) :=
  match q.sq[k]? with
  | none => none
  | some w =>
    if 0 < n ∧ w.data.length + n ≤ w.size then
      some { q with sq := q.sq.set k { w with data := w.data ++ mem.read (w.src + w.data.length) n } }
    else none

/-- `n` more bytes of the oldest write land in the peer's memory. -/
def land (n : Nat) (q : Writes β) (peer : Mem β) : Option (Writes β × Mem β) :=
  match q.sq with
  | [] => none
  | w :: ws =>
    if 0 < n ∧ w.landed + n ≤ w.data.length then
      let peer' := peer.write (w.dst + w.landed) ((w.data.drop w.landed).take n)
      if w.landed + n = w.size then some ({ q with sq := ws, landed := q.landed + 1 }, peer')
      else some ({ q with sq := { w with landed := w.landed + n } :: ws }, peer')
    else none

/-- The completion of a landed write becomes pollable. -/
def complete (q : Writes β) : Option (Writes β) :=
  if q.done < q.landed then some { q with done := q.done + 1 } else none

/-- `rai_poll_cq`. -/
def poll (q : Writes β) : Option (Writes β) :=
  if q.reaped < q.done then some { q with reaped := q.reaped + 1 } else none

/-! ## One write at a time -/

/-- At most one write is in flight, from `src` to `dst`; any last byte read
for it is `b`. -/
structure One (src dst size : Nat) (b : β) (q : Writes β) : Prop where
  reaped_le : q.reaped ≤ q.done
  done_le : q.done ≤ q.landed
  flight : (q.sq = [] ∧ q.posted = q.landed) ∨
    ∃ w, q.sq = [w] ∧ q.posted = q.landed + 1 ∧ w.src = src ∧ w.dst = dst ∧ w.size = size ∧
      w.landed ≤ w.data.length ∧ w.data.length ≤ size ∧ w.landed < size ∧
      ∀ c, w.data[size - 1]? = some c → c = b

namespace One

variable {src dst size : Nat} {b b' : β} {q q' : Writes β} {mem peer peer' : Mem β} {k n : Nat}

theorem init_one : One src dst size b (init : Writes β) := ⟨le_rfl, le_rfl, .inl ⟨rfl, rfl⟩⟩

theorem landed_le (h : One src dst size b q) : q.landed ≤ q.posted ∧ q.posted ≤ q.landed + 1 := by
  rcases h.flight with ⟨-, h⟩ | ⟨w, -, h, -⟩ <;> omega

/-- With nothing in flight the doorbell may be set for the next write. -/
theorem idle (h : One src dst size b q) (hi : q.posted = q.landed) : One src dst size b' q := by
  refine ⟨h.reaped_le, h.done_le, .inl ?_⟩
  rcases h.flight with h | ⟨w, -, h, -⟩
  · exact h
  · omega

theorem post (h : One src dst size b q) (hi : q.posted = q.landed) (hs : 0 < size) :
    One src dst size b (q.post src dst size) := by
  refine ⟨h.reaped_le, h.done_le, .inr ⟨⟨src, dst, size, [], 0⟩, ?_, ?_, rfl, rfl, rfl, le_rfl, Nat.zero_le _, hs, ?_⟩⟩
  · rcases h.flight with ⟨h, -⟩ | ⟨w, -, h, -⟩
    · simp [Writes.post, h]
    · omega
  · simp only [Writes.post]; omega
  · intro c hc
    simp at hc

/-- Reading the source while its last byte is `b`. -/
theorem fetch (h : One src dst size b q) (hb : mem (src + (size - 1)) = b) (hf : q.fetch mem k n = some q') :
    One src dst size b q' ∧ q'.posted = q.posted ∧ q'.landed = q.landed ∧ q'.done = q.done ∧ q'.reaped = q.reaped := by
  simp only [Writes.fetch] at hf
  split at hf
  · cases hf
  next v hk =>
  split at hf
  swap
  · cases hf
  next hn =>
  cases hf
  refine ⟨⟨h.reaped_le, h.done_le, ?_⟩, rfl, rfl, rfl, rfl⟩
  rcases h.flight with ⟨hnil, -⟩ | ⟨w, hw, hp, hsrc, hdst, hsz, hl, hd, hlt, hlast⟩
  · simp [hnil] at hk
  right
  obtain ⟨rfl, rfl⟩ : k = 0 ∧ w = v := by
    rw [hw, List.getElem?_singleton] at hk
    split at hk
    · exact ⟨‹_›, by simpa using hk⟩
    · cases hk
  refine ⟨{ w with data := w.data ++ mem.read (w.src + w.data.length) n }, by rw [hw]; rfl, hp, hsrc, hdst, hsz,
    ?_, ?_, hlt, ?_⟩
  · simp only [List.length_append]; omega
  · simp only [List.length_append, Mem.length_read]; omega
  · intro c hc
    simp only at hc
    by_cases hin : size - 1 < w.data.length
    · rw [List.getElem?_append_left hin] at hc
      exact hlast c hc
    · rw [List.getElem?_append_right (by omega)] at hc
      have hj : size - 1 - w.data.length < n := by
        by_contra hge
        rw [List.getElem?_eq_none (by rw [Mem.length_read]; omega)] at hc
        cases hc
      rw [Mem.getElem?_read hj, hsrc, Option.some.injEq] at hc
      rw [← hc, ← hb]
      congr 1
      omega

/-- Landing: the last byte of the destination changes only when the whole
write has landed, and is then `b`; nothing else of the peer's memory changes. -/
theorem land (h : One src dst size b q) (hl : q.land n peer = some (q', peer')) :
    One src dst size b q' ∧ q'.posted = q.posted ∧ q'.done = q.done ∧ q'.reaped = q.reaped ∧
    ((q'.landed = q.landed ∧ peer' (dst + (size - 1)) = peer (dst + (size - 1))) ∨
      (q'.landed = q.landed + 1 ∧ q.posted = q.landed + 1 ∧ peer' (dst + (size - 1)) = b)) ∧
    ∀ a, a < dst ∨ dst + size ≤ a → peer' a = peer a := by
  simp only [Writes.land] at hl
  split at hl
  · cases hl
  next v ws hsq =>
  split at hl
  swap
  · cases hl
  next hn =>
  rcases h.flight with ⟨hnil, -⟩ | ⟨w, hw, hp, hsrc, hdst, hsz, hle, hd, hlt, hlast⟩
  · rw [hnil] at hsq; cases hsq
  obtain ⟨rfl, rfl⟩ : w = v ∧ ws = [] := by rw [hw] at hsq; cases hsq; exact ⟨rfl, rfl⟩
  have hlen : ((w.data.drop w.landed).take n).length = n := by simp; omega
  have hout : ∀ a, a < dst ∨ dst + size ≤ a →
      peer.write (w.dst + w.landed) ((w.data.drop w.landed).take n) a = peer a := by
    intro a ha
    apply Mem.write_outside
    rw [hlen, hdst]
    omega
  split at hl
  next hall =>
    cases hl
    refine ⟨⟨h.reaped_le, Nat.le_succ_of_le h.done_le, .inl ⟨rfl, hp⟩⟩, rfl, rfl, rfl, .inr ⟨rfl, hp, ?_⟩, hout⟩
    -- The last byte read is the last to land.
    have hget := List.getElem?_eq_getElem (show size - 1 < w.data.length by omega)
    have hb := hlast _ hget
    have hin : ((w.data.drop w.landed).take n)[size - 1 - w.landed]? = some b := by
      rw [List.getElem?_take, if_pos (by omega), List.getElem?_drop, show w.landed + (size - 1 - w.landed) = size - 1 by omega,
        hget, hb]
    have := Mem.write_inside (m := peer) (a := w.dst + w.landed) hin
    rwa [show w.dst + w.landed + (size - 1 - w.landed) = dst + (size - 1) by omega] at this
  next hpart =>
    cases hl
    refine ⟨⟨h.reaped_le, h.done_le, .inr ⟨{ w with landed := w.landed + n }, rfl, hp, hsrc, hdst, hsz, hn.2, hd, ?_,
      hlast⟩⟩, rfl, rfl, rfl, .inl ⟨rfl, ?_⟩, hout⟩
    · simp only; omega
    · apply Mem.write_outside
      rw [hlen, hdst]
      omega

theorem complete (h : One src dst size b q) (hc : q.complete = some q') :
    One src dst size b q' ∧ q'.posted = q.posted ∧ q'.landed = q.landed ∧ q'.reaped = q.reaped := by
  simp only [Writes.complete] at hc
  split at hc
  · cases hc; exact ⟨⟨Nat.le_succ_of_le h.reaped_le, ‹_›, h.flight⟩, rfl, rfl, rfl⟩
  · cases hc

theorem poll (h : One src dst size b q) (hc : q.poll = some q') :
    One src dst size b q' ∧ q'.posted = q.posted ∧ q'.landed = q.landed ∧ q'.reaped = q.reaped + 1 ∧
      q.reaped < q.landed := by
  simp only [Writes.poll] at hc
  split at hc
  next hlt => cases hc; exact ⟨⟨hlt, h.done_le, h.flight⟩, rfl, rfl, rfl, Nat.lt_of_lt_of_le hlt h.done_le⟩
  · cases hc

/-- A write in flight can read or land, or its completion can come. -/
theorem progress (h : One src dst size b q) (hp : q.reaped < q.posted) (mem peer : Mem β) :
    q.reaped < q.done ∨ (∃ n q', q.fetch mem 0 n = some q') ∨ (∃ n r, q.land n peer = some r) ∨
      ∃ q', q.complete = some q' := by
  by_cases hr : q.reaped < q.done
  · exact .inl hr
  right
  rcases h.flight with ⟨hnil, hpl⟩ | ⟨w, hw, hpl, hsrc, hdst, hsz, hle, hd, hlt, hlast⟩
  · exact .inr (.inr ⟨_, if_pos (by have := h.reaped_le; omega)⟩)
  · by_cases hf : w.data.length < size
    · exact .inl ⟨1, _, by simp only [Writes.fetch, hw]; exact if_pos ⟨Nat.one_pos, by omega⟩⟩
    · right; left
      refine ⟨1, ?_⟩
      simp only [Writes.land, hw]
      rw [if_pos ⟨Nat.one_pos, by omega⟩]
      split <;> exact ⟨_, rfl⟩

end One

end Writes
end RdmaInfra.Verbs
