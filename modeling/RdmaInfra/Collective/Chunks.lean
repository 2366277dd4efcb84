/-
Which chunk each round of the ring touches, and what the ring computes.

Rank `r` sees chunk `c` at the distance `d` such that `c = r - d` modulo the
world size. In those coordinates the schedule is linear: reduce-scatter round
`s` sends distance `s` and receives distance `s + 1`, all-gather round `t`
sends distance `t - 1` and receives distance `t`, and a chunk is one further
from the right neighbour than from its sender. So no proof above this module
computes modulo the world size.

`ringFold x c k` is chunk `c` after `k` additions: rank `c`'s own data, then
that of `c + 1`, `c + 2`, ... each added on the left, in the order the chunk
travels. No law of the addition is used, so it may be `float` addition.
-/
import Mathlib.Tactic.Ring
import RdmaInfra.Memory
import RdmaInfra.Collective.Program

namespace RdmaInfra.Collective

theorem mod_two_mul {a N : Nat} (h : a < 2 * N) : a % N = if a < N then a else a - N := by
  split
  · exact Nat.mod_eq_of_lt ‹_›
  · rw [Nat.mod_eq_sub_mod (by omega), Nat.mod_eq_of_lt (by omega)]

variable {N : Nat}

/-! ## Neighbours -/

/-- `(rank + 1) % size`. -/
def right (r : Fin N) : Fin N := ⟨(r + 1) % N, Nat.mod_lt _ r.pos⟩

/-- `(rank - 1 + size) % size`. -/
def left (r : Fin N) : Fin N := ⟨(r + N - 1) % N, Nat.mod_lt _ r.pos⟩

theorem right_left (r : Fin N) : right (left r) = r := by
  have := r.isLt
  apply Fin.ext
  simp only [right, left]
  rw [mod_two_mul (a := r + N - 1) (by omega)]
  split
  · rw [mod_two_mul (by omega)]; split <;> omega
  · rw [mod_two_mul (by omega)]; split <;> omega

theorem left_right (r : Fin N) : left (right r) = r := by
  have := r.isLt
  apply Fin.ext
  simp only [right, left]
  rw [mod_two_mul (a := r + 1) (by omega)]
  split
  · rw [mod_two_mul (by omega)]; split <;> omega
  · rw [mod_two_mul (by omega)]; split <;> omega

theorem right_inj {q r : Fin N} (h : right q = right r) : q = r := by
  rw [← left_right q, h, left_right]

theorem right_ne (hN : 2 ≤ N) (r : Fin N) : right r ≠ r := by
  have := r.isLt
  intro h
  have := congrArg Fin.val h
  simp only [right] at this
  rw [mod_two_mul (by omega)] at this
  split at this <;> omega

/-- In a world of two the neighbours are one rank. -/
theorem left_eq_right (h : N = 2) (r : Fin N) : left r = right r := by
  subst h
  have := r.isLt
  apply Fin.ext
  simp only [left, right]
  omega

/-! ## Chunks by distance -/

/-- The chunk at distance `d` from rank `r`. -/
def chunkAt (r : Fin N) (d : Nat) : Fin N := ⟨(r + N - d) % N, Nat.mod_lt _ r.pos⟩

/-- Rank `c + k`. -/
def hop (c : Fin N) (k : Nat) : Fin N := ⟨(c + k) % N, Nat.mod_lt _ c.pos⟩

theorem hop_chunkAt {r : Fin N} {d} (hd : d < N) : hop (chunkAt r d) d = r := by
  have := r.isLt
  apply Fin.ext
  simp only [hop, chunkAt]
  rw [mod_two_mul (a := r + N - d) (by omega)]
  split
  · rw [mod_two_mul (by omega)]; split <;> omega
  · rw [mod_two_mul (by omega)]; split <;> omega

theorem chunkAt_inj {r : Fin N} {d d'} (hd : d < N) (hd' : d' < N) (h : chunkAt r d = chunkAt r d') :
    d = d' := by
  have := r.isLt
  have := congrArg Fin.val h
  simp only [chunkAt] at this
  rw [mod_two_mul (by omega), mod_two_mul (by omega)] at this
  split at this <;> split at this <;> omega

theorem exists_chunkAt (r c : Fin N) : ∃ d < N, chunkAt r d = c := by
  have := r.isLt
  have := c.isLt
  by_cases h : c.val ≤ r
  · refine ⟨r - c, by omega, Fin.ext ?_⟩
    simp only [chunkAt]
    rw [mod_two_mul (by omega)]; split <;> omega
  · refine ⟨r + N - c, by omega, Fin.ext ?_⟩
    simp only [chunkAt]
    rw [mod_two_mul (by omega)]; split <;> omega

/-- The right neighbour sees a chunk one further away, round the ring. -/
theorem chunkAt_right_of {r : Fin N} {d e} (h : e = d + 1 ∧ e < N ∨ e = 0 ∧ d + 1 = N) :
    chunkAt (right r) e = chunkAt r d := by
  have := r.isLt
  apply Fin.ext
  simp only [chunkAt, right]
  rw [mod_two_mul (a := r + 1) (by omega)]
  split <;> rw [mod_two_mul (by omega), mod_two_mul (by omega)] <;> split <;> split <;> omega

theorem chunkAt_right {r : Fin N} {d} (hd : d + 1 < N) : chunkAt (right r) (d + 1) = chunkAt r d :=
  chunkAt_right_of (.inl ⟨rfl, hd⟩)

theorem chunkAt_right_zero {r : Fin N} : chunkAt (right r) 0 = chunkAt r (N - 1) := by
  have := r.isLt
  exact chunkAt_right_of (.inr ⟨rfl, by omega⟩)

theorem right_hop (r : Fin N) (k : Nat) : right (hop r k) = hop r (k + 1) := by
  apply Fin.ext
  simp only [right, hop, Nat.mod_add_mod, Nat.add_assoc]

/-- What passes from each rank to its right neighbour goes all the way round. -/
theorem all_of_right {P : Fin N → Prop} (h : ∀ r, P r → P (right r)) {r} (hr : P r) (q : Fin N) : P q := by
  have hhop : ∀ k, P (hop r k) := by
    intro k
    induction k with
    | zero =>
      have : hop r 0 = r := Fin.ext (Nat.mod_eq_of_lt r.isLt)
      rwa [this]
    | succ k ih => rw [← right_hop]; exact h _ ih
  obtain ⟨d, hd, rfl⟩ := exists_chunkAt q r
  rw [← hop_chunkAt (r := q) hd]
  exact hhop d

theorem all_of_left {P : Fin N → Prop} (h : ∀ r, P r → P (left r)) {r} (hr : P r) (q : Fin N) : P q := by
  by_contra hq
  refine all_of_right (P := fun r => ¬ P r) (fun r hr h' => hr ?_) hq r hr
  have := h _ h'
  rwa [left_right] at this

/-- The distance of the chunk round `s` sends. -/
def sendDist (N s : Nat) : Nat := if s < N - 1 then s else if s = N - 1 then N - 1 else s - N

/-- The distance of the chunk round `s` receives. -/
def recvDist (N s : Nat) : Nat := if s < N - 1 then s + 1 else s - (N - 1)

theorem sendDist_lt {s} (hs : s < 2 * (N - 1)) : sendDist N s < N := by
  simp only [sendDist]; split <;> [skip; split] <;> omega

theorem recvDist_lt {s} (hs : s < 2 * (N - 1)) : recvDist N s < N := by
  simp only [recvDist]; split <;> omega

/-- The world rank `r` of `N` sees. -/
def worldOf (r : Fin N) : World := ⟨r, N⟩

theorem sendChunk_eq {r : Fin N} {s} (hs : s < 2 * (N - 1)) :
    (worldOf r).sendChunk s = (chunkAt r (sendDist N s)).val := by
  have := r.isLt
  change (Collective.sendChunk r.val N s).toNat = (r + N - sendDist N s) % N
  simp only [Collective.sendChunk, sendDist]
  by_cases h : s < N - 1
  · rw [if_pos (by omega), if_pos h, show ((r.val : Int) - s + N) = ((r + N - s : Nat) : Int) by omega]
    rfl
  · rw [if_neg (by omega), if_neg h,
      show ((r.val : Int) - (s - (N - 1)) + 1 + N) = ((r + 2 * N - s : Nat) : Int) by omega]
    change (r + 2 * N - s) % N = _
    by_cases h' : s = N - 1
    · rw [if_pos h', show r + 2 * N - s = r + 1 + N by omega, Nat.add_mod_right,
        show r + N - (N - 1) = r + 1 by omega]
    · rw [if_neg h', show r + 2 * N - s = r + N - (s - N) by omega]

theorem recvChunk_eq {r : Fin N} {s} (hs : s < 2 * (N - 1)) :
    (worldOf r).recvChunk s = (chunkAt r (recvDist N s)).val := by
  have := r.isLt
  change (Collective.recvChunk r.val N s).toNat = (r + N - recvDist N s) % N
  simp only [Collective.recvChunk, recvDist]
  by_cases h : s < N - 1
  · rw [if_pos (by omega), if_pos h,
      show ((r.val : Int) - s - 1 + N) = ((r + N - (s + 1) : Nat) : Int) by omega]
    rfl
  · rw [if_neg (by omega), if_neg h,
      show ((r.val : Int) - (s - (N - 1)) + N) = ((r + N - (s - (N - 1)) : Nat) : Int) by omega]
    rfl

/-- A rank receives the chunk its left neighbour sends. -/
theorem chunkAt_recv {r : Fin N} {s} (hs : s < 2 * (N - 1)) :
    chunkAt (right r) (recvDist N s) = chunkAt r (sendDist N s) := by
  simp only [recvDist, sendDist]
  split
  · exact chunkAt_right (by omega)
  · split
    · rw [show s - (N - 1) = 0 by omega]; exact chunkAt_right_zero
    · rw [show s - (N - 1) = s - N + 1 by omega]; exact chunkAt_right (by omega)

/-! ## What the ring computes -/

variable {β : Type} (plus : Word β → Word β → Word β) (x : Fin N → Nat → Word β)

/-- Chunk `c` once ranks `c`, ..., `c + k` have each added their own data. -/
def ringFold (c : Fin N) : Nat → Nat → Word β
  | 0, e => x c e
  | k + 1, e => plus (x (hop c (k + 1)) e) (ringFold c k e)

/-- What all-reduce leaves in chunk `c` of every rank. -/
def ringSum (c : Fin N) (e : Nat) : Word β := ringFold plus x c (N - 1) e

/-- The payload of rank `r`'s message of round `s`. -/
def message (r : Fin N) (s : Nat) : Nat → Word β :=
  ringFold plus x (chunkAt r (sendDist N s)) (min s (N - 1))

variable {plus x}

/-- Adding this rank's data to the chunk of reduce-scatter round `s`. -/
theorem ringFold_succ {r : Fin N} {s e} (hs : s + 1 < N) :
    ringFold plus x (chunkAt r (s + 1)) (s + 1) e =
      plus (x r e) (ringFold plus x (chunkAt r (s + 1)) s e) := by
  rw [ringFold, hop_chunkAt hs]

theorem chunkAt_zero {r : Fin N} : chunkAt r 0 = r := by
  apply Fin.ext
  have := r.isLt
  simp only [chunkAt]
  rw [mod_two_mul (by omega)]; split <;> omega

end RdmaInfra.Collective
