/-
One ring all-reduce: its sizes, and what a rank's payload holds on the way.

Both paths change the payload in the same two ways: a round of reduce-scatter
adds this rank's data to the chunk just received, and a round of all-gather
overwrites a chunk with its final sum. `bufByte` says what a byte holds from
which of the two have happened to it, so the invariants of the posted and of
the blocking path share it.
-/
import RdmaInfra.Collective.Chunks

namespace RdmaInfra.Collective

/-- An all-reduce over `size` ranks with `chunk` floats a chunk, whose payload
is an object of the 64-bit address space. -/
structure Ring where
  size : Nat
  chunk : Nat
  two_le : 2 ≤ size
  chunk_pos : 0 < chunk
  fits : size * (chunk * 4) < 2 ^ 64

namespace Ring

variable (R : Ring)

/-- The number of floats. -/
def count : Nat := R.size * R.chunk

/-- The bytes of a chunk. -/
def bytes : Nat := R.chunk * 4

def steps : Nat := 2 * (R.size - 1)

theorem bytes_pos : 0 < R.bytes := by have := R.chunk_pos; simp only [bytes]; omega

theorem bytes_fit : R.size * R.bytes < 2 ^ 64 := R.fits

/-- The staging area, two chunks, is no larger than the payload. -/
theorem two_bytes_le : 2 * R.bytes ≤ R.size * R.bytes := Nat.mul_le_mul_right _ R.two_le

/-- A world size that is an `int` and chunks under 4 GB always fit. -/
def ofInt (size chunk : Nat) (two_le : 2 ≤ size) (size_lt : size < 2 ^ 31) (chunk_pos : 0 < chunk)
    (bytes_lt : chunk * 4 < 2 ^ 32) : Ring :=
  ⟨size, chunk, two_le, chunk_pos, by have := Nat.mul_le_mul size_lt.le bytes_lt.le; omega⟩

/-- Where chunk `c` starts. -/
def off (c : Fin R.size) : Nat := c * R.bytes

theorem off_add_le (c : Fin R.size) : R.off c + R.bytes ≤ R.size * R.bytes := by
  have := Nat.mul_le_mul_right R.bytes (show c.val + 1 ≤ R.size from c.isLt)
  rwa [Nat.add_mul, Nat.one_mul] at this

/-- A byte of one chunk is not in another. -/
theorem off_disjoint {c c' : Fin R.size} (h : c ≠ c') {j} (hj : j < R.bytes) :
    R.off c + j < R.off c' ∨ R.off c' + R.bytes ≤ R.off c + j := by
  have hne : c.val ≠ c' := fun e => h (Fin.ext e)
  simp only [off]
  rcases Nat.lt_or_gt_of_ne hne with hlt | hlt
  · have := Nat.mul_le_mul_right R.bytes (show c.val + 1 ≤ c' from hlt)
    rw [Nat.add_mul, Nat.one_mul] at this
    omega
  · have := Nat.mul_le_mul_right R.bytes (show c'.val + 1 ≤ c from hlt)
    rw [Nat.add_mul, Nat.one_mul] at this
    omega

/-- Element `j / 4` of a chunk holds its byte `j`. -/
theorem off_div (c : Fin R.size) (j : Nat) : (R.off c + j) / 4 = c * R.chunk + j / 4 := by
  simp only [off, bytes, ← Nat.mul_assoc]; omega

theorem elem_inj {a b : Nat} {c c' : Fin R.size} (ha : a < R.chunk) (hb : b < R.chunk)
    (h : c * R.chunk + a = c' * R.chunk + b) : c = c' ∧ a = b := by
  have hc : c.val = c' := by
    have h1 : (c * R.chunk + a) / R.chunk = c := by
      rw [Nat.mul_comm, Nat.mul_add_div R.chunk_pos, Nat.div_eq_of_lt ha, Nat.add_zero]
    have h2 : (c' * R.chunk + b) / R.chunk = c' := by
      rw [Nat.mul_comm, Nat.mul_add_div R.chunk_pos, Nat.div_eq_of_lt hb, Nat.add_zero]
    rw [← h1, h, h2]
  refine ⟨Fin.ext hc, ?_⟩
  rw [hc] at h
  omega

end Ring

/-! ## The buffers of a call -/

def bufH (R : Ring) : BufferHandle := ⟨.buf, R.size * R.bytes⟩

def stageH (R : Ring) : BufferHandle := ⟨.stage, 2 * R.bytes⟩

theorem chunkBytes_eq (R : Ring) : chunkBytes R.chunk = R.bytes := by
  have := R.bytes_fit
  have := R.two_bytes_le
  exact sizeT_of_lt (show R.bytes < 2 ^ 64 by omega)

theorem sizeT_off {R : Ring} (c : Fin R.size) : sizeT (c * R.bytes) = R.off c := by
  have h1 := R.off_add_le c
  have h2 := R.bytes_fit
  exact sizeT_of_lt (by simp only [Ring.off] at *; omega)

theorem sizeT_elem {R : Ring} (c : Fin R.size) : sizeT (c * R.chunk) = c * R.chunk := by
  have h1 : c * R.chunk ≤ R.off c := Nat.mul_le_mul_left _ (by simp only [Ring.bytes]; omega)
  have h2 := R.off_add_le c
  have h3 := R.bytes_fit
  exact sizeT_of_lt (by omega)

/-- The checks of `ring_allreduce` pass, and no size wraps. -/
theorem allreduce_sizes (R : Ring) (r : Fin R.size) :
    R.count / (worldOf r).size = R.chunk ∧ R.count % (worldOf r).size = 0 ∧
      sizeT (R.count * sizeofFloat) = R.size * R.bytes ∧ sizeT (2 * R.bytes) = 2 * R.bytes ∧
      ¬ (worldOf r).size < 2 := by
  have hN := R.two_le
  have hf := R.bytes_fit
  have h2b := R.two_bytes_le
  refine ⟨Nat.mul_div_cancel_left _ (by omega), Nat.mul_mod_right .., ?_, sizeT_of_lt (by omega), ?_⟩
  · rw [show R.count * sizeofFloat = R.size * R.bytes from Nat.mul_assoc ..]
    exact sizeT_of_lt hf
  · simp only [worldOf]
    omega

theorem allreduce_ops (R : Ring) (blocks : Bool) (r : Fin R.size) :
    (Call.allreduce R.count).ops blocks (worldOf r) =
      some (if blocks then ringBlocking (worldOf r) (bufH R) (bufH R) (stageH R) R.chunk
        else ringPosted (worldOf r) (bufH R) (bufH R) (stageH R) R.chunk) := by
  obtain ⟨hdiv, hmod, h1, h2, h3⟩ := allreduce_sizes R r
  simp only [Call.ops, ringAllreduce, hdiv, hmod, h1, chunkBytes_eq, h2, h3, ne_eq, not_true, if_false]
  rfl

/-! ## What a rank's payload holds -/

section Payload

variable {β : Type} (R : Ring) (plus : Word β → Word β → Word β) (x : Fin R.size → Nat → Word β)

/-- Byte `j` of the chunk at distance `d`: the final sum once all-gather has
delivered it, the partial sum once this rank has added its own data, and this
rank's own data before. -/
def bufByte (r : Fin R.size) (d j : Nat) (delivered added : Prop) [Decidable delivered] [Decidable added] : β :=
  let c := chunkAt r d
  if d + 1 < R.size ∧ delivered then byteOf (ringSum plus x c) (R.off c + j)
  else if d = 0 ∨ added then byteOf (ringFold plus x c d) (R.off c + j)
  else byteOf (x r) (R.off c + j)

/-- Byte `j` of rank `r`'s message of round `s`. -/
def msgByte (r : Fin R.size) (s j : Nat) : β :=
  byteOf (message plus x r s) (R.off (chunkAt r (sendDist R.size s)) + j)

variable {R plus x} {r : Fin R.size} {d j s : Nat} {dl ad dl' ad' : Prop}
  [Decidable dl] [Decidable ad] [Decidable dl'] [Decidable ad']

theorem bufByte_congr (hd : d + 1 < R.size → (dl ↔ dl')) (ha : d ≠ 0 → (ad ↔ ad')) :
    bufByte R plus x r d j dl ad = bufByte R plus x r d j dl' ad' := by
  have h1 : (d + 1 < R.size ∧ dl) ↔ (d + 1 < R.size ∧ dl') := and_congr_right hd
  have h2 : (d = 0 ∨ ad) ↔ (d = 0 ∨ ad') := by
    by_cases h : d = 0
    · simp [h]
    · simp [h, ha h]
  simp only [bufByte, h1, h2]

/-- Untouched, the payload is this rank's own data. -/
theorem bufByte_own (hd : ¬ dl) (ha : d ≠ 0 → ¬ ad) :
    bufByte R plus x r d j dl ad = byteOf (x r) (R.off (chunkAt r d) + j) := by
  by_cases h : d = 0
  · subst h
    simp [bufByte, hd, chunkAt_zero, ringFold, byteOf]
  · simp [bufByte, hd, h, ha h]

/-- The chunk a round sends is ready: summed so far in reduce-scatter, final
in all-gather. -/
theorem bufByte_send (hd : s < R.size - 1 → ¬ dl) (ha : s ≠ 0 → s ≤ R.size - 1 → ad)
    (hf : R.size ≤ s → s < R.steps → dl) (hs : s < R.steps) :
    bufByte R plus x r (sendDist R.size s) j dl ad = msgByte R plus x r s j := by
  have hN := R.two_le
  simp only [Ring.steps] at hs hf
  by_cases h : s < R.size - 1
  · have hsd : sendDist R.size s = s := by simp [sendDist, h]
    have hz : s = 0 ∨ ad := by
      by_cases h0 : s = 0
      · exact .inl h0
      · exact .inr (ha h0 (by omega))
    have hm : min s (R.size - 1) = s := by omega
    simp [bufByte, msgByte, message, hsd, hd h, hz, hm]
  · by_cases h' : s = R.size - 1
    · have hsd : sendDist R.size s = R.size - 1 := by simp [sendDist, h']
      have hz := ha (by omega) (by omega)
      have hn : ¬ (R.size - 1 + 1 < R.size) := by omega
      have hm : min s (R.size - 1) = R.size - 1 := by omega
      simp [bufByte, msgByte, message, hsd, hn, hz, hm]
    · have hsd : sendDist R.size s = s - R.size := by simp [sendDist, h, h']
      have hz := hf (by omega) hs
      have hn : s - R.size + 1 < R.size := by omega
      have hm : min s (R.size - 1) = R.size - 1 := by omega
      have he : ∀ c, ringSum plus x c = ringFold plus x c (R.size - 1) := fun c => by funext e; rfl
      simp [bufByte, msgByte, message, hsd, hn, hz, hm, he]

/-- Delivered by all-gather (or, at the far distance, summed here), a chunk is
final. -/
theorem bufByte_final (hlt : d < R.size) (hd : dl) (ha : ad) :
    bufByte R plus x r d j dl ad = byteOf (ringSum plus x (chunkAt r d)) (R.off (chunkAt r d) + j) := by
  by_cases h : d + 1 < R.size
  · simp [bufByte, h, hd]
  · have : d = R.size - 1 := by omega
    have he : ringSum plus x (chunkAt r d) = ringFold plus x (chunkAt r d) d := by funext e; rw [this]; rfl
    simp [bufByte, h, ha, he]

/-! ### Memory that holds the payload -/

variable (R plus x) in
/-- `m` holds rank `r`'s payload, where `dl d j` and `ad d j` say whether byte
`j` of the chunk at distance `d` is delivered and added. -/
def Holds (r : Fin R.size) (m : Mem β) (dl ad : Nat → Nat → Prop) [∀ d j, Decidable (dl d j)]
    [∀ d j, Decidable (ad d j)] : Prop :=
  ∀ d < R.size, ∀ j < R.bytes, m (R.off (chunkAt r d) + j) = bufByte R plus x r d j (dl d j) (ad d j)

section Holds

variable {m : Mem β} {dl ad dl' ad' : Nat → Nat → Prop} [∀ d j, Decidable (dl d j)] [∀ d j, Decidable (ad d j)]
  [∀ d j, Decidable (dl' d j)] [∀ d j, Decidable (ad' d j)] {i : Nat}

theorem Holds.congr (h : Holds R plus x r m dl ad)
    (hd : ∀ d, d + 1 < R.size → ∀ j < R.bytes, (dl' d j ↔ dl d j))
    (ha : ∀ d, d ≠ 0 → d < R.size → ∀ j < R.bytes, (ad' d j ↔ ad d j)) : Holds R plus x r m dl' ad' := by
  intro d hlt j hj
  rw [h d hlt j hj]
  exact bufByte_congr (fun h' => (hd d h' j hj).symm) fun h' => (ha d h' hlt j hj).symm

/-- Before anything has happened to it, a rank's payload is its own. -/
theorem Holds.own {mem : Fin R.size → Mem β} (hd : ∀ d j, ¬ dl d j) (ha : ∀ d j, ¬ ad d j) :
    Holds R plus (fun r => (mem r).word) r (mem r) dl ad := by
  intro d _ j _
  rw [bufByte_own (hd d j) fun _ => ha d j, byteOf_self]

/-- The word a reduce-scatter round received for element `i` of its chunk. -/
theorem stage_word {e : Nat} (hs : s < R.size - 1)
    (h : ∀ k < 4, m (4 * e + k) = msgByte R plus x (left r) s (4 * i + k)) :
    m.word e = ringFold plus x (chunkAt r (s + 1)) s (chunkAt r (s + 1) * R.chunk + i) := by
  apply Mem.word_eq
  intro k hk
  have hch := chunkAt_recv (r := left r) (show s < 2 * (R.size - 1) by omega)
  have hrd : recvDist R.size s = s + 1 := by simp [recvDist, hs]
  rw [right_left, hrd] at hch
  have hoff : 4 * (chunkAt r (s + 1) * R.chunk + i) + k = R.off (chunkAt r (s + 1)) + (4 * i + k) := by
    simp only [Ring.off, Ring.bytes, ← Nat.mul_assoc]; omega
  rw [h k hk, hoff, msgByte, message, ← hch, show min s (R.size - 1) = s by omega]

/-- One element of reduce-scatter round `s` is added: this rank's own data to
what the round received for it. -/
theorem Holds.sum {w : Word β} (h : Holds R plus x r m dl ad) (hs : s < R.size - 1) (hi : i < R.chunk)
    (hnd : ∀ j, j / 4 = i → ¬ dl (s + 1) j) (hna : ∀ j, j / 4 = i → ¬ ad (s + 1) j)
    (hw : w = ringFold plus x (chunkAt r (s + 1)) s (chunkAt r (s + 1) * R.chunk + i))
    (ha : ∀ d j, d ≠ 0 → (ad' d j ↔ ad d j ∨ d = s + 1 ∧ j / 4 = i)) :
    Holds R plus x r
      (m.setWord (chunkAt r (s + 1) * R.chunk + i) (plus (m.word (chunkAt r (s + 1) * R.chunk + i)) w)) dl ad' := by
  have hb : R.bytes = R.chunk * 4 := rfl
  generalize hc : chunkAt r (s + 1) = c at hw ⊢
  have hown : m.word (c * R.chunk + i) = x r (c * R.chunk + i) := by
    apply Mem.word_eq
    intro k hk
    have hoff : 4 * (c * R.chunk + i) + k = R.off c + (4 * i + k) := by
      simp only [Ring.off, hb, ← Nat.mul_assoc]; omega
    rw [hoff, ← hc, h (s + 1) (by omega) _ (by omega)]
    exact bufByte_own (hnd _ (by omega)) fun _ => hna _ (by omega)
  intro d hd j hj
  have hdiv := R.off_div (chunkAt r d) j
  by_cases hsame : chunkAt r d = c ∧ j / 4 = i
  · -- This element's bytes: the sum of round `s`.
    obtain ⟨hcd, hji⟩ := hsame
    obtain rfl : d = s + 1 := chunkAt_inj hd (by omega) (hcd.trans hc.symm)
    have hadd : ad' (s + 1) j := (ha _ _ (by omega)).mpr (.inr ⟨rfl, hji⟩)
    have hnd' : ¬ (s + 1 + 1 < R.size ∧ dl (s + 1) j) := fun h' => hnd j hji h'.2
    simp only [bufByte, hnd', hadd, hcd, if_false, or_true, if_true]
    rw [Mem.setWord, if_pos (by rw [← hcd, hdiv, hcd, hji]), byteOf, hown, hw, ← hcd, hdiv, hcd, hji]
    rw [← hc, ringFold_succ (by omega)]
  · -- Any other byte is as it was.
    have hne : (R.off (chunkAt r d) + j) / 4 ≠ c * R.chunk + i := by
      rw [hdiv]
      exact fun he => hsame (R.elem_inj (by simp only [hb] at hj; omega) hi he)
    rw [Mem.setWord_outside hne, h d hd j hj]
    refine bufByte_congr (fun _ => Iff.rfl) fun hd0 => ?_
    have hns : ¬ (d = s + 1 ∧ j / 4 = i) := fun h' => hsame ⟨by rw [h'.1, hc], h'.2⟩
    rw [ha d j hd0]
    tauto

/-- Bytes of all-gather round `s` arrive, from byte `a` of its chunk on. -/
theorem Holds.deliver {a : Nat} {bs : List β} (h : Holds R plus x r m dl ad) (hs : s < R.steps) (hs' : ¬ s < R.size - 1)
    (hle : a + bs.length ≤ R.bytes)
    (hbs : ∀ i < bs.length, bs[i]? = some (msgByte R plus x (left r) s (a + i)))
    (hd : ∀ d j, j < R.bytes → (dl' d j ↔ dl d j ∨ d = recvDist R.size s ∧ a ≤ j ∧ j < a + bs.length)) :
    Holds R plus x r (m.write (R.off (chunkAt r (recvDist R.size s)) + a) bs) dl' ad := by
  have hN := R.two_le
  simp only [Ring.steps] at hs
  have hch := chunkAt_recv (r := left r) hs
  rw [right_left] at hch
  intro d hlt j hj
  by_cases hin : d = recvDist R.size s ∧ a ≤ j ∧ j < a + bs.length
  · obtain ⟨rfl, haj, hjb⟩ := hin
    have hget := hbs (j - a) (by omega)
    rw [show R.off (chunkAt r (recvDist R.size s)) + j = R.off (chunkAt r (recvDist R.size s)) + a + (j - a) by omega,
      Mem.write_inside hget, msgByte, message, ← hch, show min s (R.size - 1) = R.size - 1 by omega,
      show a + (j - a) = j by omega]
    have h1 : recvDist R.size s + 1 < R.size ∧ dl' (recvDist R.size s) j :=
      ⟨by simp only [recvDist, hs', if_false]; omega, (hd _ _ hj).mpr (.inr ⟨rfl, haj, hjb⟩)⟩
    simp only [bufByte, h1, and_self, if_true]
    rfl
  · have hout : R.off (chunkAt r d) + j < R.off (chunkAt r (recvDist R.size s)) + a ∨
        R.off (chunkAt r (recvDist R.size s)) + a + bs.length ≤ R.off (chunkAt r d) + j := by
      by_cases hdk : d = recvDist R.size s
      · subst hdk; omega
      · have hne : chunkAt r d ≠ chunkAt r (recvDist R.size s) := fun he => hdk (chunkAt_inj hlt (recvDist_lt hs) he)
        have := R.off_disjoint hne hj
        omega
    rw [Mem.write_outside hout, h d hlt j hj]
    refine bufByte_congr (fun _ => ?_) fun _ => Iff.rfl
    rw [hd d j hj]
    tauto

/-- With every chunk delivered or added up here, the payload is the sum of all
ranks' data in ring order. -/
theorem Holds.result (h : Holds R plus x r m dl ad) (hd : ∀ d, d + 1 < R.size → ∀ j < R.bytes, dl d j)
    (ha : ∀ d, d ≠ 0 → d < R.size → ∀ j < R.bytes, ad d j) (c : Fin R.size) {j} (hj : j < R.bytes) :
    m (R.off c + j) = byteOf (ringSum plus x c) (R.off c + j) := by
  have hN := R.two_le
  obtain ⟨d, hlt, rfl⟩ := exists_chunkAt r c
  have hdl : d + 1 < R.size → (dl d j ↔ True) := fun h' => iff_true_intro (hd d h' j hj)
  have had : d ≠ 0 → (ad d j ↔ True) := fun h0 => iff_true_intro (ha d h0 hlt j hj)
  rw [h d hlt j hj, bufByte_congr hdl had]
  exact bufByte_final hlt trivial trivial

end Holds

end Payload

end RdmaInfra.Collective
