/-
The invariant of one all-reduce on the blocking path.

Over a link everything a rank sends is one byte stream: byte `a` of it is byte
`a % bytes` of the message of round `a / bytes` (`streamByte`). A rank is
summed up by where its program is (`Pc`) and how far its transfer has got;
from these follow how many bytes it has sent and received in all (`total`), so
a link holds the bytes from the receiver's total to the sender's, and
everything a rank's memory holds follows from its own total (`RankVal`).
-/
import RdmaInfra.Queue
import RdmaInfra.Collective.BlockingProgress

namespace RdmaInfra.Collective.Blocking

open Transport

/-! ## Program points -/

/-- A point of a round of `ring_blocking`: `start` comes before the first,
`first` and `second` are its two transfers, and `sum i` is the reduction with
`i` elements done. -/
inductive Phase
  | start
  | first
  | second
  | pollL
  | pollR
  | sum (i : Nat)
  deriving DecidableEq

/-- A round and a point of it. The end of the program is `first` of the round
after the last. -/
structure Pc where
  s : Nat
  ph : Phase

namespace Pc

variable (R : Ring) (even : Bool)

/-- Whether element `i` of round `s`'s chunk has been added up. -/
def added (p : Pc) (s i : Nat) : Bool :=
  match p.ph with
  | .sum k => decide (s < p.s) || (s == p.s && decide (i < k))
  | _ => decide (s < p.s)

/-- The bytes moved in direction `d` since the call began, `moved` of them in
the transfer the rank is in. -/
def total (d : Dir) (p : Pc) (moved : Nat) : Nat :=
  match p.ph with
  | .start => 0
  | .first => p.s * R.bytes + if d = firstDir even then moved else 0
  | .second => if d = firstDir even then (p.s + 1) * R.bytes else p.s * R.bytes + moved
  | .pollL | .pollR | .sum _ => (p.s + 1) * R.bytes

/-- The length of the transfer the rank is in; 0 outside one. -/
def room (p : Pc) : Nat :=
  match p.ph with
  | .first => if p.s < R.steps then R.bytes else 0
  | .second => R.bytes
  | _ => 0

def Valid (p : Pc) : Prop :=
  match p.ph with
  | .start => p.s = 0
  | .first => p.s ≤ R.steps
  | .second | .pollL | .pollR => p.s < R.steps
  | .sum i => p.s < R.size - 1 ∧ i ≤ R.chunk

/-- The rank is in the transfer of direction `d` of its round. -/
def At (d : Dir) (p : Pc) : Prop :=
  p.s < R.steps ∧ (p.ph = .first ∧ d = firstDir even ∨ p.ph = .second ∧ d = secondDir even)

variable {R even} {p : Pc} {d d' : Dir} {m m' : Nat}

theorem added_of_lt {s i} (h : s < p.s) : p.added s i = true := by
  obtain ⟨t, ph⟩ := p
  cases ph <;> simp_all [added]

theorem At.room (h : p.At R even d) : p.room R = R.bytes := by
  obtain ⟨hs, ⟨hp, -⟩ | ⟨hp, -⟩⟩ := h <;> simp [Pc.room, hp, hs]

theorem At.added (h : p.At R even d) {s i} : p.added s i = decide (s < p.s) := by
  obtain ⟨-, ⟨hp, -⟩ | ⟨hp, -⟩⟩ := h <;> simp [Pc.added, hp]

theorem At.total (h : p.At R even d) : p.total R even d m = p.s * R.bytes + m := by
  obtain ⟨-, ⟨hp, rfl⟩ | ⟨hp, rfl⟩⟩ := h
  · simp [Pc.total, hp]
  · cases even <;> simp [Pc.total, hp, firstDir, secondDir]

/-- Meanwhile the other direction stands still, at one end of the round. -/
theorem At.total_other (h : p.At R even d) (m m' : Nat) (hd : d' ≠ d) :
    p.total R even d' m = p.total R even d' m' ∧ p.s * R.bytes ≤ p.total R even d' m ∧
      p.total R even d' m ≤ (p.s + 1) * R.bytes := by
  have hle : p.s * R.bytes ≤ (p.s + 1) * R.bytes := Nat.mul_le_mul_right _ (Nat.le_succ _)
  obtain ⟨-, ⟨hp, rfl⟩ | ⟨hp, rfl⟩⟩ := h
  · simp [Pc.total, hp, hd, hle]
  · have hf : d' = firstDir even := by
      revert hd
      cases even <;> cases d' <;> simp [firstDir, secondDir]
    simp [Pc.total, hp, hf, hle]

end Pc

/-- Byte `j` of round `a` comes before byte `m` of round `s`. -/
theorem stream_lt_iff {a s j m b : Nat} (hj : j < b) (hm : m ≤ b) :
    a * b + j < s * b + m ↔ a < s ∨ a = s ∧ j < m := by
  rcases Nat.lt_trichotomy a s with h | rfl | h
  · have := Nat.mul_le_mul_right b (show a + 1 ≤ s from h)
    rw [Nat.add_mul, Nat.one_mul] at this
    omega
  · omega
  · have := Nat.mul_le_mul_right b (show s + 1 ≤ a from h)
    rw [Nat.add_mul, Nat.one_mul] at this
    omega

/-! ## The program at each point -/

section Program

variable (R : Ring) (r : Fin R.size)

/-- The transfer of direction `d` of round `s`. -/
def dirOp (d : Dir) (s : Nat) : Op :=
  match d with
  | .send => sendOp R r s
  | .recv => recvOp R r s

/-- The rounds from `s` on. -/
def fromStep (s : Nat) : List Op :=
  (List.range' s (R.steps - s)).flatMap (blockingStep (worldOf r) (bufH R) (bufH R) (stageH R) R.chunk)

/-- The rest of round `s` once its transfers are polled, and the rounds after
it. -/
def afterPolls (s : Nat) : List Op := sumOps R r s ++ fromStep R r (s + 1)

def opsAt (p : Pc) : List Op :=
  match p.ph with
  | .start => []
  | .first => fromStep R r p.s
  | .second => dirOp R r (secondDir (isEven r)) p.s :: .pollLeft :: .pollRight :: afterPolls R r p.s
  | .pollL => .pollLeft :: .pollRight :: afterPolls R r p.s
  | .pollR => .pollRight :: afterPolls R r p.s
  | .sum i => .sum (chunkAt r (p.s + 1) * R.chunk + i) i (R.chunk - i) :: fromStep R r (p.s + 1)

variable {R r}

theorem allreduce_fromStep : (Call.allreduce R.count).ops true (worldOf r) = some (fromStep R r 0) := by
  rw [allreduce_ops, if_pos rfl, ringBlocking, List.range_eq_range']
  rfl

theorem fromStep_lt {s} (h : s < R.steps) :
    fromStep R r s = dirOp R r (firstDir (isEven r)) s :: opsAt R r ⟨s, .second⟩ := by
  rw [fromStep, show R.steps - s = R.steps - (s + 1) + 1 by omega, List.range'_succ, List.flatMap_cons,
    blockingStep_eq h]
  simp only [opsAt, afterPolls, fromStep]
  cases isEven r <;> rfl

theorem fromStep_end : fromStep R r R.steps = [] := by simp [fromStep]

theorem dirOp_transfer {d s} : (dirOp R r d s).transfer = some (d, R.bytes) := by
  cases d
  · rfl
  · exact transfer_recvOp

theorem dirOp_passes {d s} : (dirOp R r d s).Passes := by
  cases d
  · exact sendOp_passes
  · exact recvOp_passes

theorem Pc.At.ops {p : Pc} {d} (h : p.At R (isEven r) d) : ∃ ops, opsAt R r p = dirOp R r d p.s :: ops := by
  obtain ⟨s, ph⟩ := p
  obtain ⟨hs, ⟨hp, rfl⟩ | ⟨hp, rfl⟩⟩ := h
  · cases hp; exact ⟨_, fromStep_lt hs⟩
  · cases hp; exact ⟨_, rfl⟩

/-- A rank whose program is about to make a transfer is in that transfer. -/
theorem Pc.at_of_ops {p : Pc} {op ops d len} (hv : p.Valid R) (ho : opsAt R r p = op :: ops)
    (ht : op.transfer = some (d, len)) : p.At R (isEven r) d ∧ op = dirOp R r d p.s := by
  obtain ⟨s, ph⟩ := p
  cases ph with
  | start => cases ho
  | first =>
    by_cases hs : s < R.steps
    · simp only [opsAt, fromStep_lt hs, List.cons.injEq] at ho
      rw [← ho.1, dirOp_transfer] at ht
      cases ht
      exact ⟨⟨hs, .inl ⟨rfl, rfl⟩⟩, ho.1.symm⟩
    · simp only [Pc.Valid] at hv
      rw [opsAt, show s = R.steps by omega, fromStep_end] at ho
      cases ho
  | second =>
    simp only [opsAt, List.cons.injEq] at ho
    rw [← ho.1, dirOp_transfer] at ht
    cases ht
    exact ⟨⟨hv, .inr ⟨rfl, rfl⟩⟩, ho.1.symm⟩
  | pollL | pollR | sum =>
    simp only [opsAt, List.cons.injEq] at ho
    rw [← ho.1] at ht
    cases ht

end Program

/-! ## The invariant -/

section Invariant

variable {β : Type} (R : Ring) (plus : Word β → Word β → Word β) (x : Fin R.size → Nat → Word β)

/-- Byte `a` of everything rank `r` sends. -/
def streamByte (r : Fin R.size) (a : Nat) : β := msgByte R plus x r (a / R.bytes) (a % R.bytes)

/-- The payload, and each received byte in the stage until it has been added
up, where `got` bytes have been received in all. -/
structure MemVal (r : Fin R.size) (mem : Area → Mem β) (p : Pc) (got : Nat) : Prop where
  buf : Holds R plus x r (mem .buf) (fun d j => (R.size - 1 + d) * R.bytes + j < got)
    (fun d j => p.added (d - 1) (j / 4) = true)
  stage : ∀ s < R.size - 1, ∀ j < R.bytes, s * R.bytes + j < got → p.added s (j / 4) = false →
    mem .stage j = msgByte R plus x (left r) s j

structure RankVal (r : Fin R.size) (n : Node β) (p : Pc) : Prop where
  valid : p.Valid R
  todo : n.ctl.todo = if p.ph = .start then [.allreduce R.count] else []
  ops : n.ctl.ops = opsAt R r p
  ok : n.ctl.failed = false
  moved : n.moved ≤ p.room R
  mem : MemVal R plus x r n.mem p (p.total R (isEven r) .recv n.moved)

/-- What link `r` holds: what its receiver has not received of what its sender
has sent. -/
def LinkVal (r : Fin R.size) (link : List β) (got out : Nat) : Prop :=
  got ≤ out ∧ link = (span got out).map (streamByte R plus x r)

/-- Every rank and link, for some program points. -/
def Val (s : State R.size β) : Prop :=
  ∃ p : Fin R.size → Pc,
    (∀ r, RankVal R plus x r (s.node r) (p r)) ∧
    ∀ r, LinkVal R plus x r (s.link r)
      ((p (right r)).total R (isEven (right r)) .recv (s.node (right r)).moved)
      ((p r).total R (isEven r) .send (s.node r).moved)

variable {R plus x} {r : Fin R.size} {n n' : Node β} {p p' : Pc}

theorem streamByte_eq {s j} (hj : j < R.bytes) : streamByte R plus x r (s * R.bytes + j) = msgByte R plus x r s j := by
  rw [streamByte, Nat.mul_comm, Nat.mul_add_div R.bytes_pos, Nat.div_eq_of_lt hj, Nat.mul_add_mod,
    Nat.mod_eq_of_lt hj, Nat.add_zero]

/-- A step that neither moves nor adds anything. -/
theorem RankVal.goto (h : RankVal R plus x r n p) (hv : p'.Valid R)
    (htodo : n'.ctl.todo = if p'.ph = .start then [.allreduce R.count] else []) (hops : n'.ctl.ops = opsAt R r p')
    (hok : n'.ctl.failed = false) (hmoved : n'.moved ≤ p'.room R) (hmem : n'.mem = n.mem)
    (hgot : p'.total R (isEven r) .recv n'.moved = p.total R (isEven r) .recv n.moved)
    (ha : ∀ s < R.size - 1, ∀ i < R.chunk, p'.added s i = p.added s i) : RankVal R plus x r n' p' := by
  have hN := R.two_le
  have hi : ∀ {j}, j < R.bytes → j / 4 < R.chunk := fun hj => by simp only [Ring.bytes] at hj; omega
  refine ⟨hv, htodo, hops, hok, hmoved, ?_, ?_⟩
  · rw [hmem, hgot]
    refine h.mem.buf.congr (fun _ _ _ _ => Iff.rfl) fun d _ hd j hj => ?_
    rw [ha _ (by omega) _ (hi hj)]
  · rw [hmem, hgot]
    intro s hs j hj hg hn
    exact h.mem.stage s hs j hj hg (by rw [← ha s hs _ (hi hj)]; exact hn)

/-! ### The program's steps -/

/-- A rank leaves a transfer only once all its bytes have moved. -/
theorem run_dirOp {d s ops} (h : RankVal R plus x r n p) (ho : n.ctl.ops = dirOp R r d s :: ops)
    (hroom : p.room R = R.bytes) (hr : n.run plus (worldOf r) = some n') :
    n.moved = R.bytes ∧ n' = { n.goto ops with moved := 0 } := by
  have hm := h.moved
  have hpass := dirOp_passes (R := R) (r := r) (d := d) (s := s)
  have hlen := dirOp_transfer (R := R) (r := r) (d := d) (s := s)
  generalize dirOp R r d s = op at ho hpass hlen
  cases op with
  | sendAsync hd len id off | recvAsync hd len id off =>
    cases hlen
    simp only [Op.Passes] at hpass
    simp only [Node.run, ho, hpass, if_true] at hr
    split at hr
    · cases hr
    · cases hr; exact ⟨by omega, rfl⟩
  | _ => cases hlen

theorem run_first {s} (hs : s < R.steps) (h : RankVal R plus x r n ⟨s, .first⟩)
    (hr : n.run plus (worldOf r) = some n') :
    RankVal R plus x r n' ⟨s, .second⟩ ∧
      ∀ d, Pc.total R (isEven r) d ⟨s, .second⟩ n'.moved = Pc.total R (isEven r) d ⟨s, .first⟩ n.moved := by
  obtain ⟨hm, rfl⟩ := run_dirOp h (h.ops.trans (fromStep_lt hs)) (by simp [Pc.room, hs]) hr
  have ht : ∀ d, Pc.total R (isEven r) d ⟨s, .second⟩ 0 = Pc.total R (isEven r) d ⟨s, .first⟩ n.moved := by
    intro d
    rw [hm]
    simp only [Pc.total]
    split
    · rw [Nat.add_mul, Nat.one_mul]
    · rfl
  exact ⟨h.goto hs h.todo rfl h.ok (Nat.zero_le _) rfl (ht _) fun _ _ _ _ => rfl, ht⟩

theorem run_second {s} (hs : s < R.steps) (h : RankVal R plus x r n ⟨s, .second⟩)
    (hr : n.run plus (worldOf r) = some n') :
    RankVal R plus x r n' ⟨s, .pollL⟩ ∧
      ∀ d, Pc.total R (isEven r) d ⟨s, .pollL⟩ n'.moved = Pc.total R (isEven r) d ⟨s, .second⟩ n.moved := by
  obtain ⟨hm, rfl⟩ := run_dirOp h h.ops rfl hr
  have ht : ∀ d, Pc.total R (isEven r) d ⟨s, .pollL⟩ 0 = Pc.total R (isEven r) d ⟨s, .second⟩ n.moved := by
    intro d
    rw [hm]
    simp only [Pc.total, Nat.add_mul, Nat.one_mul]
    exact (ite_self _).symm
  exact ⟨h.goto hs h.todo rfl h.ok (Nat.zero_le _) rfl (ht _) fun _ _ _ _ => rfl, ht⟩

/-- One element is added. -/
theorem run_sum {s i} (hi : i < R.chunk) (h : RankVal R plus x r n ⟨s, .sum i⟩)
    (hr : n.run plus (worldOf r) = some n') : RankVal R plus x r n' ⟨s, .sum (i + 1)⟩ ∧ n'.moved = n.moved := by
  have hN := R.two_le
  have hv : s < R.size - 1 ∧ _ := h.valid
  have hb : R.bytes = R.chunk * 4 := rfl
  have ho := h.ops
  simp only [opsAt, show R.chunk - i = R.chunk - (i + 1) + 1 by omega] at ho
  simp only [Node.run, ho, Option.some.injEq] at hr
  subst hr
  have hgot : ∀ k, Pc.total R (isEven r) .recv ⟨s, .sum k⟩ n.moved = (s + 1) * R.bytes + 0 := fun k => rfl
  have hin : (n.mem .stage).word i = ringFold plus x (chunkAt r (s + 1)) s (chunkAt r (s + 1) * R.chunk + i) := by
    apply stage_word hv.1
    intro k hk
    refine h.mem.stage s hv.1 _ (by omega) ?_ (by simp [Pc.added]; omega)
    rw [hgot, stream_lt_iff (by omega) (by omega)]
    omega
  refine ⟨⟨⟨hv.1, hi⟩, h.todo, ?_, h.ok, h.moved, ?_, ?_⟩, rfl⟩
  · simp only [Node.goto, opsAt, Nat.add_assoc]
  · refine h.mem.buf.sum hv.1 hi (fun j hj => ?_) (fun j hj => by simp [Pc.added]; omega) hin fun d j hd => ?_
    · rw [hgot, stream_lt_iff (by omega) (by omega)]
      omega
    · simp only [Pc.added, Bool.or_eq_true, Bool.and_eq_true, decide_eq_true_eq, beq_iff_eq]
      omega
  · intro t ht j hj hg hn
    have hn' : Pc.added ⟨s, .sum i⟩ t (j / 4) = false := by
      simp [Pc.added] at hn ⊢; omega
    have := h.mem.stage t ht j hj hg hn'
    simpa [Node.goto] using this

/-- Whatever step a rank's program takes, its invariant holds at the point it
gets to, and no byte has moved. -/
theorem run_val (h : RankVal R plus x r n p) (hr : n.run plus (worldOf r) = some n') :
    ∃ p', RankVal R plus x r n' p' ∧
      ∀ d, p'.total R (isEven r) d n'.moved = p.total R (isEven r) d n.moved := by
  have hst : R.steps = 2 * (R.size - 1) := rfl
  obtain ⟨s, ph⟩ := p
  have hv := h.valid
  have ho := h.ops
  have hm := h.moved
  cases ph with
  | start =>
    simp only [Pc.Valid] at hv
    subst hv
    have ho : n.ctl.ops = [] := ho
    have ht : n.ctl.todo = [.allreduce R.count] := h.todo
    simp only [Pc.room, Nat.le_zero] at hm
    simp only [Node.run, ho, Ctl.enter, ht, allreduce_fromStep, Option.map_some, Option.some.injEq] at hr
    subst hr
    have ht : ∀ d, Pc.total R (isEven r) d ⟨0, .first⟩ n.moved = 0 := by
      intro d; rw [hm]; simp [Pc.total]
    exact ⟨⟨0, .first⟩, h.goto (Nat.zero_le _) rfl rfl h.ok (by simp [hm]) rfl (ht _) fun _ _ _ _ => rfl, ht⟩
  | first =>
    by_cases hs : s < R.steps
    · exact ⟨_, run_first hs h hr⟩
    · simp only [Pc.Valid] at hv
      rw [opsAt, show s = R.steps by omega, fromStep_end] at ho
      have ht : n.ctl.todo = [] := h.todo
      simp [Node.run, ho, Ctl.enter, ht] at hr
  | second => exact ⟨_, run_second hv h hr⟩
  | pollL =>
    simp only [opsAt] at ho
    simp only [Node.run, ho, Option.some.injEq] at hr
    subst hr
    exact ⟨⟨s, .pollR⟩, h.goto hv h.todo rfl h.ok hm rfl rfl fun _ _ _ _ => rfl, fun _ => rfl⟩
  | pollR =>
    simp only [opsAt, afterPolls, sumOps] at ho
    simp only [Node.run, ho, Option.some.injEq] at hr
    subst hr
    by_cases hs : s < R.size - 1
    · refine ⟨⟨s, .sum 0⟩, h.goto ⟨hs, Nat.zero_le _⟩ h.todo ?_ h.ok hm rfl rfl fun t ht i hi => ?_, fun _ => rfl⟩
      · simp [Node.goto, opsAt, hs]
      · simp [Pc.added]
    · -- An all-gather round ends here; nothing of reduce-scatter is left to add.
      simp only [Pc.room, Nat.le_zero] at hm
      have ht : ∀ d, Pc.total R (isEven r) d ⟨s + 1, .first⟩ n.moved = (s + 1) * R.bytes := by
        intro d; rw [hm]; simp [Pc.total]
      refine ⟨⟨s + 1, .first⟩, h.goto hv h.todo ?_ h.ok (by simp [Node.goto, hm]) rfl (ht _) fun t ht i hi => ?_, ht⟩
      · simp [Node.goto, opsAt, hs]
      · simp only [Pc.added, decide_eq_decide]; omega
  | sum i =>
    obtain ⟨hs, hi⟩ : s < R.size - 1 ∧ i ≤ R.chunk := hv
    by_cases hi' : i = R.chunk
    · subst hi'
      simp only [opsAt, Nat.sub_self] at ho
      simp only [Node.run, ho, Option.some.injEq] at hr
      subst hr
      simp only [Pc.room, Nat.le_zero] at hm
      have ht : ∀ d, Pc.total R (isEven r) d ⟨s + 1, .first⟩ n.moved = (s + 1) * R.bytes := by
        intro d; rw [hm]; simp [Pc.total]
      refine ⟨⟨s + 1, .first⟩, h.goto (show s + 1 ≤ R.steps by omega) h.todo rfl h.ok (by simp [Node.goto, hm]) rfl
        (ht _) fun t ht i hi => ?_, ht⟩
      rw [Bool.eq_iff_iff]
      simp [Pc.added, hi]
      omega
    · obtain ⟨hval, hmv⟩ := run_sum (by omega) h hr
      exact ⟨_, hval, fun _ => by rw [hmv]; rfl⟩

/-! ### The transfers -/

/-- The chunk a round sends is ready, and nothing received since has touched
it. -/
theorem source_ready (h : RankVal R plus x r n p) (ha : p.At R (isEven r) .send) {j} (hj : j < R.bytes) :
    n.mem .buf (R.off (chunkAt r (sendDist R.size p.s)) + j) = msgByte R plus x r p.s j := by
  have hN := R.two_le
  obtain ⟨-, hlo, hhi⟩ := ha.total_other n.moved n.moved (show Dir.recv ≠ .send by decide)
  have hlt : ∀ {a : Nat}, a < p.s → a * R.bytes + j < p.total R (isEven r) .recv n.moved := fun {a} h' => by
    have := (stream_lt_iff (s := p.s) (m := 0) hj (Nat.zero_le _)).mpr (.inl h')
    omega
  have hge : ∀ {a : Nat}, p.s < a → ¬ a * R.bytes + j < p.total R (isEven r) .recv n.moved := fun {a} h' => by
    have := Nat.mul_le_mul_right R.bytes (show p.s + 1 ≤ a from h')
    omega
  rw [h.mem.buf _ (sendDist_lt ha.1) j hj]
  apply bufByte_send _ _ _ ha.1
  · intro hs
    simp only [sendDist, hs, if_true]
    exact hge (by omega)
  · intro h0 hle
    apply Pc.added_of_lt
    simp only [sendDist]
    split <;> [skip; split] <;> omega
  · intro hle _
    have h1 : ¬ p.s < R.size - 1 := by omega
    have h2 : p.s ≠ R.size - 1 := by omega
    simp only [sendDist, h1, h2, if_false]
    exact hlt (by omega)

/-- The kernel takes the next bytes of the stream. -/
theorem RankVal.push {k bs} (h : RankVal R plus x r n p) (hp : n.push k = some (n', bs)) :
    RankVal R plus x r n' p ∧
      p.total R (isEven r) .recv n'.moved = p.total R (isEven r) .recv n.moved ∧
      p.total R (isEven r) .send n'.moved = p.total R (isEven r) .send n.moved + k ∧
      bs = (span (p.total R (isEven r) .send n.moved) (p.total R (isEven r) .send n.moved + k)).map
        (streamByte R plus x r) := by
  simp only [Node.push] at hp
  split at hp
  swap
  · cases hp
  next hd len id off ops ho =>
  split at hp
  swap
  · cases hp
  next hk =>
  cases hp
  obtain ⟨ha, hop⟩ := Pc.at_of_ops h.valid (h.ops.symm.trans ho) rfl
  simp only [dirOp, sendOp, Op.sendAsync.injEq] at hop
  obtain ⟨rfl, rfl, -, rfl⟩ := hop
  obtain ⟨hrecv, -⟩ := ha.total_other (n.moved + k) n.moved (show Dir.recv ≠ .send by decide)
  refine ⟨⟨h.valid, h.todo, h.ops, h.ok, by rw [ha.room]; exact hk.2, ?_⟩, hrecv, ?_, ?_⟩
  · rw [hrecv]; exact h.mem
  · rw [ha.total, ha.total, Nat.add_assoc]
  · rw [ha.total]
    apply List.ext_getElem?
    intro i
    by_cases hi : i < k
    · rw [Mem.getElem?_read hi, List.getElem?_map, getElem?_span (by omega), Option.map_some, Nat.add_assoc,
        Nat.add_assoc, streamByte_eq (by omega)]
      exact congrArg some (source_ready h ha (by omega))
    · rw [List.getElem?_eq_none (by rw [Mem.length_read]; omega),
        List.getElem?_eq_none (by rw [List.length_map, length_span]; omega)]

/-- The next bytes of the stream land where the round receives. -/
theorem RankVal.pull {bs : List β} (h : RankVal R plus x r n p) (hp : n.pull bs = some n')
    (hbs : bs = (span (p.total R (isEven r) .recv n.moved) (p.total R (isEven r) .recv n.moved + bs.length)).map
      (streamByte R plus x (left r))) :
    RankVal R plus x r n' p ∧
      p.total R (isEven r) .send n'.moved = p.total R (isEven r) .send n.moved ∧
      p.total R (isEven r) .recv n'.moved = p.total R (isEven r) .recv n.moved + bs.length := by
  simp only [Node.pull] at hp
  split at hp
  swap
  · cases hp
  next hd len id off ops ho =>
  split at hp
  swap
  · cases hp
  next hk =>
  cases hp
  obtain ⟨ha, hop⟩ := Pc.at_of_ops h.valid (h.ops.symm.trans ho) rfl
  have hlen : len = R.bytes := by
    have := congrArg Op.transfer hop
    rw [dirOp_transfer] at this
    simpa [Op.transfer] using this
  rw [hlen] at hk
  have hget : ∀ i < bs.length, bs[i]? = some (msgByte R plus x (left r) p.s (n.moved + i)) := by
    intro i hi
    rw [hbs, ha.total, List.getElem?_map, getElem?_span (by omega), Option.map_some, Nat.add_assoc,
      streamByte_eq (by omega)]
  have hm := h.mem
  obtain ⟨hsend, -⟩ := ha.total_other (n.moved + bs.length) n.moved (show Dir.send ≠ .recv by decide)
  refine ⟨⟨h.valid, h.todo, h.ops, h.ok, by rw [ha.room]; exact hk.2, ?_⟩, hsend, by rw [ha.total, ha.total, Nat.add_assoc]⟩
  rw [ha.total] at hm ⊢
  dsimp only [dirOp, recvOp] at hop
  by_cases hs : p.s < R.size - 1
  · -- A reduce-scatter chunk lands in the stage, over one already added up.
    rw [if_pos hs] at hop
    simp only [Op.recvAsync.injEq] at hop
    obtain ⟨rfl, -, -, rfl⟩ := hop
    simp only [stageH, Nat.zero_add]
    refine ⟨?_, fun t ht j hj hg hn => ?_⟩
    · rw [Function.update_of_ne (by decide)]
      refine hm.buf.congr (fun d _ j hj => ?_) fun _ _ _ _ _ => Iff.rfl
      rw [stream_lt_iff hj hk.2, stream_lt_iff hj (by omega)]
      omega
    · rw [Function.update_self]
      rw [ha.added, decide_eq_false_iff_not] at hn
      rw [stream_lt_iff hj hk.2] at hg
      obtain rfl : t = p.s := by omega
      by_cases hjm : j < n.moved
      · rw [Mem.write_outside (.inl hjm)]
        exact hm.stage _ ht j hj (by omega) (by rw [ha.added]; simp)
      · have := Mem.write_inside (m := n.mem .stage) (a := n.moved) (hget (j - n.moved) (by omega))
        rwa [show n.moved + (j - n.moved) = j by omega] at this
  · -- An all-gather chunk lands in the payload.
    rw [if_neg hs] at hop
    simp only [Op.recvAsync.injEq] at hop
    obtain ⟨rfl, -, -, rfl⟩ := hop
    simp only [bufH]
    refine ⟨?_, fun t ht j hj hg hn => ?_⟩
    · rw [Function.update_self]
      refine hm.buf.deliver ha.1 hs hk.2 hget fun d j hj => ?_
      have hrd : recvDist R.size p.s = p.s - (R.size - 1) := by simp [recvDist, hs]
      rw [stream_lt_iff hj hk.2, stream_lt_iff hj (by omega)]
      omega
    · rw [Function.update_of_ne (by decide)]
      rw [ha.added, decide_eq_false_iff_not] at hn
      omega

end Invariant

end RdmaInfra.Collective.Blocking
