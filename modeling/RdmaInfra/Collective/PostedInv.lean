/-
The invariant of one all-reduce on the posted path.

A rank is summed up by where its program is (`Pc`), by how many messages have
been placed into its receives (`got`) and by how many of its own have been
placed at its right neighbour (`out`). `RankInv` says what the rank's queues
and memory hold in those terms; it mentions no other rank's state, so a step
changes it for one rank, or for two at a placement (`place_inv`).

The one fact that is not local is that a send still finds its source intact.
A chunk is overwritten by all-gather long after it was sent, except in a world
of two: there the receive posted in round 0 is for the very chunk that round
sends, and only the neighbour's having polled that send's message first keeps
the two apart (`source_intact`).
-/
import RdmaInfra.Collective.QueuePair
import RdmaInfra.Collective.Ring

namespace RdmaInfra.Collective.Posted

open Verbs (sgeInBounds)

/-! ## Program points -/

/-- A point of a round of `ring_posted`; `start` and `post0` come before the
first round, `sum i` is the reduction with `i` elements done. -/
inductive Phase
  | start
  | post0
  | send
  | pollL
  | post
  | pollR
  | sum (i : Nat)
  deriving DecidableEq

/-- A round and a point of it. The end of the program is `send` of the round
after the last. -/
structure Pc where
  s : Nat
  ph : Phase

namespace Pc

/-- Sends posted. -/
def sent (p : Pc) : Nat :=
  match p.ph with
  | .start | .post0 | .send => p.s
  | .pollL | .post | .pollR | .sum _ => p.s + 1

/-- Receives posted, of `steps` in all. -/
def posted (steps : Nat) (p : Pc) : Nat :=
  match p.ph with
  | .start | .post0 => 0
  | .send | .pollL | .post => min (p.s + 1) steps
  | .pollR | .sum _ => min (p.s + 2) steps

/-- Receive completions polled. -/
def polledL (p : Pc) : Nat :=
  match p.ph with
  | .start | .post0 | .send | .pollL => p.s
  | .post | .pollR | .sum _ => p.s + 1

/-- Send completions polled. -/
def polledR (p : Pc) : Nat :=
  match p.ph with
  | .start | .post0 | .send | .pollL | .post | .pollR => p.s
  | .sum _ => p.s + 1

/-- Whether element `i` of round `s`'s chunk has been added up. -/
def added (p : Pc) (s i : Nat) : Bool :=
  match p.ph with
  | .sum k => decide (s < p.s) || (s == p.s && decide (i < k))
  | _ => decide (s < p.s)

def Valid (R : Ring) (p : Pc) : Prop :=
  match p.ph with
  | .start | .post0 => p.s = 0
  | .send => p.s ≤ R.steps
  | .pollL | .pollR => p.s < R.steps
  | .post => p.s + 1 < R.steps
  | .sum i => p.s < R.size - 1 ∧ i ≤ R.chunk

theorem added_of_lt {p : Pc} {s i} (h : s < p.s) : p.added s i = true := by
  obtain ⟨t, ph⟩ := p
  cases ph <;> simp_all [added]

end Pc

/-! ## The program at each point -/

section Program

variable (R : Ring) (r : Fin R.size)

/-- The rounds from `s` on. -/
def fromStep (s : Nat) : List Op :=
  (List.range' s (R.steps - s)).flatMap (postedStep (worldOf r) (bufH R) (bufH R) (stageH R) R.chunk)

/-- The rest of round `s` once its send is polled, and the rounds after it. -/
def afterPollR (s : Nat) : List Op := postedSum (worldOf r) R.chunk s ++ fromStep R r (s + 1)

/-- The rest of round `s` once its receive is polled. -/
def afterPollL (s : Nat) : List Op :=
  (if s + 1 < R.steps then [postRecv (worldOf r) (bufH R) (stageH R) R.chunk (s + 1)] else []) ++
    .pollRight :: afterPollR R r s

def opsAt (p : Pc) : List Op :=
  match p.ph with
  | .start => []
  | .post0 => postRecv (worldOf r) (bufH R) (stageH R) R.chunk 0 :: fromStep R r 0
  | .send => fromStep R r p.s
  | .pollL => .pollLeft :: afterPollL R r p.s
  | .post => afterPollL R r p.s
  | .pollR => .pollRight :: afterPollR R r p.s
  | .sum i =>
    .sum (chunkAt r (p.s + 1) * R.chunk + i) (p.s % 2 * R.chunk + i) (R.chunk - i) :: fromStep R r (p.s + 1)

/-- The receive of round `s`. -/
def recvWr (s : Nat) : Wr :=
  if s < R.size - 1 then ⟨.stage, s % 2 * R.bytes, R.bytes, s⟩
  else ⟨.buf, R.off (chunkAt r (recvDist R.size s)), R.bytes, s⟩

/-- The send of round `s`. -/
def sendWr (s : Nat) : Wr := ⟨.buf, R.off (chunkAt r (sendDist R.size s)), R.bytes, s⟩

variable {R r}

theorem call_ops (R : Ring) (r : Fin R.size) :
    (Call.allreduce R.count).ops false (worldOf r) =
      some (postRecv (worldOf r) (bufH R) (stageH R) R.chunk 0 :: fromStep R r 0) := by
  rw [allreduce_ops, if_neg Bool.false_ne_true, ringPosted, List.range_eq_range']
  rfl

theorem fromStep_lt {s} (h : s < R.steps) :
    fromStep R r s =
      .sendAsync (bufH R) R.bytes s (R.off (chunkAt r (sendDist R.size s))) :: .pollLeft :: afterPollL R r s := by
  have hw : (worldOf r).steps = R.steps := rfl
  rw [fromStep, show R.steps - s = R.steps - (s + 1) + 1 by omega, List.range'_succ, List.flatMap_cons]
  simp only [postedStep, chunkBytes_eq, sendChunk_eq h, sizeT_off, afterPollL, afterPollR, fromStep, hw,
    List.cons_append, List.append_assoc]

theorem fromStep_end : fromStep R r R.steps = [] := by simp [fromStep]

end Program

/-! ## The invariant -/

section Invariant

variable {β : Type} (R : Ring) (plus : Word β → Word β → Word β) (x : Fin R.size → Nat → Word β)

/-- The payload, and each received chunk in its stage half until it has been
added up. -/
structure MemInv (r : Fin R.size) (mem : Area → Mem β) (p : Pc) (got : Nat) : Prop where
  buf : Holds R plus x r (mem .buf) (fun d _ => R.size - 1 + d < got) (fun d j => p.added (d - 1) (j / 4) = true)
  stage : ∀ s < R.size - 1, s < got → ∀ j < R.bytes, p.added s (j / 4) = false →
    mem .stage (s % 2 * R.bytes + j) = msgByte R plus x (left r) s j

structure RankInv (r : Fin R.size) (n : Node β) (p : Pc) (got out : Nat) : Prop where
  valid : p.Valid R
  todo : n.ctl.todo = if p.ph = .start then [.allreduce R.count] else []
  ops : n.ctl.ops = opsAt R r p
  ok : n.ctl.failed = false
  recv : RecvQueue (recvWr R r) n (p.posted R.steps) p.polledL got
  send : SendSide (sendWr R r) (msgByte R plus x r) n p.sent p.polledR out
  mem : MemInv R plus x r n.mem p got

/-- Every rank keeps its invariant, for some program points and counts. -/
def Inv (s : State R.size β) : Prop :=
  ∃ (p : Fin R.size → Pc) (got : Fin R.size → Nat),
    ∀ r, RankInv R plus x r (s r) (p r) (got r) (got (right r))

variable {R plus x} {r : Fin R.size} {n n' : Node β} {p p' : Pc} {got out : Nat}

theorem MemInv.congr (h : MemInv R plus x r n.mem p got)
    (ha : ∀ s < R.size - 1, ∀ i < R.chunk, p'.added s i = p.added s i) : MemInv R plus x r n.mem p' got := by
  have hN := R.two_le
  have hi : ∀ {j}, j < R.bytes → j / 4 < R.chunk := fun hj => by simp only [Ring.bytes] at hj; omega
  refine ⟨h.buf.congr (fun _ _ _ _ => Iff.rfl) fun d _ hd j hj => ?_, fun s hs hg j hj hn => ?_⟩
  · rw [ha _ (by omega) _ (hi hj)]
  · exact h.stage s hs hg j hj (by rw [← ha s hs _ (hi hj)]; exact hn)

/-! ### The program's steps -/

theorem run_start (h : RankInv R plus x r n ⟨0, .start⟩ got out) (hr : n.run plus (worldOf r) = some n') :
    RankInv R plus x r n' ⟨0, .post0⟩ got out := by
  have ho : n.ctl.ops = [] := h.ops
  have ht : n.ctl.todo = [.allreduce R.count] := h.todo
  simp only [Node.run, ho, Ctl.enter, ht, call_ops, Option.map_some, Option.some.injEq] at hr
  subst hr
  exact ⟨rfl, rfl, rfl, h.ok, h.recv.congr rfl rfl rfl, h.send.congr rfl rfl rfl,
    h.mem.congr fun _ _ _ _ => rfl⟩

/-- Posting the receive of round `s`. -/
theorem run_postRecv (hb : R.bytes < 2 ^ 32) {s ops} (hs : s < R.steps)
    (ho : n.ctl.ops = postRecv (worldOf r) (bufH R) (stageH R) R.chunk s :: ops) :
    n.run plus (worldOf r) = some { n.goto ops with rq := n.rq ++ [recvWr R r s] } := by
  have hf := R.bytes_fit
  have hp := R.bytes_pos
  have hw : (worldOf r).size = R.size := rfl
  simp only [Node.run, ho, postRecv, chunkBytes_eq, hw, recvChunk_eq hs, sizeT_off, recvWr]
  by_cases h : s < R.size - 1
  · have hm : s % 2 * R.bytes + R.bytes ≤ 2 * R.bytes := by
      have : s % 2 + 1 ≤ 2 := by omega
      have := Nat.mul_le_mul_right R.bytes this
      rwa [Nat.add_mul, Nat.one_mul] at this
    have hsz : sizeT (s % 2 * R.bytes) = s % 2 * R.bytes := sizeT_of_lt (by omega)
    have hin : sgeInBounds (2 * R.bytes) R.bytes (s % 2 * R.bytes) = true :=
      Verbs.sgeInBounds_of_le hp (by omega) (by omega)
    simp [h, hsz, u32_of_lt hb, stageH, hin]
  · have hin : sgeInBounds (R.size * R.bytes) R.bytes (R.off (chunkAt r (recvDist R.size s))) = true :=
      Verbs.sgeInBounds_of_le hp (by have := R.off_add_le (chunkAt r (recvDist R.size s)); omega) hf
    simp [h, u32_of_lt hb, bufH, hin]

theorem run_post0 (hb : R.bytes < 2 ^ 32) (h : RankInv R plus x r n ⟨0, .post0⟩ got out) (hr : n.run plus (worldOf r) = some n') :
    RankInv R plus x r n' ⟨0, .send⟩ got out := by
  have hN := R.two_le
  have hs : 0 < R.steps := by simp only [Ring.steps]; omega
  rw [run_postRecv hb hs h.ops, Option.some.injEq] at hr
  subst hr
  have hp : Pc.posted R.steps ⟨0, .send⟩ = 0 + 1 := by simp only [Pc.posted]; omega
  refine ⟨Nat.zero_le _, h.todo, rfl, h.ok, ?_, h.send.congr rfl rfl rfl, h.mem.congr fun _ _ _ _ => rfl⟩
  rw [hp]
  exact h.recv.post rfl rfl rfl

theorem run_send (hb : R.bytes < 2 ^ 32) {s} (hs : s < R.steps) (h : RankInv R plus x r n ⟨s, .send⟩ got out)
    (hr : n.run plus (worldOf r) = some n') : RankInv R plus x r n' ⟨s, .pollL⟩ got out := by
  have hf := R.bytes_fit
  have ho : n.ctl.ops = fromStep R r s := h.ops
  rw [fromStep_lt hs] at ho
  have hu : u32 R.bytes = R.bytes := u32_of_lt hb
  have hin : sgeInBounds (bufH R).size (u32 R.bytes) (R.off (chunkAt r (sendDist R.size s))) = true := by
    rw [hu]
    exact Verbs.sgeInBounds_of_le R.bytes_pos
      (by have := R.off_add_le (chunkAt r (sendDist R.size s)); simp only [bufH]; omega) hf
  simp only [Node.run, ho, hin, if_true, Option.some.injEq] at hr
  subst hr
  refine ⟨hs, h.todo, rfl, h.ok, h.recv.congr rfl rfl rfl, ?_, h.mem.congr fun _ _ _ _ => rfl⟩
  refine h.send.post ?_ rfl rfl
  rw [hu]
  rfl

theorem run_pollL {s} (hs : s < R.steps) (h : RankInv R plus x r n ⟨s, .pollL⟩ got out)
    (hr : n.run plus (worldOf r) = some n') : ∃ p', RankInv R plus x r n' p' got out := by
  have ho : n.ctl.ops = .pollLeft :: afterPollL R r s := h.ops
  simp only [Node.run, ho] at hr
  split at hr
  · cases hr
  next wc q hq =>
  cases hr
  obtain ⟨-, -, hrecv⟩ := h.recv.poll { n.goto (afterPollL R r s) with leftCq := q } hq rfl rfl rfl
  by_cases hs' : s + 1 < R.steps
  · exact ⟨⟨s, .post⟩, hs', h.todo, rfl, h.ok, hrecv, h.send.congr rfl rfl rfl, h.mem.congr fun _ _ _ _ => rfl⟩
  · -- The last round posts no further receive.
    have hp : Pc.posted R.steps ⟨s, .pollR⟩ = Pc.posted R.steps ⟨s, .pollL⟩ := by
      simp only [Pc.posted]; omega
    refine ⟨⟨s, .pollR⟩, hs, h.todo, ?_, h.ok, by rw [hp]; exact hrecv, h.send.congr rfl rfl rfl,
      h.mem.congr fun _ _ _ _ => rfl⟩
    simp [Node.goto, opsAt, afterPollL, hs']

theorem run_post (hb : R.bytes < 2 ^ 32) {s} (hs : s + 1 < R.steps) (h : RankInv R plus x r n ⟨s, .post⟩ got out)
    (hr : n.run plus (worldOf r) = some n') : RankInv R plus x r n' ⟨s, .pollR⟩ got out := by
  have ho : n.ctl.ops = afterPollL R r s := h.ops
  rw [afterPollL, if_pos hs] at ho
  rw [run_postRecv hb hs ho, Option.some.injEq] at hr
  subst hr
  have h1 : Pc.posted R.steps ⟨s, .post⟩ = s + 1 := by simp only [Pc.posted]; omega
  have h2 : Pc.posted R.steps ⟨s, .pollR⟩ = s + 1 + 1 := by simp only [Pc.posted]; omega
  refine ⟨show s < R.steps by omega, h.todo, rfl, h.ok, ?_, h.send.congr rfl rfl rfl,
    h.mem.congr fun _ _ _ _ => rfl⟩
  have hrecv := h.recv
  rw [h1] at hrecv
  rw [h2]
  exact hrecv.post rfl rfl rfl

theorem run_pollR {s} (hs : s < R.steps) (h : RankInv R plus x r n ⟨s, .pollR⟩ got out)
    (hr : n.run plus (worldOf r) = some n') : ∃ p', RankInv R plus x r n' p' got out := by
  have hN := R.two_le
  have hst : R.steps = 2 * (R.size - 1) := rfl
  have ho : n.ctl.ops = .pollRight :: afterPollR R r s := h.ops
  simp only [Node.run, ho] at hr
  split at hr
  · cases hr
  next wc q hq =>
  cases hr
  have hsend := h.send.poll { n.goto (afterPollR R r s) with rightCq := q } hq rfl rfl rfl
  by_cases hs' : s < R.size - 1
  · refine ⟨⟨s, .sum 0⟩, ⟨hs', Nat.zero_le _⟩, h.todo, ?_, h.ok, h.recv.congr rfl rfl rfl, hsend,
      h.mem.congr fun t ht i hi => by simp [Pc.added]⟩
    have hw : (worldOf r).size = R.size := rfl
    have h2 : sizeT (s % 2 * R.chunk) = s % 2 * R.chunk := by
      have h1 := Nat.mul_le_mul_right R.chunk (show s % 2 ≤ 1 by omega)
      have h2 := R.two_bytes_le
      have h3 := R.bytes_fit
      simp only [Ring.bytes] at h2 h3
      exact sizeT_of_lt (by omega)
    have hrd : recvDist R.size s = s + 1 := by simp [recvDist, hs']
    simp only [Node.goto, opsAt, afterPollR, postedSum, hw, hs', if_true, recvChunk_eq hs, hrd, sizeT_elem, h2,
      List.singleton_append, Nat.add_zero, Nat.sub_zero]
  · -- An all-gather round ends here; nothing of reduce-scatter is left to add.
    have hp : Pc.posted R.steps ⟨s + 1, .send⟩ = Pc.posted R.steps ⟨s, .pollR⟩ := by
      simp only [Pc.posted]
    refine ⟨⟨s + 1, .send⟩, hs, h.todo, ?_, h.ok, by rw [hp]; exact h.recv.congr rfl rfl rfl, hsend,
      h.mem.congr fun t ht i hi => ?_⟩
    · have hw : (worldOf r).size = R.size := rfl
      simp [Node.goto, opsAt, afterPollR, postedSum, hw, hs']
    · simp only [Pc.added, decide_eq_decide]; omega

/-- The last element is added: the next round begins. -/
theorem run_sum_end {s} (h : RankInv R plus x r n ⟨s, .sum R.chunk⟩ got out)
    (hr : n.run plus (worldOf r) = some n') : RankInv R plus x r n' ⟨s + 1, .send⟩ got out := by
  have hst : R.steps = 2 * (R.size - 1) := rfl
  have hv : s < R.size - 1 ∧ _ := h.valid
  have ho := h.ops
  simp only [opsAt, Nat.sub_self] at ho
  simp only [Node.run, ho, Option.some.injEq] at hr
  subst hr
  have hp : Pc.posted R.steps ⟨s + 1, .send⟩ = Pc.posted R.steps ⟨s, .sum R.chunk⟩ := by
    simp only [Pc.posted]
  refine ⟨show s + 1 ≤ R.steps by omega, h.todo, rfl, h.ok, by rw [hp]; exact h.recv.congr rfl rfl rfl,
    h.send.congr rfl rfl rfl, h.mem.congr fun t ht i hi => ?_⟩
  rw [Bool.eq_iff_iff]
  simp [Pc.added, hi]
  omega

/-- One element is added: the chunk's own data plus what the left neighbour
sent of it. -/
theorem run_sum {s i} (hi : i < R.chunk) (h : RankInv R plus x r n ⟨s, .sum i⟩ got out)
    (hr : n.run plus (worldOf r) = some n') : RankInv R plus x r n' ⟨s, .sum (i + 1)⟩ got out := by
  have hN := R.two_le
  have hv : s < R.size - 1 ∧ _ := h.valid
  have hb : R.bytes = R.chunk * 4 := rfl
  have ho := h.ops
  simp only [opsAt, show R.chunk - i = R.chunk - (i + 1) + 1 by omega] at ho
  simp only [Node.run, ho, Option.some.injEq] at hr
  subst hr
  have hle : got ≤ s + 2 := by have := h.recv.served_le; simp only [Pc.posted] at this; omega
  have hgt : s < got := h.recv.polled_le
  have hin : (n.mem .stage).word (s % 2 * R.chunk + i) =
      ringFold plus x (chunkAt r (s + 1)) s (chunkAt r (s + 1) * R.chunk + i) := by
    apply stage_word hv.1
    intro k hk
    rw [show 4 * (s % 2 * R.chunk + i) + k = s % 2 * R.bytes + (4 * i + k) by
      simp only [hb, ← Nat.mul_assoc]; omega]
    exact h.mem.stage s hv.1 hgt _ (by omega) (by simp [Pc.added]; omega)
  refine ⟨⟨hv.1, hi⟩, h.todo, ?_, h.ok, h.recv.congr rfl rfl rfl, h.send.congr rfl rfl rfl, ?_, ?_⟩
  · simp only [Node.goto, opsAt, Nat.add_assoc]
  · refine h.mem.buf.sum hv.1 hi (fun j _ => by omega) (fun j hj => by simp [Pc.added]; omega) hin fun d j hd => ?_
    simp only [Pc.added, Bool.or_eq_true, Bool.and_eq_true, decide_eq_true_eq, beq_iff_eq]
    omega
  · intro t ht hg j hj hn
    have hn' : Pc.added ⟨s, .sum i⟩ t (j / 4) = false := by
      simp [Pc.added] at hn ⊢; omega
    have := h.mem.stage t ht hg j hj hn'
    simpa [Node.goto] using this

/-- Whatever step a rank's program takes, its invariant holds at the point it
gets to. -/
theorem run_inv (hb : R.bytes < 2 ^ 32) (h : RankInv R plus x r n p got out) (hr : n.run plus (worldOf r) = some n') :
    ∃ p', RankInv R plus x r n' p' got out := by
  obtain ⟨s, ph⟩ := p
  have hv := h.valid
  cases ph with
  | start => simp only [Pc.Valid] at hv; subst hv; exact ⟨_, run_start h hr⟩
  | post0 => simp only [Pc.Valid] at hv; subst hv; exact ⟨_, run_post0 hb h hr⟩
  | send =>
    by_cases hs : s < R.steps
    · exact ⟨_, run_send hb hs h hr⟩
    · -- The program is over.
      have hs : s = R.steps := by simp only [Pc.Valid] at hv; omega
      subst hs
      have ho : n.ctl.ops = [] := h.ops.trans fromStep_end
      have ht : n.ctl.todo = [] := h.todo
      simp [Node.run, ho, Ctl.enter, ht] at hr
  | pollL => exact run_pollL hv h hr
  | post => exact ⟨_, run_post hb hv h hr⟩
  | pollR => exact run_pollR hv h hr
  | sum i =>
    obtain ⟨-, hi⟩ := hv
    by_cases hi' : i = R.chunk
    · subst hi'; exact ⟨_, run_sum_end h hr⟩
    · exact ⟨_, run_sum (by omega) h hr⟩

end Invariant

end RdmaInfra.Collective.Posted
