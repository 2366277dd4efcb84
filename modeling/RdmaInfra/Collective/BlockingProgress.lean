/-
The blocking path never deadlocks.

Whatever calls a rank has ahead of it, they are rounds of one transfer each
way, so what it has left to do is a tail of one schedule that all ranks share
but for the parity (`call_ops`). With the bytes each link still owes its
receiver kept in step with what its sender still has to send (`Inv`), a stuck
state is one of `stagger_done`, where every rank is done.
-/
import RdmaInfra.Collective.Ring
import RdmaInfra.Collective.Stagger
import RdmaInfra.Collective.Blocking

namespace RdmaInfra.Collective

open Transport

/-- A call every rank can make: the payload is whole chunks of at least one
float and is an object of the address space. -/
def Call.Valid (N : Nat) : Call → Prop
  | .allreduce count => N ∣ count ∧ 0 < count ∧ count * sizeofFloat < 2 ^ 64
  | .barrier => True

theorem count_valid (R : Ring) : (Call.allreduce R.count).Valid R.size := by
  have hf := R.fits
  refine ⟨Nat.dvd_mul_right .., Nat.mul_pos (by have := R.two_le; omega) R.chunk_pos, ?_⟩
  rwa [Ring.count, sizeofFloat, Nat.mul_assoc]

/-- The lengths of a call's rounds. -/
def Call.lens (N : Nat) : Call → List Nat
  | .allreduce count => (List.range (2 * (N - 1))).map fun _ => count / N * sizeofFloat
  | .barrier => [1]

/-- The operation passes the checks of the TCP backend. -/
def Op.Passes : Op → Prop
  | .sendAsync h len _ off | .recvAsync h len _ off => Tcp.inBounds h.size len off = true
  | _ => True

namespace Blocking

/-! ## The program of a call -/

section Program

variable (R : Ring) (r : Fin R.size)

/-- The send of round `s`. -/
def sendOp (s : Nat) : Op := .sendAsync (bufH R) R.bytes s (R.off (chunkAt r (sendDist R.size s)))

/-- The receive of round `s`. -/
def recvOp (s : Nat) : Op :=
  if s < R.size - 1 then .recvAsync (stageH R) R.bytes s 0
  else .recvAsync (bufH R) R.bytes s (R.off (chunkAt r (recvDist R.size s)))

/-- What follows the transfers of round `s`. -/
def sumOps (s : Nat) : List Op :=
  if s < R.size - 1 then [.sum (chunkAt r (s + 1) * R.chunk) 0 R.chunk] else []

variable {R r}

theorem blockingStep_eq {s} (hs : s < R.steps) :
    blockingStep (worldOf r) (bufH R) (bufH R) (stageH R) R.chunk s =
      (if isEven r then [sendOp R r s, recvOp R r s] else [recvOp R r s, sendOp R r s]) ++
        .pollLeft :: .pollRight :: sumOps R r s := by
  have hw : (worldOf r).size = R.size := rfl
  have hr : (worldOf r).rank = r.val := rfl
  have hrd : s < R.size - 1 → recvDist R.size s = s + 1 := fun h => by simp [recvDist, h]
  simp only [blockingStep, hw, hr, chunkBytes_eq, sendChunk_eq hs, recvChunk_eq hs, sizeT_off, sizeT_elem,
    sendOp, recvOp, sumOps, isEven, beq_iff_eq]
  by_cases h : s < R.size - 1 <;> by_cases hev : r.val % 2 = 0 <;> simp [h, hev, hrd]

theorem sendOp_passes {s} : (sendOp R r s).Passes := by
  have := R.off_add_le (chunkAt r (sendDist R.size s))
  exact Tcp.inBounds_of_le R.bytes_pos (by simp only [bufH]; omega) R.bytes_fit

theorem recvOp_passes {s} : (recvOp R r s).Passes := by
  have hf := R.bytes_fit
  have h2 := R.two_bytes_le
  rw [recvOp]
  split
  · exact Tcp.inBounds_of_le R.bytes_pos (by simp only [stageH]; omega) (by simp only [stageH]; omega)
  · have := R.off_add_le (chunkAt r (recvDist R.size s))
    exact Tcp.inBounds_of_le R.bytes_pos (by simp only [bufH]; omega) R.bytes_fit

theorem transfer_recvOp {s} : (recvOp R r s).transfer = some (.recv, R.bytes) := by
  rw [recvOp]; split <;> rfl

theorem mem_blockingStep {s op} (hs : s < R.steps)
    (h : op ∈ blockingStep (worldOf r) (bufH R) (bufH R) (stageH R) R.chunk s) :
    op = sendOp R r s ∨ op = recvOp R r s ∨ op = .pollLeft ∨ op = .pollRight ∨
      op = .sum (chunkAt r (s + 1) * R.chunk) 0 R.chunk := by
  rw [blockingStep_eq hs, sumOps] at h
  split at h <;> split at h <;> simp at h <;> tauto

theorem blockingStep_passes {s op} (hs : s < R.steps)
    (h : op ∈ blockingStep (worldOf r) (bufH R) (bufH R) (stageH R) R.chunk s) : op.Passes := by
  rcases mem_blockingStep hs h with rfl | rfl | rfl | rfl | rfl
  · exact sendOp_passes
  · exact recvOp_passes
  all_goals trivial

theorem blockingStep_transfers {s} (hs : s < R.steps) :
    transfers (blockingStep (worldOf r) (bufH R) (bufH R) (stageH R) R.chunk s) =
      [(firstDir (isEven r), R.bytes), (secondDir (isEven r), R.bytes)] := by
  have hsum : transfers (.pollLeft :: .pollRight :: sumOps R r s) = [] := by
    rw [sumOps]; split <;> rfl
  have hsend : (sendOp R r s).transfer = some (.send, R.bytes) := rfl
  rw [blockingStep_eq hs, transfers_append, hsum, List.append_nil]
  cases isEven r
  · simp only [Bool.false_eq_true, if_false]
    rw [transfers_cons_some transfer_recvOp, transfers_cons_some hsend]
    rfl
  · simp only [if_true]
    rw [transfers_cons_some hsend, transfers_cons_some transfer_recvOp]
    rfl

end Program

section Calls

variable {N : Nat}

/-- A valid call is not refused, its operations pass their checks, and its
transfers are the schedule of its rounds. -/
theorem call_ops (hN : 2 ≤ N) (r : Fin N) {c : Call} (hc : c.Valid N) :
    ∃ ops, c.ops true (worldOf r) = some ops ∧ (∀ op ∈ ops, op.Passes) ∧
      transfers ops = schedule (isEven r) (c.lens N) := by
  cases c with
  | barrier =>
    have h : ¬ (worldOf r).size < 2 := by simp only [worldOf]; omega
    have hr : (worldOf r).rank = r.val := rfl
    refine ⟨_, rfl, ?_⟩
    simp only [worldBarrier, h, hr, if_false, Bool.not_true, Bool.false_eq_true, isEven]
    by_cases hev : r.val % 2 = 0
    · have hb : (r.val % 2 == 0) = true := by simpa using hev
      simp only [hev, if_true]
      exact ⟨by simp [Op.Passes, Tcp.inBounds, sizeofFloat, sizeT], rfl⟩
    · have hb : (r.val % 2 == 0) = false := by simpa using hev
      simp only [hev, hb, if_false]
      exact ⟨by simp [Op.Passes, Tcp.inBounds, sizeofFloat, sizeT], rfl⟩
  | allreduce count =>
    obtain ⟨⟨chunk, rfl⟩, hpos, hfit⟩ := hc
    let R : Ring := ⟨N, chunk, hN, Nat.pos_of_mul_pos_left hpos, by rw [← Nat.mul_assoc]; exact hfit⟩
    refine ⟨_, allreduce_ops R true r, ?_, ?_⟩
    · intro op hop
      obtain ⟨s, hs, hop⟩ := List.mem_flatMap.mp hop
      exact blockingStep_passes (R := R) (List.mem_range.mp hs) hop
    · have hdiv : N * chunk / N = chunk := Nat.mul_div_cancel_left _ (by omega)
      simp only [if_true, ringBlocking, Call.lens, schedule, hdiv, List.flatMap_map, transfers,
        List.filterMap_flatMap]
      refine List.flatMap_congr fun s hs => ?_
      exact blockingStep_transfers (R := R) (List.mem_range.mp hs)

end Calls

/-! ## The invariant -/

section Invariant

variable {N : Nat} {β : Type}

/-- The operations a rank has left, those of the calls to come included. -/
def opsLeft (w : World) (c : Ctl) : List Op := c.ops ++ c.todo.flatMap fun call => (call.ops true w).getD []

/-- The transfers a rank has left. -/
def transfersLeft (w : World) (c : Ctl) : List Transfer := transfers (opsLeft w c)

/-- The length of the transfer a rank is in; 0 outside one. -/
def currentLen : List Op → Nat
  | .sendAsync _ len _ _ :: _ | .recvAsync _ len _ _ :: _ => len
  | _ => 0

structure RankInv (all : List Nat) (r : Fin N) (n : Node β) : Prop where
  ok : n.ctl.failed = false
  calls : ∀ c ∈ n.ctl.todo, c.Valid N
  ops : ∀ op ∈ n.ctl.ops, op.Passes
  moved : n.moved ≤ currentLen n.ctl.ops
  left : transfersLeft (worldOf r) n.ctl <:+ schedule (isEven r) all

theorem transfersLeft_cons {w : World} {n : Node β} {op ops t} (ho : n.ctl.ops = op :: ops)
    (ht : op.transfer = some t) : transfersLeft w n.ctl = t :: transfersLeft w (n.goto ops).ctl := by
  rw [transfersLeft, opsLeft, ho, List.cons_append, transfers_cons_some ht]
  rfl

/-- The bytes moved in direction `d` in the transfer rank `r` is in. -/
def movedAt (d : Dir) (r : Fin N) (n : Node β) : Nat := movedIn d (transfersLeft (worldOf r) n.ctl) n.moved

/-- The bytes rank `r` has left to move in direction `d`, the transfer it is
in counted whole. -/
def volumeAt (d : Dir) (r : Fin N) (n : Node β) : Nat := volume d (transfersLeft (worldOf r) n.ctl)

/-- Every rank is at some point of the common schedule, and what the receiver
of a link has to receive is what its sender has to send and what the link
holds. -/
structure Inv (all : List Nat) (s : State N β) : Prop where
  rank : ∀ r, RankInv all r (s.node r)
  link : ∀ r, volumeAt .recv (right r) (s.node (right r)) + movedAt .send r (s.node r) =
    volumeAt .send r (s.node r) + movedAt .recv (right r) (s.node (right r)) + (s.link r).length

variable {all : List Nat} {r : Fin N} {n n' : Node β} {plus : Word β → Word β → Word β}

theorem movedAt_zero {d : Dir} (h : n.moved = 0) : movedAt d r n = 0 := by
  simp only [movedAt, h, movedIn]
  split
  · rfl
  · exact ite_self 0

/-- A step that leaves the transfers alone, outside of any. -/
theorem RankInv.skip (h : RankInv all r n) (hm : n.moved = 0) (hm' : n'.moved = 0)
    (hok : n'.ctl.failed = false) (hcalls : ∀ c ∈ n'.ctl.todo, c.Valid N) (hops : ∀ op ∈ n'.ctl.ops, op.Passes)
    (ht : transfersLeft (worldOf r) n'.ctl = transfersLeft (worldOf r) n.ctl) :
    RankInv all r n' ∧ ∀ d, volumeAt d r n' + movedAt d r n = volumeAt d r n + movedAt d r n' := by
  refine ⟨⟨hok, hcalls, hops, by omega, ht ▸ h.left⟩, fun d => ?_⟩
  rw [movedAt_zero hm, movedAt_zero hm', volumeAt, ht, volumeAt]

/-- A transfer is over. -/
theorem RankInv.finish (h : RankInv all r n) {op ops d len} (ho : n.ctl.ops = op :: ops)
    (ht : op.transfer = some (d, len)) (hm : n.moved = len) :
    RankInv all r { n.goto ops with moved := 0 } ∧
      ∀ d, volumeAt d r { n.goto ops with moved := 0 } + movedAt d r n =
        volumeAt d r n + movedAt d r { n.goto ops with moved := 0 } := by
  have hl := transfersLeft_cons (w := worldOf r) ho ht
  refine ⟨⟨h.ok, h.calls, fun op hop => h.ops op (by rw [ho]; exact List.mem_cons_of_mem _ hop),
    Nat.zero_le _, (List.suffix_cons _ _).trans (hl ▸ h.left)⟩, fun d' => ?_⟩
  rw [movedAt_zero (n := { n.goto ops with moved := 0 }) rfl, movedAt, volumeAt, volumeAt, hl, volume_cons, movedIn, hm]
  change volume d' (transfersLeft (worldOf r) (n.goto ops).ctl) + _ = _
  dsimp only
  omega

theorem RankInv.run (hN : 2 ≤ N) (h : RankInv all r n) (hr : n.run plus (worldOf r) = some n') :
    RankInv all r n' ∧ ∀ d, volumeAt d r n' + movedAt d r n = volumeAt d r n + movedAt d r n' := by
  obtain ⟨⟨todo, ops, failed⟩, mem, moved⟩ := n
  have hm := h.moved
  have hops := h.ops
  cases ops with
  | nil =>
    simp only [currentLen, Nat.le_zero] at hm
    obtain ⟨c, hc, rfl⟩ := Option.map_eq_some_iff.mp hr
    simp only [Ctl.enter] at hc
    split at hc
    · cases hc
    next call todo' =>
    obtain ⟨ops, hcall, hpass, -⟩ := call_ops hN r (h.calls call List.mem_cons_self)
    simp only [hcall, Option.some.injEq] at hc
    subst hc
    refine h.skip hm hm h.ok (fun c hc => h.calls c (List.mem_cons_of_mem _ hc)) hpass ?_
    simp [transfersLeft, opsLeft, hcall]
  | cons op ops =>
    have hpass := hops op List.mem_cons_self
    have hrest : ∀ op ∈ ops, op.Passes := fun op hop => hops op (List.mem_cons_of_mem _ hop)
    cases op with
    | sendAsync hd len id off | recvAsync hd len id off =>
      simp only [Op.Passes] at hpass
      simp only [Node.run, hpass, if_true] at hr
      split at hr
      · cases hr
      · cases hr
        simp only [currentLen] at hm
        exact h.finish rfl rfl (by simp only; omega)
    | pollLeft | pollRight =>
      simp only [currentLen, Nat.le_zero] at hm
      cases hr
      exact h.skip hm hm h.ok h.calls hrest rfl
    | sum dst src k =>
      simp only [currentLen, Nat.le_zero] at hm
      cases k with
      | zero =>
        cases hr
        exact h.skip hm hm h.ok h.calls hrest rfl
      | succ k =>
        cases hr
        refine h.skip hm hm h.ok h.calls ?_ rfl
        intro op hop
        rcases List.mem_cons.mp hop with rfl | hop
        · trivial
        · exact hrest op hop

/-- `k` more bytes of the transfer a rank is in have moved. -/
theorem RankInv.advance (h : RankInv all r n) {op ops d len k} (ho : n.ctl.ops = op :: ops)
    (ht : op.transfer = some (d, len)) (hk : n.moved + k ≤ len) (hc : n'.ctl = n.ctl) (hm : n'.moved = n.moved + k) :
    RankInv all r n' ∧
      ∀ d', volumeAt d' r n' = volumeAt d' r n ∧ movedAt d' r n' = movedAt d' r n + if d = d' then k else 0 := by
  have hlen : currentLen n'.ctl.ops = len := by
    rw [hc, ho]
    cases op <;> cases ht <;> rfl
  have hl := transfersLeft_cons (w := worldOf r) ho ht
  refine ⟨⟨hc ▸ h.ok, hc ▸ h.calls, hc ▸ h.ops, by omega, hc ▸ h.left⟩, fun d' => ⟨by rw [volumeAt, hc, volumeAt], ?_⟩⟩
  simp only [movedAt, hc, hl, movedIn, hm]
  split <;> rfl

theorem push_eq {k bs} (h : n.push k = some (n', bs)) :
    ∃ op ops len, n.ctl.ops = op :: ops ∧ op.transfer = some (.send, len) ∧ n.moved + k ≤ len ∧
      n'.ctl = n.ctl ∧ n'.moved = n.moved + k ∧ bs.length = k := by
  simp only [Node.push] at h
  split at h
  next hd len id off ops ho =>
    split at h
    next hk =>
      cases h
      exact ⟨_, _, len, ho, rfl, hk.2, rfl, rfl, Mem.length_read⟩
    · cases h
  · cases h

theorem pull_eq {bs} (h : n.pull bs = some n') :
    ∃ op ops len, n.ctl.ops = op :: ops ∧ op.transfer = some (.recv, len) ∧ n.moved + bs.length ≤ len ∧
      n'.ctl = n.ctl ∧ n'.moved = n.moved + bs.length := by
  simp only [Node.pull] at h
  split at h
  next hd len id off ops ho =>
    split at h
    next hk =>
      cases h
      exact ⟨_, _, len, ho, rfl, hk.2, rfl, rfl⟩
    · cases h
  · cases h

variable {s s' : State N β} {cap : Fin N → Nat}

/-- A step that changes rank `r` has to account for the link it sends on and the
one it receives on; the others are as they were. -/
theorem Inv.update (hN : 2 ≤ N) (hI : Inv all s) {link : Fin N → List β} (hrank : RankInv all r n)
    (hout : volumeAt .recv (right r) (s.node (right r)) + movedAt .send r n =
      volumeAt .send r n + movedAt .recv (right r) (s.node (right r)) + (link r).length)
    (hin : ∀ t, right t = r → volumeAt .recv r n + movedAt .send t (s.node t) =
      volumeAt .send t (s.node t) + movedAt .recv r n + (link t).length)
    (hother : ∀ t, t ≠ r → right t ≠ r → link t = s.link t) :
    Inv all ⟨Function.update s.node r n, link⟩ := by
  have hne := right_ne hN
  refine ⟨fun t => ?_, fun t => ?_⟩
  · by_cases ht : t = r
    · subst ht; simpa using hrank
    · simpa [ht] using hI.rank t
  · by_cases ht : t = r
    · subst ht
      simpa only [Function.update_self, Function.update_of_ne (hne t)] using hout
    · by_cases ht' : right t = r
      · subst ht'
        simpa only [Function.update_self, Function.update_of_ne ht] using hin t rfl
      · simpa only [Function.update_of_ne ht, Function.update_of_ne ht', hother t ht ht'] using hI.link t

theorem run_inv (hN : 2 ≤ N) (hI : Inv all s) (hr : (s.node r).run plus (worldOf r) = some n) :
    Inv all { s with node := Function.update s.node r n } := by
  obtain ⟨hrank, heq⟩ := (hI.rank r).run hN hr
  refine hI.update hN hrank ?_ (fun t ht => ?_) fun _ _ _ => rfl
  · have hl := hI.link r
    have := heq .send
    omega
  · subst ht
    have hl := hI.link t
    have := heq .recv
    omega

theorem push_inv (hN : 2 ≤ N) {k} (hI : Inv all s) (h : push r k s = some s') : Inv all s' := by
  have hne := right_ne hN
  simp only [push] at h
  split at h
  swap
  · cases h
  obtain ⟨⟨n, bs⟩, hn, rfl⟩ := Option.map_eq_some_iff.mp h
  obtain ⟨op, ops, len, ho, htr, hk, hc, hm, hbs⟩ := push_eq hn
  obtain ⟨hrank, heq⟩ := (hI.rank r).advance ho htr hk hc hm
  refine hI.update hN hrank ?_ (fun t ht => ?_) fun t ht _ => Function.update_of_ne ht _ _
  · have hl := hI.link r
    have := heq .send
    simp only [Function.update_self, List.length_append, hbs, if_true] at *
    omega
  · subst ht
    have hl := hI.link t
    have := heq .recv
    simp only [Function.update_of_ne (hne t).symm, reduceCtorEq, if_false] at *
    omega

theorem pull_inv (hN : 2 ≤ N) {k} (hI : Inv all s) (h : pull r k s = some s') : Inv all s' := by
  have hne := right_ne hN
  simp only [pull] at h
  split at h
  swap
  · cases h
  next hle =>
  obtain ⟨n, hn, rfl⟩ := Option.map_eq_some_iff.mp h
  obtain ⟨op, ops, len, ho, htr, hk, hc, hm⟩ := pull_eq hn
  obtain ⟨hrank, heq⟩ := (hI.rank (right r)).advance ho htr hk hc hm
  have hbs : ((s.link r).take k).length = k := List.length_take_of_le hle.2
  refine hI.update hN hrank ?_ (fun t ht => ?_) fun t _ ht => Function.update_of_ne (fun he => ht (congrArg right he)) _ _
  · have hl := hI.link (right r)
    have := heq .send
    simp only [Function.update_of_ne (hne r), reduceCtorEq, if_false] at *
    omega
  · obtain rfl : t = r := right_inj ht
    have hl := hI.link t
    have := heq .recv
    simp only [Function.update_self, List.length_drop, hbs, if_true] at *
    omega

theorem step_inv (hN : 2 ≤ N) {a} (hI : Inv all s) (h : step plus cap a s = some s') : Inv all s' := by
  cases a with
  | run r =>
    obtain ⟨n, hn, rfl⟩ := Option.map_eq_some_iff.mp h
    exact run_inv hN hI hn
  | send r k =>
    simp only [step] at h
    split at h
    · exact push_inv hN hI h
    · cases h
  | recv r k => exact pull_inv hN hI h
  | handoff r k =>
    simp only [step] at h
    split at h
    · obtain ⟨t, ht, h⟩ := Option.bind_eq_some_iff.mp h
      exact pull_inv hN (push_inv hN hI ht) h
    · cases h

theorem transfersLeft_start (hN : 2 ≤ N) (r : Fin N) {calls : List Call} (hc : ∀ c ∈ calls, c.Valid N) :
    transfersLeft (worldOf r) ⟨calls, [], false⟩ = schedule (isEven r) (calls.flatMap (Call.lens N)) := by
  induction calls with
  | nil => rfl
  | cons c calls ih =>
    obtain ⟨ops, hops, -, ht⟩ := call_ops hN r (hc c List.mem_cons_self)
    have := ih fun c h => hc c (List.mem_cons_of_mem _ h)
    simp only [transfersLeft, opsLeft, List.nil_append, schedule, List.flatMap_cons, List.flatMap_append,
      transfers_append, hops, Option.getD_some] at *
    rw [ht, this]

theorem init_inv (hN : 2 ≤ N) {calls : List Call} (hc : ∀ c ∈ calls, c.Valid N) (mem : Fin N → Area → Mem β) :
    Inv (calls.flatMap (Call.lens N)) (initState calls mem) := by
  refine ⟨fun r => ⟨rfl, hc, by simp [initState], Nat.zero_le _, ?_⟩, fun r => ?_⟩
  · exact (transfersLeft_start hN r hc).symm ▸ List.suffix_rfl
  · rw [movedAt_zero rfl, movedAt_zero rfl, volumeAt, volumeAt]
    simp only [initState, transfersLeft_start hN _ hc, volume_schedule]
    rfl

theorem reach_inv (hN : 2 ≤ N) {calls : List Call} (hc : ∀ c ∈ calls, c.Valid N) {mem : Fin N → Area → Mem β}
    (h : (system plus cap calls mem).Reach s) : Inv (calls.flatMap (Call.lens N)) s := by
  refine Lts.Reach.inv (I := Inv (calls.flatMap (Call.lens N))) ?_ ?_ h
  · rintro _ rfl; exact init_inv hN hc mem
  · intro s a s' _ hI hs; exact step_inv hN hI hs

/-! ## Progress -/

/-- A rank is in a transfer of direction `d` with bytes left to move. -/
def InTransfer (d : Dir) (n : Node β) : Prop :=
  ∃ op ops len, n.ctl.ops = op :: ops ∧ op.transfer = some (d, len) ∧ op.Passes ∧ n.moved < len

theorem InTransfer.waits {d} (h : InTransfer d n) : Waits d (transfersLeft (worldOf r) n.ctl) n.moved := by
  obtain ⟨op, ops, len, ho, ht, -, hlt⟩ := h
  exact ⟨len, _, transfersLeft_cons ho ht, hlt⟩

/-- A rank whose program has no step is done or in a transfer. -/
theorem run_blocked (hN : 2 ≤ N) (h : RankInv all r n) (hn : n.run plus (worldOf r) = none) :
    n.ctl.Finished ∨ ∃ d, InTransfer d n := by
  obtain ⟨⟨todo, ops, failed⟩, mem, moved⟩ := n
  cases ops with
  | nil =>
    cases todo with
    | nil => exact .inl ⟨rfl, rfl, h.ok⟩
    | cons c todo =>
      obtain ⟨ops, hops, -⟩ := call_ops hN r (h.calls c List.mem_cons_self)
      simp [Node.run, Ctl.enter, hops] at hn
  | cons op ops =>
    have hpass := h.ops op List.mem_cons_self
    cases op with
    | sendAsync hd len id off | recvAsync hd len id off =>
      simp only [Op.Passes] at hpass
      simp only [Node.run, hpass, if_true] at hn
      split at hn
      next hlt => exact .inr ⟨_, _, _, len, rfl, rfl, hpass, hlt⟩
      · cases hn
    | pollLeft | pollRight => cases hn
    | sum dst src k => cases k <;> cases hn

theorem transfersLeft_finished (h : n.ctl.Finished) : transfersLeft (worldOf r) n.ctl = [] := by
  rw [transfersLeft, opsLeft, h.1, h.2.1]; rfl

/-- In a state with no step, what a rank waits for is the transfer it is in. -/
theorem inTransfer_of_waits (hN : 2 ≤ N) (h : RankInv all r n) (hn : n.run plus (worldOf r) = none) {d}
    (hw : Waits d (transfersLeft (worldOf r) n.ctl) n.moved) : InTransfer d n := by
  obtain ⟨l, rest, hl, -⟩ := hw
  rcases run_blocked hN h hn with hf | ⟨d', hd'⟩
  · rw [transfersLeft_finished hf] at hl
    cases hl
  · obtain ⟨l', rest', hl', -⟩ := hd'.waits (r := r)
    rw [hl, List.cons.injEq, Prod.mk.injEq] at hl'
    rw [hl'.1.1]
    exact hd'

theorem InTransfer.push (h : InTransfer .send n) : ∃ n' b, n.push 1 = some (n', [b]) := by
  obtain ⟨op, ops, len, ho, ht, hp, hlt⟩ := h
  cases op with
  | sendAsync hd len' id off =>
    cases ht
    simp only [Op.Passes] at hp
    have hlt : n.moved + 1 ≤ len := hlt
    simp [Node.push, ho, hp, hlt, Mem.read]
  | _ => cases ht

theorem InTransfer.pull (h : InTransfer .recv n) (b : β) : ∃ n', n.pull [b] = some n' := by
  obtain ⟨op, ops, len, ho, ht, hp, hlt⟩ := h
  cases op with
  | recvAsync hd len' id off =>
    cases ht
    simp only [Op.Passes] at hp
    have hlt : n.moved + 1 ≤ len := hlt
    simp [Node.pull, ho, hp, hlt]
  | _ => cases ht

theorem pull_enabled {b bs} (hr : InTransfer .recv (s.node (right r))) (hl : s.link r = b :: bs) :
    ∃ s', Blocking.pull r 1 s = some s' := by
  obtain ⟨n, hn⟩ := hr.pull b
  simp [Blocking.pull, hl, hn]

/-- A link with a sender and a receiver in a transfer can move a byte. -/
theorem link_enabled (hN : 2 ≤ N) (hs : InTransfer .send (s.node r)) (hr : InTransfer .recv (s.node (right r)))
    (hl : s.link r = []) : ∃ a s', step plus cap a s = some s' := by
  obtain ⟨n, b, hn⟩ := hs.push
  obtain ⟨t, ht⟩ : ∃ t, Blocking.push r 1 s = some t := by simp [Blocking.push, hn]
  by_cases hc : cap r = 0
  · have hb : t.link r = [b] ∧ t.node (right r) = s.node (right r) := by
      simp only [Blocking.push, hn, Nat.zero_lt_one, if_true, Option.map_some, Option.some.injEq] at ht
      subst ht
      exact ⟨by simp [hl], Function.update_of_ne (right_ne hN r) _ _⟩
    obtain ⟨s', hs'⟩ := pull_enabled (s := t) (r := r) (by rw [hb.2]; exact hr) hb.1
    exact ⟨.handoff r 1, s', by simp [step, hc, ht, hs']⟩
  · exact ⟨.send r 1, t, by simp [step, hl, ht]; omega⟩

theorem enabled_of_inv (hN : 2 ≤ N) (hI : Inv all s) (hf : ∃ r, ¬ (s.node r).ctl.Finished) :
    ∃ a s', step plus cap a s = some s' := by
  by_contra hc
  have hst : ∀ a s', step plus cap a s ≠ some s' := fun a s' h => hc ⟨a, s', h⟩
  have hrun : ∀ r, (s.node r).run plus (worldOf r) = none := by
    intro r
    rcases hr : (s.node r).run plus (worldOf r) with _ | n
    · rfl
    · exact absurd (show step plus cap (.run r) s = some _ by simp only [step, hr, Option.map_some]; rfl) (hst _ _)
  have hblocked := fun r => run_blocked hN (hI.rank r) (hrun r)
  have hnil := stagger_done hN (fun r => (s.link r).length) (fun r => (hI.rank r).left) hI.link
    (fun r => (hblocked r).imp transfersLeft_finished fun ⟨d, hd⟩ => ⟨d, hd.waits⟩) fun r hw => by
      have hr := inTransfer_of_waits hN (hI.rank _) (hrun _) hw
      have hl : s.link r = [] := by
        rcases hl : s.link r with _ | ⟨b, bs⟩
        · rfl
        · obtain ⟨s', hs'⟩ := pull_enabled hr hl
          exact absurd hs' (hst (.recv r 1) s')
      refine ⟨by rw [hl]; rfl, fun hs => ?_⟩
      exact hc (link_enabled hN (inTransfer_of_waits hN (hI.rank _) (hrun _) hs) hr hl)
  obtain ⟨r, hr⟩ := hf
  rcases hblocked r with h | ⟨d, hd⟩
  · exact hr h
  · obtain ⟨l, rest, hl, -⟩ := hd.waits (r := r)
    rw [hnil r] at hl
    cases hl

end Invariant

/-! ## Every run ends -/

section Measure

variable {N : Nat} {β : Type}

/-- The steps an operation still takes at most. -/
def opWork : Op → Nat
  | .sendAsync _ len _ _ | .recvAsync _ len _ _ => len + 1
  | .pollLeft | .pollRight => 1
  | .sum _ _ n => n + 1

/-- The steps a rank's program still takes at most. -/
def nodeWork (r : Fin N) (n : Node β) : Nat :=
  n.ctl.todoWork opWork true (worldOf r) + (opsWork opWork n.ctl.ops - min n.moved (currentLen n.ctl.ops))

def stateWork (s : State N β) : Nat := ∑ r, nodeWork r (s.node r)

theorem run_work {plus : Word β → Word β → Word β} {r : Fin N} {n n' : Node β} (h : n.run plus (worldOf r) = some n') :
    nodeWork r n' < nodeWork r n := by
  simp only [Node.run] at h
  split at h
  case h_1 ho =>
    obtain ⟨c, hc, rfl⟩ := Option.map_eq_some_iff.mp h
    have := Ctl.enter_work opWork hc
    simp only [nodeWork, ho, opsWork_nil]
    omega
  case h_2 ho | h_3 ho =>
    split at h
    · split at h
      · cases h
      · cases h
        simp [nodeWork, ho, Node.goto, Ctl.todoWork, opWork, currentLen]
        omega
    · cases h
      simp [nodeWork, ho, Ctl.fail, Ctl.todoWork, opWork, currentLen]
      omega
  case h_4 ho | h_5 ho | h_6 ho | h_7 ho =>
    cases h
    simp [nodeWork, ho, Node.goto, Ctl.todoWork, opWork, currentLen]
    try omega

theorem advance_work {r : Fin N} {n n' : Node β} {op ops t k} (hk : 0 < k) (ho : n.ctl.ops = op :: ops)
    (ht : op.transfer = some t) (hle : n.moved + k ≤ t.2) (hc : n'.ctl = n.ctl) (hm : n'.moved = n.moved + k) :
    nodeWork r n' < nodeWork r n := by
  cases op with
  | sendAsync hd len id off | recvAsync hd len id off =>
    cases ht
    simp only [nodeWork, hc, ho, hm, currentLen, opsWork_cons, opWork] at *
    omega
  | _ => cases ht

theorem push_work {r : Fin N} {k} {s s' : State N β} (h : push r k s = some s') : stateWork s' < stateWork s := by
  simp only [push] at h
  split at h
  swap
  · cases h
  next hk =>
  obtain ⟨⟨n, bs⟩, hn, rfl⟩ := Option.map_eq_some_iff.mp h
  obtain ⟨op, ops, len, ho, ht, hle, hc, hm, -⟩ := push_eq hn
  exact sum_update_lt nodeWork (advance_work hk ho ht hle hc hm)

theorem pull_work {r : Fin N} {k} {s s' : State N β} (h : pull r k s = some s') : stateWork s' < stateWork s := by
  simp only [pull] at h
  split at h
  swap
  · cases h
  next hk =>
  obtain ⟨n, hn, rfl⟩ := Option.map_eq_some_iff.mp h
  obtain ⟨op, ops, len, ho, ht, hle, hc, hm⟩ := pull_eq hn
  exact sum_update_lt nodeWork (advance_work (by rw [List.length_take]; omega) ho ht hle hc hm)

theorem step_work {plus : Word β → Word β → Word β} {cap : Fin N → Nat} {a} {s s' : State N β}
    (h : step plus cap a s = some s') : stateWork s' < stateWork s := by
  cases a with
  | run r =>
    obtain ⟨n, hn, rfl⟩ := Option.map_eq_some_iff.mp h
    exact sum_update_lt nodeWork (run_work hn)
  | send r k =>
    simp only [step] at h
    split at h
    · exact push_work h
    · cases h
  | recv r k => exact pull_work h
  | handoff r k =>
    simp only [step] at h
    split at h
    · obtain ⟨t, ht, h⟩ := Option.bind_eq_some_iff.mp h
      exact (pull_work h).trans (push_work ht)
    · cases h

end Measure

/-- Some interleaving ends, and then every rank has returned 0 from every
call. -/
theorem exists_complete {N : Nat} {β : Type} (hN : 2 ≤ N) (plus : Word β → Word β → Word β) (cap : Fin N → Nat)
    {calls : List Call} (hc : ∀ c ∈ calls, c.Valid N) (mem : Fin N → Area → Mem β) :
    ∃ s, (system plus cap calls mem).Reach s ∧ ∀ r, (s.node r).ctl.Finished := by
  obtain ⟨s, hs, hne⟩ := Lts.Reach.exists_final (fun s a s' _ h => step_work h)
    (Lts.Reach.init (L := system plus cap calls mem) (s := initState calls mem) rfl)
  refine ⟨s, hs, fun r => ?_⟩
  by_contra hr
  exact hne (enabled_of_inv hN (reach_inv hN hc hs) ⟨r, hr⟩)

/-- For every world, capacities of the links and list of calls: no transfer is
rejected, and no reachable state with an unfinished rank is stuck. -/
theorem blocking_deadlock_free {β : Type} (N : Nat) (hN : 2 ≤ N) (plus : Word β → Word β → Word β) (cap : Fin N → Nat)
    (calls : List Call) (hc : ∀ c ∈ calls, c.Valid N) (mem : Fin N → Area → Mem β) (s : State N β)
    (h : (system plus cap calls mem).Reach s) :
    (∀ r, (s.node r).ctl.failed = false) ∧
    ((∃ r, ¬ (s.node r).ctl.Finished) → (system plus cap calls mem).Enabled s) := by
  have hI := reach_inv hN hc h
  exact ⟨fun r => (hI.rank r).ok, enabled_of_inv hN hI⟩

/-- Three ranks, two of them even and adjacent, over links that hold nothing:
the ring starts, and some run of a barrier and an all-reduce ends. -/
theorem blocking_three_ranks :
    let ring := system (N := 3) (fun a b k => a k + b k) (fun _ => 0) [.barrier, .allreduce 3] fun r _ _ => (r.val : Nat)
    ring.Enabled (initState [.barrier, .allreduce 3] fun r _ _ => r.val) ∧
      ∃ s, ring.Reach s ∧ ∀ r, (s.node r).ctl.Finished := by
  have hc : ∀ c ∈ [Call.barrier, .allreduce 3], c.Valid 3 := by simp [Call.Valid, sizeofFloat]
  refine ⟨?_, exists_complete (by decide) _ _ hc _⟩
  refine (blocking_deadlock_free 3 (by decide) _ _ _ hc _ _ (Lts.Reach.init rfl)).2 ⟨0, ?_⟩
  simp [initState, Ctl.Finished]

end Blocking
end RdmaInfra.Collective
