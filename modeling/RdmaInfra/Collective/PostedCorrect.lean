/-
All-reduce on the posted path is correct under every interleaving.

`step_inv`: every step of every rank and NIC keeps `Inv`. So no reachable
state has a rejected post, and when all ranks are done every rank holds, in
each chunk, the sum of all ranks' data in ring order (`ringSum`).

No state with an unfinished rank is stuck (`enabled_of_inv`): a rank waiting
for the message of round `s` would need its left neighbour waiting for that of
round `s - 1`, and so on down to a round before the first; a rank waiting for
its send of round `s` would need its right neighbour waiting for its own send
of round `s - 2`. With a measure that every step lowers (`step_work`, for
any list of calls), every interleaving ends with every rank done.
-/
import RdmaInfra.Collective.PostedInv

namespace RdmaInfra.Collective.Posted

section Step

variable {β : Type} {R : Ring} {plus : Word β → Word β → Word β} {x : Fin R.size → Nat → Word β}
  {s s' : State R.size β} {p : Fin R.size → Pc} {got : Fin R.size → Nat}

theorem Pc.sent_le_polledL (p : Pc) : p.sent ≤ p.polledL + 1 := by
  obtain ⟨t, ph⟩ := p
  cases ph <;> simp [Pc.sent, Pc.polledL]

theorem Pc.Valid.sent_le {p : Pc} (h : p.Valid R) : p.sent ≤ R.steps := by
  have hst : R.steps = 2 * (R.size - 1) := rfl
  obtain ⟨t, ph⟩ := p
  cases ph <;> simp only [Pc.Valid, Pc.sent] at * <;> omega

/-- A send not yet placed is that of the current round, which has not polled
it. -/
theorem Pc.at_send {p : Pc} {k} (h1 : p.polledR ≤ k) (h2 : k < p.sent) :
    p.s = k ∧ p.s ≤ p.polledL ∧ ∀ steps, p.posted steps ≤ k + 2 := by
  obtain ⟨t, ph⟩ := p
  cases ph <;> simp only [Pc.sent, Pc.polledR, Pc.polledL, Pc.posted] at * <;>
    exact ⟨by omega, by omega, fun _ => by omega⟩

/-- The source of an outstanding send still holds the message. -/
theorem source_intact (hI : ∀ r, RankInv R plus x r (s r) (p r) (got r) (got (right r))) {r w}
    (hw : w ∈ (s r).sq) {j} (hj : j < R.bytes) :
    (s r).mem w.wr.area (w.wr.off + j) = msgByte R plus x r w.wr.id j := by
  have hN := R.two_le
  have h := hI r
  obtain ⟨k, hk1, hk2, hwr⟩ := h.send.sendQueue.mem_sq hw
  have hk : k < R.steps := Nat.lt_of_lt_of_le hk2 h.valid.sent_le
  obtain ⟨hps, hpl, hpo⟩ := Pc.at_send (Nat.le_trans h.send.polled_le hk1) hk2
  have hgl : got r ≤ k + 2 := Nat.le_trans h.recv.served_le (hpo _)
  have hgg : k ≤ got r := by have := h.recv.polled_le; omega
  rw [hwr]
  simp only [sendWr, msgByte]
  rw [h.mem.buf _ (sendDist_lt hk) j hj]
  apply bufByte_send _ _ _ hk
  · intro hlt
    simp only [sendDist, hlt, if_true]
    by_cases h3 : 3 ≤ R.size
    · omega
    · -- In a world of two, the neighbour sends its second message only after
      -- polling this rank's first.
      intro hd
      have h2 : R.size = 2 := by omega
      have hl := hI (left r)
      have hout := hl.send.served_le
      rw [right_left] at hout
      have := Pc.sent_le_polledL (p (left r))
      have := hl.recv.polled_le
      have he : got (left r) = got (right r) := by rw [left_eq_right h2]
      omega
  · intro h0 hle
    apply Pc.added_of_lt
    simp only [sendDist]
    split <;> [skip; split] <;> omega
  · intro hge _
    have h1 : ¬ k < R.size - 1 := by omega
    have h2 : k ≠ R.size - 1 := by omega
    simp only [sendDist, h1, h2, if_false]
    omega

theorem MemInv.fill {r : Fin R.size} {mem : Area → Mem β} {p : Pc} {k} {data : List β}
    (h : MemInv R plus x r mem p k) (hk : k < R.steps) (hp : k < p.posted R.steps)
    (hl : data.length = R.bytes) (hd : ∀ j < R.bytes, data[j]? = some (msgByte R plus x (left r) k j)) :
    MemInv R plus x r (Function.update mem (recvWr R r k).area
      ((mem (recvWr R r k).area).write (recvWr R r k).off data)) p (k + 1) := by
  have hN := R.two_le
  have hst : R.steps = 2 * (R.size - 1) := rfl
  have hps : k ≤ p.s + 1 := by
    obtain ⟨t, ph⟩ := p
    cases ph <;> simp only [Pc.posted] at hp <;> simp only <;> omega
  by_cases hlt : k < R.size - 1
  · -- A reduce-scatter chunk lands in its stage half.
    have hw : recvWr R r k = ⟨.stage, k % 2 * R.bytes, R.bytes, k⟩ := by simp [recvWr, hlt]
    rw [hw]
    dsimp only
    refine ⟨?_, fun t ht hg j hj hn => ?_⟩
    · rw [Function.update_of_ne (by decide)]
      exact h.buf.congr (fun _ _ _ _ => by omega) fun _ _ _ _ _ => Iff.rfl
    · rw [Function.update_self]
      by_cases htk : t = k
      · subst htk
        exact Mem.write_inside (hd j hj)
      · -- The other half: the chunk before, if it has not been added up yet.
        have htp : ¬ t < p.s := fun hlt' => by rw [Pc.added_of_lt hlt'] at hn; cases hn
        have hm : t % 2 ≠ k % 2 := by omega
        rw [Mem.write_outside, h.stage t ht (by omega) j hj hn]
        have : t % 2 = 0 ∧ k % 2 = 1 ∨ t % 2 = 1 ∧ k % 2 = 0 := by omega
        rcases this with ⟨h1, h2⟩ | ⟨h1, h2⟩ <;> rw [h1, h2] <;> omega
  · -- An all-gather chunk lands in the payload.
    have hrd : recvDist R.size k = k - (R.size - 1) := by simp [recvDist, hlt]
    have hw : recvWr R r k = ⟨.buf, R.off (chunkAt r (recvDist R.size k)), R.bytes, k⟩ := by simp [recvWr, hlt]
    rw [hw]
    dsimp only
    refine ⟨?_, fun t ht hg j hj hn => ?_⟩
    · rw [Function.update_self]
      refine h.buf.deliver (a := 0) hk hlt (by omega) (fun i hi => ?_) fun d j hj => by omega
      rw [Nat.zero_add]
      exact hd i (by omega)
    · rw [Function.update_of_ne (by decide)]
      exact h.stage t ht (by omega) j hj hn

theorem recvWr_size {r : Fin R.size} (k : Nat) : (recvWr R r k).size = R.bytes := by
  simp only [recvWr]; split <;> rfl

/-- A placement moves one message over one link. -/
theorem place_inv (hI : ∀ r, RankInv R plus x r (s r) (p r) (got r) (got (right r))) {r}
    (hp : place r s = some s') : Inv R plus x s' := by
  have hne := right_ne R.two_le r
  simp only [place] at hp
  split at hp
  swap
  · cases hp
  next w sq v rq hsq hrq =>
  split at hp
  swap
  · cases hp
  next hfit =>
  simp only [Option.some.injEq, Function.update_of_ne hne] at hp
  subst hp
  have h := hI r
  have hq := hI (right r)
  obtain ⟨hwr, hlt, hsend⟩ := h.send.place { s r with sq := sq, acked := (s r).acked ++ [w.wr.id] }
    hsq rfl rfl rfl
  obtain ⟨rfl, hpo, hrecv⟩ := hq.recv.fill w.data hrq
  have hk : got (right r) < R.steps := Nat.lt_of_lt_of_le hlt h.valid.sent_le
  have hw : w ∈ (s r).sq := hsq ▸ List.mem_cons_self
  have hlen : w.data.length = R.bytes := by rw [hfit.1, hwr]; rfl
  have hdata : ∀ j < R.bytes, w.data[j]? = some (msgByte R plus x (left (right r)) (got (right r)) j) := by
    intro j hj
    have hget := List.getElem?_eq_getElem (show j < w.data.length by omega)
    rw [hget, left_right, h.send.data w hw j _ hget, hwr]
    rfl
  have hmem := hq.mem.fill hk hpo hlen hdata
  refine ⟨p, Function.update got (right r) (got (right r) + 1), fun t => ?_⟩
  by_cases ht : t = right r
  · subst ht
    rw [Function.update_self, Function.update_self, Function.update_of_ne (right_ne R.two_le _)]
    exact ⟨hq.valid, hq.todo, hq.ops, hq.ok, hrecv, hq.send.congr rfl rfl rfl, hmem⟩
  · rw [Function.update_of_ne ht, Function.update_of_ne ht]
    by_cases htr : t = r
    · subst htr
      rw [Function.update_self, Function.update_self]
      exact ⟨h.valid, h.todo, h.ops, h.ok, h.recv.congr rfl rfl rfl, hsend, h.mem⟩
    · rw [Function.update_of_ne htr, Function.update_of_ne fun he => htr (right_inj he)]
      exact hI t

/-- A step of one rank alone, its counts unchanged. -/
theorem inv_update (hI : ∀ r, RankInv R plus x r (s r) (p r) (got r) (got (right r))) {r n p'}
    (h : RankInv R plus x r n p' (got r) (got (right r))) : Inv R plus x (Function.update s r n) := by
  refine ⟨Function.update p r p', got, fun t => ?_⟩
  by_cases ht : t = r
  · subst ht; rw [Function.update_self, Function.update_self]; exact h
  · rw [Function.update_of_ne ht, Function.update_of_ne ht]; exact hI t

theorem step_inv (hb : R.bytes < 2 ^ 32) {a} (hI : Inv R plus x s) (hs : step plus a s = some s') : Inv R plus x s' := by
  obtain ⟨p, got, hI⟩ := hI
  cases a with
  | run r =>
    obtain ⟨n, hn, rfl⟩ := Option.map_eq_some_iff.mp hs
    obtain ⟨p', h'⟩ := run_inv hb (hI r) hn
    exact inv_update hI h'
  | fetch r k =>
    obtain ⟨n, hn, rfl⟩ := Option.map_eq_some_iff.mp hs
    have h := hI r
    have hsend := h.send.fetch hn fun w hw hlt => by
      obtain ⟨i, -, -, hwr⟩ := h.send.sendQueue.mem_sq hw
      exact source_intact hI hw (by rw [hwr] at hlt; exact hlt)
    obtain ⟨w, -, -, rfl⟩ := Node.fetch_cases hn
    exact inv_update hI ⟨h.valid, h.todo, h.ops, h.ok, h.recv.congr rfl rfl rfl, hsend, h.mem⟩
  | place r => exact place_inv hI hs
  | recvDone r =>
    obtain ⟨n, hn, rfl⟩ := Option.map_eq_some_iff.mp hs
    have h := hI r
    have hrecv := h.recv.done hn
    obtain ⟨id, ids, -, rfl⟩ := Node.recvDone_cases hn
    exact inv_update hI ⟨h.valid, h.todo, h.ops, h.ok, hrecv, h.send.congr rfl rfl rfl, h.mem⟩
  | sendDone r =>
    obtain ⟨n, hn, rfl⟩ := Option.map_eq_some_iff.mp hs
    have h := hI r
    have hsend := h.send.done hn
    obtain ⟨id, ids, -, rfl⟩ := Node.sendDone_cases hn
    exact inv_update hI ⟨h.valid, h.todo, h.ops, h.ok, h.recv.congr rfl rfl rfl, hsend, h.mem⟩

theorem init_inv (mem : Fin R.size → Area → Mem β) :
    Inv R plus (fun r => (mem r .buf).word) (initState [.allreduce R.count] mem) := by
  refine ⟨fun _ => ⟨0, .start⟩, fun _ => 0, fun r => ⟨rfl, rfl, rfl, rfl, ⟨le_rfl, le_rfl, rfl, rfl⟩,
    ⟨⟨le_rfl, le_rfl, rfl, rfl⟩, ?_, ?_⟩, ?_, fun t ht hg => ?_⟩⟩
  · simp [initState]
  · simp [initState]
  · exact Holds.own (fun _ _ => Nat.not_lt_zero _) fun _ _ => by simp [Pc.added]
  · exact absurd hg (Nat.not_lt_zero _)

/-! ## Progress -/

/-- A rank whose program has no step is done, or waits for a completion. -/
theorem run_blocked (hb : R.bytes < 2 ^ 32) {r n p got out} (h : RankInv R plus x r n p got out) (hn : n.run plus (worldOf r) = none) :
    p = ⟨R.steps, .send⟩ ∨ (p = ⟨p.s, .pollL⟩ ∧ n.leftCq = []) ∨ (p = ⟨p.s, .pollR⟩ ∧ n.rightCq = []) := by
  have hN := R.two_le
  obtain ⟨t, ph⟩ := p
  have hv := h.valid
  have ho := h.ops
  cases ph with
  | start =>
    have ht : n.ctl.todo = [.allreduce R.count] := h.todo
    simp [Node.run, ho, opsAt, Ctl.enter, ht, call_ops] at hn
  | post0 =>
    have hs : 0 < R.steps := by simp only [Ring.steps]; omega
    rw [run_postRecv hb hs ho] at hn
    cases hn
  | send =>
    by_cases hs : t < R.steps
    · simp only [opsAt, fromStep_lt hs] at ho
      simp only [Node.run, ho] at hn
      split at hn <;> cases hn
    · have : t = R.steps := by simp only [Pc.Valid] at hv; omega
      exact .inl (by rw [this])
  | pollL =>
    simp only [opsAt] at ho
    simp only [Node.run, ho] at hn
    split at hn
    · exact .inr (.inl ⟨rfl, ‹_›⟩)
    · cases hn
  | post =>
    simp only [Pc.Valid] at hv
    simp only [opsAt, afterPollL, hv, if_true, List.singleton_append] at ho
    rw [run_postRecv hb hv ho] at hn
    cases hn
  | pollR =>
    simp only [opsAt] at ho
    simp only [Node.run, ho] at hn
    split at hn
    · exact .inr (.inr ⟨rfl, ‹_›⟩)
    · cases hn
  | sum i =>
    simp only [opsAt] at ho
    obtain hz | ⟨m, hm⟩ : R.chunk - i = 0 ∨ ∃ m, R.chunk - i = m + 1 := by
      cases R.chunk - i <;> simp
    · simp [Node.run, ho, hz] at hn
    · simp [Node.run, ho, hm] at hn

/-- No step of any kind is possible. -/
def Stuck (plus : Word β → Word β → Word β) (s : State R.size β) : Prop := ∀ a, step plus a s = none

theorem Stuck.run (h : Stuck plus s) (r) : (s r).run plus (worldOf r) = none := by
  simpa [step] using h (.run r)

theorem Stuck.arrived (h : Stuck plus s) (r) : (s r).arrived = [] := by
  have := h (.recvDone r)
  simp only [step, Option.map_eq_none_iff, Node.recvDone] at this
  split at this
  · assumption
  · cases this

theorem Stuck.acked (h : Stuck plus s) (r) : (s r).acked = [] := by
  have := h (.sendDone r)
  simp only [step, Option.map_eq_none_iff, Node.sendDone] at this
  split at this
  · assumption
  · cases this

/-- Over a link with nothing left to do, either nothing is sent or nothing is
posted. -/
theorem Stuck.link (h : Stuck plus s) (hI : ∀ r, RankInv R plus x r (s r) (p r) (got r) (got (right r))) (r) :
    got (right r) = (p r).sent ∨ got (right r) = (p (right r)).posted R.steps := by
  have hs := (hI r).send
  have hq := (hI (right r)).recv
  have hpl : place r s = none := h (.place r)
  cases hsq : (s r).sq with
  | nil => exact .inl (hs.sendQueue.out_eq_sent hsq)
  | cons w sq =>
  cases hrq : (s (right r)).rq with
  | nil => exact .inr (hq.got_eq_posted hrq)
  | cons v rq =>
    -- Both: the message has all its bytes and fits, so it could be placed.
    exfalso
    have hw : w ∈ (s r).sq := hsq ▸ List.mem_cons_self
    have hfull : w.data.length = w.wr.size := by
      have hle := hs.fetched w hw
      have hf : (s r).fetch 0 = none := by simpa [step] using h (.fetch r 0)
      simp only [Node.fetch, hsq, List.getElem?_cons_zero] at hf
      split at hf
      · cases hf
      · omega
    obtain ⟨k, -, -, hwr⟩ := hs.sendQueue.mem_sq hw
    obtain ⟨rfl, -, -⟩ := hq.fill w.data hrq
    have hfit : w.wr.size ≤ (recvWr R (right r) (got (right r))).size := by rw [recvWr_size, hwr]; exact le_rfl
    simp [place, hsq, hrq, hfull, hfit] at hpl

/-- No rank waits for a message. -/
theorem Stuck.not_pollL (hb : R.bytes < 2 ^ 32) (h : Stuck plus s) (hI : ∀ r, RankInv R plus x r (s r) (p r) (got r) (got (right r))) :
    ∀ t r, p r ≠ ⟨t, .pollL⟩ := by
  intro t
  induction t using Nat.strongRecOn with
  | _ t ih =>
  intro r hp
  have hr := hI r
  have hv : t < R.steps := by have := hr.valid; rwa [hp] at this
  rcases run_blocked hb hr (h.run r) with he | ⟨-, hcq⟩ | ⟨he, -⟩
  · rw [hp] at he; cases he
  swap
  · rw [hp] at he; cases he
  have hgot := hr.recv.got_eq hcq (h.arrived r)
  have hlink := h.link hI (left r)
  rw [right_left] at hlink
  simp only [hp, Pc.polledL, Pc.posted] at hgot hlink
  -- The receive is posted, so the left neighbour has sent nothing for it.
  have hsent : (p (left r)).sent = t := by omega
  have hl := hI (left r)
  rw [right_left] at hl
  rcases run_blocked hb hl (h.run _) with he | ⟨he, -⟩ | ⟨he, hcq'⟩
  · rw [he] at hsent; simp only [Pc.sent] at hsent; omega
  · refine ih (p (left r)).s ?_ (left r) he
    rw [he] at hsent; simp only [Pc.sent] at hsent; omega
  · have hout := hl.send.sendQueue.out_eq hcq' (h.acked _)
    rw [he] at hsent hout
    simp only [Pc.sent, Pc.polledR] at hsent hout
    omega

/-- No rank waits for a send to complete. -/
theorem Stuck.not_pollR (hb : R.bytes < 2 ^ 32) (h : Stuck plus s) (hI : ∀ r, RankInv R plus x r (s r) (p r) (got r) (got (right r))) :
    ∀ t r, p r ≠ ⟨t, .pollR⟩ := by
  intro t
  induction t using Nat.strongRecOn with
  | _ t ih =>
  intro r hp
  have hr := hI r
  have hv : t < R.steps := by have := hr.valid; rwa [hp] at this
  rcases run_blocked hb hr (h.run r) with he | ⟨he, -⟩ | ⟨-, hcq⟩
  · rw [hp] at he; cases he
  · rw [hp] at he; cases he
  have hout := hr.send.sendQueue.out_eq hcq (h.acked r)
  have hlink := h.link hI r
  simp only [hp, Pc.polledR, Pc.sent] at hout hlink
  -- The send is posted, so the right neighbour has no receive for it.
  have hpost : (p (right r)).posted R.steps = t := by omega
  rcases run_blocked hb (hI (right r)) (h.run _) with he | ⟨he, -⟩ | ⟨he, -⟩
  · rw [he] at hpost; simp only [Pc.posted] at hpost; omega
  · exact h.not_pollL hb hI _ _ he
  · refine ih (p (right r)).s ?_ (right r) he
    rw [he] at hpost; simp only [Pc.posted] at hpost; omega

/-- Where nothing can happen, every rank is done. -/
theorem Stuck.done (hb : R.bytes < 2 ^ 32) (h : Stuck plus s) (hI : ∀ r, RankInv R plus x r (s r) (p r) (got r) (got (right r))) (r) :
    p r = ⟨R.steps, .send⟩ := by
  rcases run_blocked hb (hI r) (h.run r) with he | ⟨he, -⟩ | ⟨he, -⟩
  · exact he
  · exact absurd he (h.not_pollL hb hI _ r)
  · exact absurd he (h.not_pollR hb hI _ r)

theorem RankInv.finished {r n got out} (h : RankInv R plus x r n ⟨R.steps, .send⟩ got out) : n.ctl.Finished :=
  ⟨h.todo, h.ops.trans fromStep_end, h.ok⟩

theorem enabled_of_inv (hb : R.bytes < 2 ^ 32) (hI : Inv R plus x s) (hf : ∃ r, ¬ (s r).ctl.Finished) : ∃ a s', step plus a s = some s' := by
  by_contra hc
  have hst : Stuck plus s := fun a => by
    cases ha : step plus a s with
    | none => rfl
    | some s' => exact absurd ⟨a, s', ha⟩ hc
  obtain ⟨p, got, hI⟩ := hI
  obtain ⟨r, hr⟩ := hf
  have h := hI r
  rw [hst.done hb hI r] at h
  exact hr h.finished

/-! ## The result -/

/-- A finished rank is past its last round. -/
theorem RankInv.pc_of_finished {r n p got out} (h : RankInv R plus x r n p got out) (hf : n.ctl.Finished) :
    p = ⟨R.steps, .send⟩ := by
  obtain ⟨t, ph⟩ := p
  have ho := h.ops.symm.trans hf.2.1
  have hv := h.valid
  cases ph with
  | start => have := h.todo.symm.trans hf.1; simp at this
  | send =>
    by_cases hs : t < R.steps
    · simp [opsAt, fromStep_lt hs] at ho
    · simp only [Pc.Valid] at hv; rw [show t = R.steps by omega]
  | post => simp [opsAt, afterPollL] at ho
  | _ => simp [opsAt] at ho

/-- A rank that is done holds the final sum in every chunk. -/
theorem RankInv.result {r n got out} (h : RankInv R plus x r n ⟨R.steps, .send⟩ got out) (c : Fin R.size) {j}
    (hj : j < R.bytes) : n.mem .buf (R.off c + j) = byteOf (ringSum plus x c) (R.off c + j) := by
  have hst : R.steps = 2 * (R.size - 1) := rfl
  have hg : R.steps ≤ got := h.recv.polled_le
  exact h.mem.buf.result (fun d _ _ _ => by omega) (fun d _ _ _ _ => Pc.added_of_lt (by simp only; omega)) c hj

theorem reach_inv (hb : R.bytes < 2 ^ 32) {mem : Fin R.size → Area → Mem β} (h : (system plus [.allreduce R.count] mem).Reach s) :
    Inv R plus (fun r => (mem r .buf).word) s := by
  refine Lts.Reach.inv (I := Inv R plus fun r => (mem r .buf).word) ?_ ?_ h
  · rintro _ rfl; exact init_inv mem
  · intro s a s' _ hI hs; exact step_inv hb hI hs

/-- Whatever the interleaving: no post is rejected, no state with an
unfinished rank is stuck, and once all ranks are done each holds, at every
element of every chunk `c`, rank `c`'s datum with those of ranks `c + 1`, ...,
`c + N - 1` added on in that order. -/
theorem ringPosted_correct (R : Ring) (hb : R.bytes < 2 ^ 32) (plus : Word β → Word β → Word β) (mem : Fin R.size → Area → Mem β)
    (s : State R.size β) (h : (system plus [.allreduce R.count] mem).Reach s) :
    (∀ r, (s r).ctl.failed = false) ∧
    ((∃ r, ¬ (s r).ctl.Finished) → (system plus [.allreduce R.count] mem).Enabled s) ∧
    ((∀ r, (s r).ctl.Finished) → ∀ (r c : Fin R.size), ∀ i < R.chunk,
      ((s r).mem .buf).word (c * R.chunk + i) =
        ringSum plus (fun r => (mem r .buf).word) c (c * R.chunk + i)) := by
  have hI := reach_inv hb h
  refine ⟨fun r => ?_, enabled_of_inv hb hI, fun hf r c i hi => ?_⟩
  · obtain ⟨p, got, hI⟩ := hI
    exact (hI r).ok
  · obtain ⟨p, got, hI⟩ := hI
    have hr := hI r
    rw [hr.pc_of_finished (hf r)] at hr
    apply Mem.word_eq
    intro k hk
    have hoff : 4 * (c * R.chunk + i) + k = R.off c + (4 * i + k) := by
      simp only [Ring.off, Ring.bytes, ← Nat.mul_assoc]; omega
    rw [hoff]
    exact hr.result c (by simp only [Ring.bytes]; omega)

end Step

/-! ## Every run ends -/

section Measure

variable {N : Nat} {β : Type}

/-- What is still to happen on behalf of an operation. -/
def opWork : Op → Nat
  | .sendAsync _ len _ _ => u32 len + 3
  | .recvAsync _ _ _ _ => 3
  | .pollLeft | .pollRight => 1
  | .sum _ _ n => n + 1

/-- Steps still to come for a rank: its program's, and those of the requests
it has posted. -/
def nodeWork (r : Fin N) (n : Node β) : Nat :=
  n.ctl.todoWork opWork false (worldOf r) + opsWork opWork n.ctl.ops +
    (n.sq.map fun v => v.wr.size - v.data.length + 2).sum + 2 * n.rq.length + n.arrived.length + n.acked.length

def stateWork (s : State N β) : Nat := ∑ r, nodeWork r (s r)

theorem run_work {plus : Word β → Word β → Word β} {r : Fin N} {n n' : Node β} (h : n.run plus (worldOf r) = some n') :
    nodeWork r n' < nodeWork r n := by
  simp only [Node.run] at h
  split at h
  case h_1 ho =>
    obtain ⟨c, hc, rfl⟩ := Option.map_eq_some_iff.mp h
    have := Ctl.enter_work opWork hc
    simp only [nodeWork, ho, opsWork_nil]
    omega
  case h_2 ho | h_3 ho =>
    split at h
    · cases h
      simp [nodeWork, ho, Node.goto, Ctl.todoWork, opWork]
      omega
    · cases h
      simp [nodeWork, ho, opWork, Ctl.todoWork, Ctl.fail]
  case h_4 ho | h_5 ho =>
    split at h <;> cases h
    simp [nodeWork, ho, Node.goto, Ctl.todoWork, opWork]
  case h_6 ho | h_7 ho =>
    cases h
    simp [nodeWork, ho, Node.goto, Ctl.todoWork, opWork]

theorem fetch_work {r : Fin N} {n n' : Node β} {k} (h : n.fetch k = some n') : nodeWork r n' < nodeWork r n := by
  obtain ⟨v, hk, hlt, rfl⟩ := Node.fetch_cases h
  obtain ⟨hkl, hkv⟩ := List.getElem?_eq_some_iff.mp hk
  suffices hs : ∀ (l : List (SendWr β)) (k : Nat) (v' : SendWr β) (hk : k < l.length),
      (v'.wr.size - v'.data.length + 2) < (l[k].wr.size - l[k].data.length + 2) →
      ((l.set k v').map fun v => v.wr.size - v.data.length + 2).sum <
        (l.map fun v => v.wr.size - v.data.length + 2).sum by
    have := hs n.sq k ⟨v.wr, v.data ++ [n.mem v.wr.area (v.wr.off + v.data.length)]⟩ hkl
      (by rw [hkv]; simp; omega)
    simp only [nodeWork]
    omega
  intro l
  induction l with
  | nil => intro k v' hk; simp at hk
  | cons a l ih =>
    intro k v' hk hlt
    cases k with
    | zero => simp only [List.set_cons_zero, List.map_cons, List.sum_cons, List.getElem_cons_zero] at *; omega
    | succ k =>
      have := ih k v' (by simpa using hk) (by simpa using hlt)
      simp only [List.set_cons_succ, List.map_cons, List.sum_cons]
      omega

/-- Every step of every rank and NIC brings the end closer. -/
theorem step_work (hN : 2 ≤ N) {plus : Word β → Word β → Word β} {a : Action N} {s s' : State N β}
    (h : step plus a s = some s') : stateWork s' < stateWork s := by
  cases a with
  | run r =>
    obtain ⟨n, hn, rfl⟩ := Option.map_eq_some_iff.mp h
    exact sum_update_lt nodeWork (run_work hn)
  | fetch r k =>
    obtain ⟨n, hn, rfl⟩ := Option.map_eq_some_iff.mp h
    exact sum_update_lt nodeWork (fetch_work hn)
  | place r =>
    have hne := right_ne hN r
    simp only [step, place] at h
    split at h
    swap
    · cases h
    next w sq v rq hsq hrq =>
    split at h
    swap
    · cases h
    simp only [Option.some.injEq, Function.update_of_ne hne] at h
    subst h
    refine (sum_update_lt nodeWork ?_).trans (sum_update_lt nodeWork ?_)
    · rw [Function.update_of_ne hne]
      simp [nodeWork, Node.fill, hrq]
      omega
    · simp [nodeWork, hsq]
      omega
  | recvDone r =>
    obtain ⟨n, hn, rfl⟩ := Option.map_eq_some_iff.mp h
    refine sum_update_lt nodeWork ?_
    obtain ⟨id, ids, ha, rfl⟩ := Node.recvDone_cases hn
    simp [nodeWork, ha]
  | sendDone r =>
    obtain ⟨n, hn, rfl⟩ := Option.map_eq_some_iff.mp h
    refine sum_update_lt nodeWork ?_
    obtain ⟨id, ids, ha, rfl⟩ := Node.sendDone_cases hn
    simp [nodeWork, ha]

end Measure

/-- Some interleaving of an all-reduce ends, and then every rank has returned
0. -/
theorem exists_complete {β : Type} (R : Ring) (hb : R.bytes < 2 ^ 32) (plus : Word β → Word β → Word β)
    (mem : Fin R.size → Area → Mem β) :
    ∃ s, (system plus [.allreduce R.count] mem).Reach s ∧ ∀ r, (s r).ctl.Finished := by
  obtain ⟨s, hs, hne⟩ := Lts.Reach.exists_final (fun s a s' _ h => step_work R.two_le h)
    (Lts.Reach.init (L := system plus [.allreduce R.count] mem) (s := initState [.allreduce R.count] mem) rfl)
  refine ⟨s, hs, fun r => ?_⟩
  by_contra hr
  exact hne (enabled_of_inv hb (reach_inv hb hs) ⟨r, hr⟩)

/-- Two ranks with one float each, every byte of rank `r`'s being `r + 1`,
added bytewise: both end with 3 everywhere. -/
theorem ringPosted_two_ranks :
    ∃ s, (system (N := 2) (fun a b k => a k + b k) [.allreduce 2] fun r _ _ => (r.val : Nat) + 1).Reach s ∧
      (∀ r, (s r).ctl.Finished) ∧ ∀ r : Fin 2, ((s r).mem .buf).word 0 = fun _ => 3 := by
  let R : Ring := ⟨2, 1, by decide, by decide, by decide⟩
  obtain ⟨s, hs, hf⟩ := exists_complete R (by decide) (fun a b k => a k + b k) fun r _ _ => (r.val : Nat) + 1
  refine ⟨s, hs, hf, fun r => ?_⟩
  exact (ringPosted_correct R (by decide) _ _ s hs).2.2 hf r ⟨0, by decide⟩ 0 (by decide)

end RdmaInfra.Collective.Posted
