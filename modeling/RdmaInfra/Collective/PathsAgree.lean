/-
The two paths of all-reduce compute the same.

Every step of every rank and socket keeps `Blocking.Val`, so a rank that has
finished on the blocking path holds the sum in ring order, byte for byte what
`Posted.RankInv.result` says of the posted path. Both are stated against
`ringSum`, which knows nothing of schedules, parities or capacities.
-/
import RdmaInfra.Collective.BlockingInv
import RdmaInfra.Collective.PostedCorrect
import RdmaInfra.Collective.Report

namespace RdmaInfra.Collective.Blocking

section Step

variable {β : Type} {R : Ring} {plus : Word β → Word β → Word β} {x : Fin R.size → Nat → Word β}
  {s s' : State R.size β} {r : Fin R.size} {cap : Fin R.size → Nat}

theorem run_step_val {n} (hI : Val R plus x s) (hr : (s.node r).run plus (worldOf r) = some n) :
    Val R plus x { s with node := Function.update s.node r n } := by
  obtain ⟨p, hI, hL⟩ := hI
  obtain ⟨p', hn, ht⟩ := run_val (hI r) hr
  refine ⟨Function.update p r p', fun t => ?_, fun t => ?_⟩
  · by_cases hne : t = r
    · subst hne; simpa using hn
    · simpa [hne] using hI t
  · have hsame : ∀ q d, (Function.update p r p' q).total R (isEven q) d (Function.update s.node r n q).moved =
        (p q).total R (isEven q) d (s.node q).moved := by
      intro q d
      by_cases hq : q = r
      · subst hq; rw [Function.update_self, Function.update_self]; exact ht d
      · rw [Function.update_of_ne hq, Function.update_of_ne hq]
    simp only [hsame]
    exact hL t

theorem push_val {k} (hI : Val R plus x s) (h : push r k s = some s') : Val R plus x s' := by
  have hne := right_ne R.two_le
  simp only [push] at h
  split at h
  swap
  · cases h
  obtain ⟨⟨n, bs⟩, hn, rfl⟩ := Option.map_eq_some_iff.mp h
  obtain ⟨p, hI, hL⟩ := hI
  obtain ⟨hval, hrecv, hsend, hbs⟩ := (hI r).push hn
  refine ⟨p, fun t => ?_, fun t => ?_⟩
  · by_cases ht : t = r
    · subst ht; simpa using hval
    · simpa [ht] using hI t
  · by_cases ht : t = r
    · subst ht
      obtain ⟨hle, hl⟩ := hL t
      simp only [Function.update_self, Function.update_of_ne (hne t)]
      rw [hsend]
      refine ⟨by omega, ?_⟩
      rw [hl, hbs, ← List.map_append, span_append hle (by omega)]
    · have hl := hL t
      by_cases ht' : right t = r
      · subst ht'
        simpa only [Function.update_self, Function.update_of_ne ht, hrecv] using hl
      · simpa only [Function.update_of_ne ht, Function.update_of_ne ht'] using hl

theorem pull_val {k} (hI : Val R plus x s) (h : pull r k s = some s') : Val R plus x s' := by
  have hne := right_ne R.two_le
  simp only [pull] at h
  split at h
  swap
  · cases h
  next hk =>
  obtain ⟨n, hn, rfl⟩ := Option.map_eq_some_iff.mp h
  obtain ⟨p, hI, hL⟩ := hI
  obtain ⟨hle, hl⟩ := hL r
  have hlen : ((s.link r).take k).length = k := List.length_take_of_le hk.2
  have hkle : (p (right r)).total R (isEven (right r)) .recv (s.node (right r)).moved + k ≤
      (p r).total R (isEven r) .send (s.node r).moved := by
    have := hk.2
    rw [hl, List.length_map, length_span] at this
    omega
  obtain ⟨hval, hsend, hrecv⟩ := (hI (right r)).pull hn (by
    rw [hlen, left_right, hl, ← List.map_take, take_span hkle])
  rw [hlen] at hrecv
  refine ⟨p, fun t => ?_, fun t => ?_⟩
  · by_cases ht : t = right r
    · subst ht; simpa using hval
    · simpa [ht] using hI t
  · by_cases ht : t = r
    · subst ht
      simp only [Function.update_self, Function.update_of_ne (hne t).symm]
      rw [hrecv]
      exact ⟨hkle, by rw [hl, ← List.map_drop, drop_span hkle]⟩
    · have hlt := hL t
      have hne' : right t ≠ right r := fun he => ht (right_inj he)
      by_cases ht' : t = right r
      · subst ht'
        simpa only [Function.update_self, Function.update_of_ne ht, Function.update_of_ne (hne _), hsend] using hlt
      · simpa only [Function.update_of_ne ht, Function.update_of_ne ht', Function.update_of_ne hne'] using hlt

theorem step_val {a} (hI : Val R plus x s) (h : step plus cap a s = some s') : Val R plus x s' := by
  cases a with
  | run r =>
    obtain ⟨n, hn, rfl⟩ := Option.map_eq_some_iff.mp h
    exact run_step_val hI hn
  | send r k =>
    simp only [step] at h
    split at h
    · exact push_val hI h
    · cases h
  | recv r k => exact pull_val hI h
  | handoff r k =>
    simp only [step] at h
    split at h
    · obtain ⟨t, ht, h⟩ := Option.bind_eq_some_iff.mp h
      exact pull_val (push_val hI ht) h
    · cases h

theorem init_val (mem : Fin R.size → Area → Mem β) :
    Val R plus (fun r => (mem r .buf).word) (initState [.allreduce R.count] mem) := by
  refine ⟨fun _ => ⟨0, .start⟩, fun r => ⟨rfl, rfl, rfl, rfl, Nat.zero_le _, ?_, ?_⟩, fun r => ⟨le_rfl, ?_⟩⟩
  · exact Holds.own (fun _ _ => Nat.not_lt_zero _) fun _ _ => by simp [Pc.added]
  · intro t _ j _ hg
    exact absurd hg (Nat.not_lt_zero _)
  · simp [initState, Pc.total, span_self]

/-- A finished rank is past its last round. -/
theorem RankVal.pc_of_finished {n : Node β} {p} (h : RankVal R plus x r n p) (hf : n.ctl.Finished) :
    p = ⟨R.steps, .first⟩ := by
  obtain ⟨t, ph⟩ := p
  have ho := h.ops.symm.trans hf.2.1
  have hv := h.valid
  cases ph with
  | start => have := h.todo.symm.trans hf.1; simp at this
  | first =>
    by_cases hs : t < R.steps
    · simp [opsAt, fromStep_lt hs] at ho
    · simp only [Pc.Valid] at hv; rw [show t = R.steps by omega]
  | _ => simp [opsAt] at ho

/-- A finished rank holds the final sum in every chunk. -/
theorem result {mem : Fin R.size → Area → Mem β} (h : (system plus cap [.allreduce R.count] mem).Reach s)
    (hf : (s.node r).ctl.Finished) (c : Fin R.size) {j} (hj : j < R.bytes) :
    (s.node r).mem .buf (R.off c + j) = byteOf (ringSum plus (fun r => (mem r .buf).word) c) (R.off c + j) := by
  have hst : R.steps = 2 * (R.size - 1) := rfl
  have hI : Val R plus (fun r => (mem r .buf).word) s := by
    refine Lts.Reach.inv (I := Val R plus fun r => (mem r .buf).word) ?_ ?_ h
    · rintro _ rfl; exact init_val mem
    · intro s a s' _ hI hs; exact step_val hI hs
  obtain ⟨p, hI, -⟩ := hI
  have hr := hI r
  have hp := hr.pc_of_finished hf
  rw [hp] at hr
  have hmem := hr.mem.buf
  refine hmem.result (fun d hd j hj => ?_) (fun d _ hd j hj => Pc.added_of_lt (by simp only; omega)) c hj
  have := (stream_lt_iff (a := R.size - 1 + d) (s := R.steps) (m := 0) hj (Nat.zero_le _)).mpr (.inl (by omega))
  simp only [Pc.total]
  omega

end Step

end RdmaInfra.Collective.Blocking

namespace RdmaInfra.Collective

/-- Every byte of the payload is in some chunk. -/
theorem Ring.exists_off (R : Ring) {a : Nat} (h : a < R.size * R.bytes) :
    ∃ (c : Fin R.size) (j : Nat), j < R.bytes ∧ a = R.off c + j :=
  ⟨⟨a / R.bytes, Nat.div_lt_of_lt_mul (Nat.mul_comm .. ▸ h)⟩, a % R.bytes, Nat.mod_lt _ R.bytes_pos,
    (Nat.div_add_mod' a R.bytes).symm⟩

/-- What `allreduce_bench` accepts for two ranks or more is an all-reduce that
both paths have complete runs of, from any payloads. -/
theorem exists_runs {β : Type} {argv : List String} {cfg : BenchConfig} (h : configParse argv = .ok cfg)
    (hw : 2 ≤ cfg.world) (plus : Word β → Word β → Word β) :
    ∃ R : Ring, (R.size : Int) = cfg.world ∧ (R.count : Int) = cfg.count ∧ R.bytes < 2 ^ 32 ∧
      ∀ (cap : Fin R.size → Nat) (mem : Fin R.size → Area → Mem β),
        (∃ s, (Blocking.system plus cap [.allreduce R.count] mem).Reach s ∧ ∀ r, (s.node r).ctl.Finished) ∧
        ∃ s, (Posted.system plus [.allreduce R.count] mem).Reach s ∧ ∀ r, (s r).ctl.Finished := by
  obtain ⟨R, _, -, hsize, hcount, hb⟩ := configParse_ring h hw
  refine ⟨R, hsize, hcount, hb, fun cap mem => ⟨?_, Posted.exists_complete R hb plus mem⟩⟩
  refine Blocking.exists_complete R.two_le plus cap (fun c hc => ?_) mem
  rw [List.mem_singleton.mp hc]
  exact count_valid R

/-- From the same payloads, any complete run on the blocking path and any on
the posted path leave the same payload on every rank, whatever the links hold,
however the kernel cuts the streams and whatever the stage held at first. -/
theorem paths_agree {β : Type} (R : Ring) (hb : R.bytes < 2 ^ 32) (plus : Word β → Word β → Word β)
    (cap : Fin R.size → Nat) (memB memP : Fin R.size → Area → Mem β) (hmem : ∀ r, memB r .buf = memP r .buf)
    (sB : Blocking.State R.size β) (hB : (Blocking.system plus cap [.allreduce R.count] memB).Reach sB)
    (hfB : ∀ r, (sB.node r).ctl.Finished)
    (sP : Posted.State R.size β) (hP : (Posted.system plus [.allreduce R.count] memP).Reach sP)
    (hfP : ∀ r, (sP r).ctl.Finished) :
    ∀ r r', ∀ a < R.size * R.bytes, (sB.node r).mem .buf a = (sP r').mem .buf a := by
  intro r r' a ha
  obtain ⟨c, j, hj, rfl⟩ := R.exists_off ha
  obtain ⟨p, got, hI⟩ := Posted.reach_inv hb hP
  have hr := hI r'
  rw [hr.pc_of_finished (hfP r')] at hr
  rw [hr.result c hj, Blocking.result hB (hfB r) c hj]
  simp only [hmem]

/-- Three ranks with two floats a chunk, over links of 0, 1 and 2 bytes: both
paths complete, and agree. -/
theorem paths_agree_three_ranks :
    ∃ (sB : Blocking.State 3 Nat) (sP : Posted.State 3 Nat),
      (Blocking.system (fun a b k => a k + b k) (fun r => r.val) [.allreduce 6] fun r _ i => r.val + i).Reach sB ∧
      (Posted.system (fun a b k => a k + b k) [.allreduce 6] fun r _ i => r.val + i).Reach sP ∧
      (∀ r, (sB.node r).ctl.Finished) ∧ (∀ r, (sP r).ctl.Finished) ∧
      ∀ r r', ∀ a < 24, (sB.node r).mem .buf a = (sP r').mem .buf a := by
  let R : Ring := ⟨3, 2, by decide, by decide, by decide⟩
  have hc : ∀ c ∈ [Call.allreduce 6], c.Valid 3 := by simp [Call.Valid, sizeofFloat]
  obtain ⟨sB, hB, hfB⟩ := Blocking.exists_complete (by decide) (fun a b k => a k + b k) (fun r => r.val) hc
    fun r _ i => r.val + i
  obtain ⟨sP, hP, hfP⟩ := Posted.exists_complete R (by decide) (fun a b k => a k + b k) fun r _ i => r.val + i
  exact ⟨sB, sP, hB, hP, hfB, hfP, paths_agree R (by decide) _ _ _ _ (fun _ => rfl) sB hB hfB sP hP hfP⟩

end RdmaInfra.Collective
