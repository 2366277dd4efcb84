/-
How many bytes a link carries.

The benchmark turns a time into bus bandwidth by a factor: a ring all-reduce is
to move 2(N - 1) / N times the buffer over each link. A run is measured here by
its actions: what the kernel took from each rank, and what it gave to it. A
step moves a rank along its transfers by just that much (`step_moved`), and
what is left of them is known at both ends of a run.
-/
import RdmaInfra.Collective.Barrier

namespace RdmaInfra.Collective.Blocking

variable {N : Nat} {β : Type}

/-- The bytes rank `r` moves in direction `d` by an action. -/
def movedBy (d : Dir) (r : Fin N) : Action N → Nat
  | .run _ => 0
  | .send q k => if d = .send ∧ q = r then k else 0
  | .recv q k => if d = .recv ∧ right q = r then k else 0
  | .handoff q k => (if d = .send ∧ q = r then k else 0) + if d = .recv ∧ right q = r then k else 0

/-- The bytes rank `r` moves in direction `d` in a run. -/
def movedOver (d : Dir) (r : Fin N) (as : List (Action N)) : Nat := (as.map (movedBy d r)).sum

/-- What the bandwidth figure takes a call to move over each link: 2(N - 1) / N
times the buffer. -/
def linkBytes (N : Nat) : Call → Nat
  | .allreduce count => 2 * (N - 1) * (count * sizeofFloat) / N
  | .barrier => 1

variable {all : List Nat} {plus : Word β → Word β → Word β} {cap : Fin N → Nat} {s s' : State N β} {r q : Fin N}
  {k : Nat} {d : Dir}

/-- The bytes rank `r` has moved in direction `d` since an earlier state, `k` of
them: what it had left to move has shrunk by as much. -/
def Moved (d : Dir) (r : Fin N) (k : Nat) (s s' : State N β) : Prop :=
  k + volumeAt d r (s'.node r) + movedAt d r (s.node r) = volumeAt d r (s.node r) + movedAt d r (s'.node r)

theorem Moved.trans {j : Nat} {s'' : State N β} (h : Moved d r j s s') (h' : Moved d r k s' s'') :
    Moved d r (j + k) s s'' := by
  unfold Moved at *
  omega

/-- Nothing of rank `r` has changed. -/
theorem Moved.of_eq (h : s'.node r = s.node r) : Moved d r 0 s s' := by
  unfold Moved
  rw [h]
  omega

/-- Rank `q` has gone `k` bytes further in direction `d'`. -/
theorem Moved.of_advance {d' : Dir} {n : Node β}
    (hn : ∀ d, volumeAt d q n = volumeAt d q (s.node q) ∧
      movedAt d q n = movedAt d q (s.node q) + if d' = d then k else 0)
    (hs : s'.node = Function.update s.node q n) : Moved d r (if d = d' ∧ q = r then k else 0) s s' := by
  by_cases hq : q = r
  · subst hq
    obtain ⟨hvol, hmov⟩ := hn d
    unfold Moved
    simp only [hs, Function.update_self, and_true, hvol, hmov, eq_comm (a := d')]
    omega
  · rw [if_neg fun he => hq he.2]
    refine .of_eq ?_
    rw [hs, Function.update_of_ne fun he => hq he.symm]

theorem push_moved (hI : Inv all s) (h : push q k s = some s') :
    Moved d r (if d = .send ∧ q = r then k else 0) s s' := by
  simp only [push] at h
  split at h
  swap
  · cases h
  obtain ⟨⟨n, bs⟩, hn, rfl⟩ := Option.map_eq_some_iff.mp h
  obtain ⟨op, ops, len, ho, htr, hk, hc, hm, -⟩ := push_eq hn
  obtain ⟨-, heq⟩ := (hI.rank q).advance ho htr hk hc hm
  exact .of_advance heq rfl

theorem pull_moved (hI : Inv all s) (h : pull q k s = some s') :
    Moved d r (if d = .recv ∧ right q = r then k else 0) s s' := by
  simp only [pull] at h
  split at h
  swap
  · cases h
  next hle =>
  obtain ⟨n, hn, rfl⟩ := Option.map_eq_some_iff.mp h
  obtain ⟨op, ops, len, ho, htr, hk, hc, hm⟩ := pull_eq hn
  rw [List.length_take_of_le hle.2] at hk hm
  obtain ⟨-, heq⟩ := (hI.rank (right q)).advance ho htr hk hc hm
  exact .of_advance heq rfl

theorem run_moved (hN : 2 ≤ N) (hI : Inv all s) {n : Node β} (h : (s.node q).run plus (worldOf q) = some n) :
    Moved d r 0 s { s with node := Function.update s.node q n } := by
  by_cases hq : q = r
  · subst hq
    obtain ⟨-, heq⟩ := (hI.rank q).run hN h
    have hd := heq d
    unfold Moved
    simp only [Function.update_self]
    omega
  · exact .of_eq (Function.update_of_ne (fun he => hq he.symm) _ _)

/-- A step moves a rank by what it takes of it and gives to it. -/
theorem step_moved (hN : 2 ≤ N) {a : Action N} (hI : Inv all s) (h : step plus cap a s = some s') :
    Moved d r (movedBy d r a) s s' := by
  cases a with
  | run q =>
    obtain ⟨n, hn, rfl⟩ := Option.map_eq_some_iff.mp h
    exact run_moved hN hI hn
  | send q k =>
    simp only [step] at h
    split at h
    · exact push_moved hI h
    · cases h
  | recv q k => exact pull_moved hI h
  | handoff q k =>
    simp only [step] at h
    split at h
    · obtain ⟨t, ht, h⟩ := Option.bind_eq_some_iff.mp h
      exact (push_moved hI ht).trans (pull_moved (push_inv hN hI ht) h)
    · cases h

/-- A run moves it by the sum of its steps. -/
theorem exec_moved (hN : 2 ≤ N) {calls : List Call} {mem : Fin N → Area → Mem β} {as : List (Action N)} :
    ∀ {s s' : State N β}, Inv all s → (system plus cap calls mem).exec as s = some s' →
      Moved d r (movedOver d r as) s s' := by
  induction as with
  | nil =>
    intro s s' _ he
    cases he
    exact .of_eq rfl
  | cons a as ih =>
    intro s s' hI he
    obtain ⟨t, ht, he⟩ := Option.bind_eq_some_iff.mp he
    rw [movedOver, List.map_cons, List.sum_cons]
    exact (step_moved hN hI ht).trans (ih (step_inv hN hI ht) he)

theorem callBytes_eq (hN : 2 ≤ N) {calls : List Call} (hc : ∀ c ∈ calls, c.Valid N) :
    callBytes N calls = (calls.map (linkBytes N)).sum := by
  induction calls with
  | nil => rfl
  | cons c calls ih =>
    have hrest := ih fun c h => hc c (List.mem_cons_of_mem _ h)
    rw [callBytes] at hrest
    rw [callBytes, List.flatMap_cons, List.sum_append, hrest, List.map_cons, List.sum_cons]
    congr 1
    cases c with
    | barrier => rfl
    | allreduce count =>
      obtain ⟨⟨chunk, rfl⟩, -⟩ := hc _ List.mem_cons_self
      have hpos : 0 < N := by omega
      have hfac : 2 * (N - 1) * (N * chunk * sizeofFloat) = N * (2 * (N - 1) * (chunk * sizeofFloat)) := by ring
      rw [Call.lens, linkBytes, hfac, Nat.mul_div_cancel_left _ hpos, Nat.mul_div_cancel_left _ hpos, List.map_const',
        List.sum_replicate_nat, List.length_range]

/-- In every run of calls over TCP, a rank that is done has put on its right link,
and taken off its left one, exactly what the bandwidth figure counts for its calls,
and at no time has any rank moved more. -/
theorem link_volume (hN : 2 ≤ N) (plus : Word β → Word β → Word β) (cap : Fin N → Nat) (calls : List Call)
    (hc : ∀ c ∈ calls, c.Valid N) (mem : Fin N → Area → Mem β) (as : List (Action N)) (s : State N β)
    (h : (system plus cap calls mem).exec as (initState calls mem) = some s) (d : Dir) (r : Fin N) :
    movedOver d r as ≤ (calls.map (linkBytes N)).sum ∧
      ((s.node r).ctl.Finished → movedOver d r as = (calls.map (linkBytes N)).sum) := by
  have hI := init_inv hN hc mem
  have hm : Moved d r (movedOver d r as) (initState calls mem) s := exec_moved hN hI h
  have hstart : volumeAt d r ((initState calls mem).node r) = (calls.map (linkBytes N)).sum := by
    rw [← callBytes_eq hN hc, volumeAt, initState, transfersLeft_start hN r hc, volume_schedule]
    rfl
  have hrank := (reach_inv hN hc ((Lts.Reach.init rfl).exec h)).rank r
  have hle := movedAt_le hrank d
  have hvol := volumeAt_eq (r := r) hN hrank.calls d
  rw [Moved, hstart, movedAt_zero (n := (initState calls mem).node r) rfl] at hm
  refine ⟨by omega, fun hf => ?_⟩
  have hdone : volumeAt d r (s.node r) = 0 := by
    rw [volumeAt, transfersLeft_finished hf]
    rfl
  omega

/-- Three ranks, a barrier and a sum of six floats: every link carries 33 bytes. -/
theorem link_volume_three_ranks :
    ∃ as s, (system (fun a b k => a k + b k) (fun r : Fin 3 => r.val) [.barrier, .allreduce 6]
        fun _ _ _ => (0 : Nat)).exec as (initState [.barrier, .allreduce 6] fun _ _ _ => 0) = some s ∧
      ∀ d r, movedOver d r as = 33 := by
  have hc : ∀ c ∈ [Call.barrier, Call.allreduce 6], c.Valid 3 := by
    simp [Call.Valid, sizeofFloat]
  obtain ⟨s, hs, hf⟩ := exists_complete (by decide) (fun a b k => a k + b k) (fun r : Fin 3 => r.val) hc
    fun _ _ _ => (0 : Nat)
  obtain ⟨s₀, as, rfl, he⟩ := hs.exists_exec
  refine ⟨as, s, he, fun d r => ?_⟩
  exact (link_volume (by decide) _ _ _ hc _ as s he d r).2 (hf r)

end RdmaInfra.Collective.Blocking
