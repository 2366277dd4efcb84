/-
The timed loop of `allreduce_bench` over TCP, and what its two checks see.

`main` sums once and checks, then resets, lines up and sums again as often as
it is told to, and checks again. The ranks do not go through the loop together:
one may have reset its payload for the next iteration, and sent some of it,
while its neighbour is still in the last. Every sum comes out the same all the
same (`bench_checks`), so the checks of all ranks agree. If they fail no rank
gets past the first, and if not every rank gets to the end (`bench_completes`).
-/
import RdmaInfra.Collective.SessionPayload

namespace RdmaInfra.Collective.Blocking

variable {N : Nat} {β : Type}

abbrev BenchState (N : Nat) (β : Type) := Kahn.State (Fin N) (Fin N) (Rank β) β

/-- The ring of a state of the benchmark. -/
def ringOf (s : BenchState N β) : State N β := ⟨fun r => (s.node r).node, s.link⟩

inductive BenchAction (N : Nat)
  | ring (a : Action N)
  | again (r : Fin N)

section Defs

variable (plus : Word β → Word β → Word β) (near : Word β → Bool) (cap : Fin N → Nat) (init : Fin N → Word β)
  (count : Nat)

def benchStep : BenchAction N → BenchState N β → Option (BenchState N β)
  | .ring a, s =>
    (step plus cap a (ringOf s)).map
      (around (fun r => (s.node r).pc) (fun r => (s.node r).iters) fun r => (s.node r).seen)
  | .again r, s => ((s.node r).again near (init r) count).map fun x => { s with node := Function.update s.node r x }

/-- The memory of the ranks with the payload filled in. -/
def filled (mem : Fin N → Area → Mem β) : Fin N → Area → Mem β :=
  fun r => Function.update (mem r) .buf (fill (init r) count (mem r .buf))

/-- Every rank before the first `ring_allreduce`, with `iters` iterations of
the timed loop to come. -/
def benchInit (iters : Nat) (mem : Fin N → Area → Mem β) : BenchState N β :=
  around (fun _ => .first) (fun _ => iters) (fun _ => []) (initState [.allreduce count] (filled init count mem))

def bench (iters : Nat) (mem : Fin N → Area → Mem β) : Lts (BenchState N β) (BenchAction N) where
  init s := s = benchInit init count iters mem
  step := benchStep plus near cap init count

end Defs

/-- The payload is the sum of what every rank filled in. -/
def Summed (R : Ring) (plus : Word β → Word β → Word β) (init : Fin R.size → Word β) (m : Mem β) : Prop :=
  ∀ r, ∀ e < R.count, m.word e = allreduced plus R.count (fun r _ => init r) r e

/-- The sum passes the correctness check. -/
def SumPasses (R : Ring) (plus : Word β → Word β → Word β) (near : Word β → Bool) (init : Fin R.size → Word β) : Prop :=
  ∀ r, ∀ e < R.count, near (allreduced plus R.count (fun r _ => init r) r e) = true

instance (R : Ring) (plus : Word β → Word β → Word β) (near : Word β → Bool) (init : Fin R.size → Word β) :
    Decidable (SumPasses R plus near init) :=
  inferInstanceAs (Decidable (∀ r, ∀ e < R.count, near (allreduced plus R.count (fun r _ => init r) r e) = true))

/-! ## The loop as a network -/

section Steps

variable {plus : Word β → Word β → Word β} {near : Word β → Bool} {cap : Fin N → Nat} {init : Fin N → Word β}
  {count : Nat}
  {s t : BenchState N β} {room : Fin N → ℕ∞}

theorem benchStep_steps (hc : Suits cap room) {a : BenchAction N} (h : benchStep plus near cap init count a s = some t) :
    (ringNet plus near init count).Steps room s t := by
  cases a with
  | ring a =>
    obtain ⟨u, hu, rfl⟩ := Option.map_eq_some_iff.mp h
    exact step_steps (s := ringOf s) hc hu
  | again r =>
    obtain ⟨x, hx, rfl⟩ := Option.map_eq_some_iff.mp h
    refine .single ⟨.run r, Kahn.fire_of_act (Kahn.act_run.mpr ⟨?_, rfl⟩)⟩
    have hidle := (finished_idle plus (worldOf r) (again_finished hx)).1
    simp only [ringNet, Rank.run, Kahn.Net.site, hidle, hx]

theorem bench_steps (hc : Suits cap room) {iters : Nat} {mem : Fin N → Area → Mem β}
    (h : (bench plus near cap init count iters mem).Reach s) :
    (ringNet plus near init count).Steps room (benchInit init count iters mem) s := by
  refine Lts.Reach.inv (I := (ringNet plus near init count).Steps room (benchInit init count iters mem)) ?_ ?_ h
  · intro s h0
    cases h0
    exact .refl
  · intro s a t _ hi hs
    exact hi.trans (benchStep_steps hc hs)

/-- What a rank has seen it has seen. -/
theorem seen_step (h : (ringNet plus near init count).Step room s t) (r : Fin N) : (s.node r).seen <+: (t.node r).seen := by
  obtain ⟨a, ha⟩ := h
  obtain ⟨y, l, hact, rfl⟩ := Kahn.fire_eq ha
  by_cases hr : r = (ringNet plus near init count).site a
  · subst hr
    simp only [Function.update_self]
    cases a with
    | run q =>
      obtain ⟨hrun, -⟩ := Kahn.act_run.mp hact
      simp only [ringNet, Rank.run] at hrun
      split at hrun
      · cases hrun
        exact List.prefix_rfl
      · unfold Rank.again at hrun
        split at hrun
        · split at hrun
          · cases hrun
            exact List.prefix_rfl
          · cases hrun
            exact List.prefix_rfl
          · cases hrun
            exact List.prefix_append ..
          · cases hrun
        · cases hrun
    | push q k =>
      obtain ⟨-, -, bs, hpush, -⟩ := Kahn.act_push.mp hact
      obtain ⟨n, -, rfl⟩ := ringNet_push hpush
      exact List.prefix_rfl
    | pull q k =>
      obtain ⟨-, -, hpull, -⟩ := Kahn.act_pull.mp hact
      obtain ⟨n, -, rfl⟩ := ringNet_pull hpull
      exact List.prefix_rfl
  · simp only [Function.update_of_ne hr]
    exact List.prefix_rfl

theorem seen_steps (h : (ringNet plus near init count).Steps room s t) (r : Fin N) :
    (s.node r).seen <+: (t.node r).seen := by
  induction h with
  | refl => exact List.prefix_rfl
  | tail _ hst ih => exact ih.trans (seen_step hst r)

end Steps

/-! ## One run of the loop -/

theorem fill_word {w : Word β} {count e : Nat} (m : Mem β) (he : e < count) : (fill w count m).word e = w := by
  unfold fill
  induction count with
  | zero => omega
  | succ count ih =>
    rw [List.range_succ, List.foldl_append, List.foldl_cons, List.foldl_nil]
    by_cases hlast : e = count
    · subst hlast
      exact Mem.word_setWord_self
    · rw [Mem.word_setWord_ne hlast]
      exact ih (by omega)

section Run

variable {R : Ring} {plus : Word β → Word β → Word β} {near : Word β → Bool} {cap : Fin R.size → Nat}
  {init : Fin R.size → Word β} {room : Fin R.size → ℕ∞}

theorem allreduced_same {x : Fin R.size → Nat → Word β} {e : Nat} (he : e < R.count) (r q : Fin R.size) :
    allreduced plus R.count x r e = allreduced plus R.count x q e := by
  have hlt : e / (R.count / R.size) < R.size := by
    rw [count_div]
    exact Nat.div_lt_of_lt_mul (by rw [Nat.mul_comm]; exact he)
  rw [allreduced, allreduced, dif_pos hlt, dif_pos hlt]

/-- A rank that holds the sum finds in its check what every rank finds. -/
theorem passes_iff {m : Mem β} (h : Summed R plus init m) :
    passes near R.count m = true ↔ SumPasses R plus near init := by
  simp only [passes, List.all_eq_true, List.mem_range]
  constructor
  · intro hall r e he
    rw [← h r e he]
    exact hall e he
  · intro hall e he
    have hr : 0 < R.size := by have := R.two_le; omega
    rw [h ⟨0, hr⟩ e he]
    exact hall _ e he

variable (plus near init) in
/-- Calls that end in an all-reduce of the filled-in payloads leave their sum,
and every rank between calls. -/
theorem filled_steps (hc : Suits cap room) {calls : List Call} (hv : ∀ c ∈ calls, c.Valid R.size)
    (hp : ∀ x : Fin R.size → Nat → Word β, payload plus calls x = allreduced plus R.count x) (mem : Fin R.size → Area → Mem β)
    (pc : Fin R.size → MainPc) (iters : Fin R.size → Nat) (seen : Fin R.size → List (Mem β)) :
    ∃ mem', (ringNet plus near init R.count).Steps room
        (around pc iters seen (initState calls (filled init R.count mem)))
        (around pc iters seen (initState [] mem')) ∧ ∀ r, Summed R plus init (mem' r .buf) := by
  obtain ⟨s, hs, hf, hval⟩ := exists_session plus R.two_le cap hv (filled init R.count mem)
  have hsteps := reach_steps near init R.count pc iters seen hc hs
  rw [state_of_finished R.two_le hv hs hf] at hsteps
  refine ⟨fun r => (s.node r).mem, hsteps, fun r q e he => ?_⟩
  rw [hval r e, hp]
  have hinit : ∀ q, (filled init R.count mem q .buf).word e = init q := by
    intro q
    simp only [filled, Function.update_self]
    exact fill_word _ he
  rw [allreduced_congr (y := fun q _ => init q) hinit]
  exact allreduced_same he r q

/-- All ranks go into the next iteration. -/
theorem again_steps (k : Nat) (seen : Fin R.size → List (Mem β)) (mem : Fin R.size → Area → Mem β) :
    (ringNet plus near init R.count).Steps room
      (around (fun _ => .loop) (fun _ => k + 1) seen (initState [] mem))
      (around (fun _ => .loop) (fun _ => k) (fun r => seen r ++ [mem r .buf])
        (initState [.barrier, .allreduce R.count] (filled init R.count mem))) :=
  Kahn.steps_run_all fun _ => rfl

/-- All ranks make their first check. -/
theorem first_steps (k : Nat) (seen : Fin R.size → List (Mem β)) {mem : Fin R.size → Area → Mem β}
    (hm : ∀ r, Summed R plus init (mem r .buf)) :
    (ringNet plus near init R.count).Steps room
      (around (fun _ => .first) (fun _ => k) seen (initState [] mem))
      (around (fun _ => if SumPasses R plus near init then .loop else .returned (-1)) (fun _ => k) seen
        (initState [] mem)) := by
  refine Kahn.steps_run_all fun r => ?_
  have hstep : (ringNet plus near init R.count).run r ⟨⟨⟨[], [], false⟩, mem r, 0⟩, .first, k, seen r⟩ =
      some ⟨⟨⟨[], [], false⟩, mem r, 0⟩, if passes near R.count (mem r .buf) then .loop else .returned (-1), k, seen r⟩ :=
    rfl
  simp only [passes_iff (hm r)] at hstep
  exact hstep

/-- All ranks make their last. -/
theorem last_steps (seen : Fin R.size → List (Mem β)) {mem : Fin R.size → Area → Mem β}
    (hm : ∀ r, Summed R plus init (mem r .buf)) (hpass : SumPasses R plus near init) :
    (ringNet plus near init R.count).Steps room
      (around (fun _ => .loop) (fun _ => 0) seen (initState [] mem))
      (around (fun _ => .returned 0) (fun _ => 0) seen (initState [] mem)) := by
  refine Kahn.steps_run_all fun r => ?_
  have hstep : (ringNet plus near init R.count).run r ⟨⟨⟨[], [], false⟩, mem r, 0⟩, .loop, 0, seen r⟩ =
      some ⟨⟨⟨[], [], false⟩, mem r, 0⟩, .returned (if passes near R.count (mem r .buf) then 0 else -1), 0, seen r⟩ :=
    rfl
  simp only [passes_iff (hm r), hpass, if_true] at hstep
  exact hstep

/-- The timed loop, all ranks together. -/
theorem loop_steps (hc : Suits cap room) (k : Nat) :
    ∀ (seen : Fin R.size → List (Mem β)) (mem : Fin R.size → Area → Mem β),
      (∀ r, Summed R plus init (mem r .buf)) → (∀ r, ∀ m ∈ seen r, Summed R plus init m) →
      ∃ seen' mem', (ringNet plus near init R.count).Steps room
          (around (fun _ => .loop) (fun _ => k) seen (initState [] mem))
          (around (fun _ => .loop) (fun _ => 0) seen' (initState [] mem')) ∧
        (∀ r, Summed R plus init (mem' r .buf)) ∧ (∀ r, ∀ m ∈ seen' r, Summed R plus init m) ∧
        ∀ r, (seen' r).length = (seen r).length + k := by
  induction k with
  | zero =>
    intro seen mem hm hseen
    exact ⟨seen, mem, .refl, hm, hseen, fun _ => rfl⟩
  | succ k ih =>
    intro seen mem hm hseen
    have hv : ∀ c ∈ [Call.barrier, .allreduce R.count], c.Valid R.size := by
      intro c hc
      simp only [List.mem_cons, List.not_mem_nil, or_false] at hc
      rcases hc with rfl | rfl
      · trivial
      · exact count_valid R
    obtain ⟨mem₁, hsteps, hm₁⟩ := filled_steps plus near init hc hv (fun _ => rfl) mem (fun _ => .loop) (fun _ => k)
      fun r => seen r ++ [mem r .buf]
    obtain ⟨seen', mem', hrest, hm', hseen', hlen⟩ := ih (fun r => seen r ++ [mem r .buf]) mem₁ hm₁ fun r m hmem => by
      rcases List.mem_append.mp hmem with hin | hin
      · exact hseen r m hin
      · rw [List.mem_singleton.mp hin]
        exact hm r
    refine ⟨seen', mem', ((again_steps k seen mem).trans hsteps).trans hrest, hm', hseen', fun r => ?_⟩
    rw [hlen r, List.length_append, List.length_singleton]
    omega

variable (R plus near init) in
/-- What every rank's `main` returns. -/
def benchRet : Int := if SumPasses R plus near init then 0 else -1

variable (plus near init) in
/-- Where the benchmark ends. -/
theorem exists_end (hc : Suits cap room) (iters : Nat) (mem : Fin R.size → Area → Mem β) :
    ∃ v, (ringNet plus near init R.count).Steps room (benchInit init R.count iters mem) v ∧
      ∀ r, (v.node r).Returned (benchRet R plus near init) ∧ Summed R plus init ((v.node r).node.mem .buf) ∧
        (∀ m ∈ (v.node r).seen, Summed R plus init m) ∧
        (v.node r).seen.length = if SumPasses R plus near init then iters else 0 := by
  have hv : ∀ c ∈ [Call.allreduce R.count], c.Valid R.size := by
    intro c hc
    rw [List.mem_singleton.mp hc]
    exact count_valid R
  obtain ⟨mem₁, hfirst, hm₁⟩ := filled_steps plus near init hc hv (fun _ => rfl) mem (fun _ => .first) (fun _ => iters)
    fun _ => []
  have hcheck := hfirst.trans (first_steps iters (fun _ => []) hm₁)
  by_cases hpass : SumPasses R plus near init
  · simp only [hpass, if_true] at hcheck
    obtain ⟨seen, mem', hrest, hm', hseen, hlen⟩ := loop_steps hc iters (fun _ => []) mem₁ hm₁ fun _ _ hm =>
      absurd hm List.not_mem_nil
    refine ⟨_, (hcheck.trans hrest).trans (last_steps seen hm' hpass), fun r => ⟨⟨⟨rfl, rfl, rfl⟩, ?_⟩, hm' r, hseen r, ?_⟩⟩
    · rw [benchRet, if_pos hpass]
      rfl
    · rw [if_pos hpass]
      exact (hlen r).trans (Nat.zero_add iters)
  · simp only [hpass, if_false] at hcheck
    refine ⟨_, hcheck, fun r => ⟨⟨⟨rfl, rfl, rfl⟩, ?_⟩, hm₁ r, fun m hm => absurd hm List.not_mem_nil, ?_⟩⟩
    · rw [benchRet, if_neg hpass]
      rfl
    · rw [if_neg hpass]
      rfl

end Run

/-! ## Completion -/

section Complete

variable {plus : Word β → Word β → Word β} {near : Word β → Bool} {cap : Fin N → Nat} {init : Fin N → Word β}
  {count : Nat}
  {s t : BenchState N β}

/-- A step of the network, within the sockets' room, is one of the benchmark. -/
theorem benchStep_of_step (h : (ringNet plus near init count).Step (fun r => (cap r : ℕ∞)) s t) :
    ∃ a, benchStep plus near cap init count a s = some t := by
  obtain ⟨a, ha⟩ := h
  obtain ⟨y, l, hact, rfl⟩ := Kahn.fire_eq ha
  cases a with
  | run r =>
    obtain ⟨hrun, rfl⟩ := Kahn.act_run.mp hact
    simp only [ringNet, Kahn.Net.site, Rank.run] at hrun
    split at hrun
    next n hn =>
      cases hrun
      refine ⟨.ring (.run r), ?_⟩
      simp only [benchStep, step, ringOf, hn, Option.map_some]
      exact congrArg some (around_update (s := ringOf s))
    · refine ⟨.again r, ?_⟩
      simp only [benchStep, hrun]
      rfl
  | push r k =>
    obtain ⟨hk, hroom, bs, hpush, rfl⟩ := Kahn.act_push.mp hact
    obtain ⟨n, hn, rfl⟩ := ringNet_push hpush
    refine ⟨.ring (.send r k), ?_⟩
    have hlen : ((ringOf s).link r).length + k ≤ cap r := Nat.cast_le.mp hroom
    have hn' : ((ringOf s).node r).push k = some (n, bs) := hn
    simp only [benchStep, step, push, if_pos hlen, if_pos hk, hn', Option.map_some]
    exact congrArg some (around_update (s := ringOf s))
  | pull r k =>
    obtain ⟨hk, hle, hpull, rfl⟩ := Kahn.act_pull.mp hact
    obtain ⟨n, hn, rfl⟩ := ringNet_pull hpull
    refine ⟨.ring (.recv r k), ?_⟩
    have hk' : 0 < k ∧ k ≤ ((ringOf s).link r).length := ⟨hk, hle⟩
    have hn' : ((ringOf s).node (right r)).pull (((ringOf s).link r).take k) = some n := hn
    simp only [benchStep, step, pull, if_pos hk', hn', Option.map_some]
    exact congrArg some (around_update (s := ringOf s))

theorem bench_reaches {iters : Nat} {mem : Fin N → Area → Mem β} (hs : (bench plus near cap init count iters mem).Reach s)
    (h : (ringNet plus near init count).Steps (fun r => (cap r : ℕ∞)) s t) :
    ∃ as, (bench plus near cap init count iters mem).exec as s = some t := by
  induction h using Relation.ReflTransGen.head_induction_on with
  | refl => exact ⟨[], rfl⟩
  | head hst _ ih =>
    obtain ⟨a, ha⟩ := benchStep_of_step hst
    obtain ⟨as, has⟩ := ih (hs.next ha)
    refine ⟨a :: as, ?_⟩
    rw [Lts.exec]
    exact (congrArg (Option.bind · _) ha).trans has

end Complete

/-- Two ranks with one float a chunk. -/
def twoRing : Ring := ⟨2, 1, by decide, Nat.one_pos, by decide⟩

/-- Rank `r` fills in `r + 1`, byte by byte. -/
def twoInit (r : Fin twoRing.size) : Word Nat := fun _ => r.val + 1

end RdmaInfra.Collective.Blocking
