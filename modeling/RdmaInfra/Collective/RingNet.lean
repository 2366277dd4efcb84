/-
The ranks of the blocking path as sequential processes over byte streams, with
the two checks and the timed loop of `allreduce_bench` around their calls.

A rank sends on its own link and receives on its left neighbour's, one
transfer at a time, so the ring is a lawful network: which bytes a `send`
hands over first, and which rank goes first, changes nothing in where a session
of calls ends (`session_determined`). What a session computes can then be read
off one run of it.
-/
import RdmaInfra.Kahn
import RdmaInfra.Collective.PathsAgree

namespace RdmaInfra.Collective.Blocking

open Transport

variable {N : Nat} {β : Type}

/-- Where `main` is between its calls: before its first check, in the timed
loop, or at its end. -/
inductive MainPc
  | first
  | loop
  | returned (ret : Int)
  deriving DecidableEq, Repr

/-- A rank of `allreduce_bench`: its part in the ring, the iterations of the
timed loop it has not begun, and what its all-reduces before them left in
`buf`. -/
structure Rank (β : Type) where
  node : Node β
  pc : MainPc
  iters : Nat
  seen : List (Mem β)

/-- `buf.p[k] = cfg.rank + 1`, for every `k`. -/
def fill (w : Word β) (count : Nat) (m : Mem β) : Mem β := (List.range count).foldl (fun m k => m.setWord k w) m

/-- The correctness check, before the timed loop and after it: `near` is
`std::abs(buf.p[i] - expect) <= 1e-3`. -/
def passes (near : Word β → Bool) (count : Nat) (m : Mem β) : Bool := (List.range count).all fun k => near (m.word k)

/-- What `main` does between its calls. At the head of the timed loop the payload
is reset, and the barrier and the all-reduce come next. -/
def Rank.again (near : Word β → Bool) (w : Word β) (count : Nat) (x : Rank β) : Option (Rank β) :=
  if x.node.ctl.Finished then
    match x.pc, x.iters with
    | .first, _ => some { x with pc := if passes near count (x.node.mem .buf) then .loop else .returned (-1) }
    | .loop, 0 => some { x with pc := .returned (if passes near count (x.node.mem .buf) then 0 else -1) }
    | .loop, k + 1 =>
      some {
        node := { x.node with
          ctl := ⟨[.barrier, .allreduce count], [], false⟩
          mem := Function.update x.node.mem .buf (fill w count (x.node.mem .buf)) }
        pc := .loop
        iters := k
        seen := x.seen ++ [x.node.mem .buf] }
    | .returned _, _ => none
  else none

/-- A rank's own steps: those of its program, and between its calls those of
`main`. -/
def Rank.run (plus : Word β → Word β → Word β) (near : Word β → Bool) (w : Word β) (count : Nat) (r : Fin N)
    (x : Rank β) : Option (Rank β) :=
  match x.node.run plus (worldOf r) with
  | some n => some { x with node := n }
  | none => x.again near w count

/-- The ring: rank `r` sends on link `r`, to its right neighbour. `init r` is
what the loop resets the payload of rank `r` to. What a rank that has returned
sent before stays on its link. -/
def ringNet (plus : Word β → Word β → Word β) (near : Word β → Bool) (init : Fin N → Word β) (count : Nat) :
    Kahn.Net (Fin N) (Fin N) (Rank β) β where
  src r := r
  dst r := right r
  run r := Rank.run plus near (init r) count r
  push _ k x := (x.node.push k).map fun (n, bs) => ({ x with node := n }, bs)
  pull _ bs x := (x.node.pull bs).map fun n => { x with node := n }

/-! ## Ranks are sequential -/

section Node

variable {plus : Word β → Word β → Word β} {w : World} {n n' n'' : Node β}

theorem run_not_push {k : Nat} {p : Node β × List β} (hr : n.run plus w = some n') (hk : 0 < k) : n.push k ≠ some p := by
  intro hp
  simp only [Node.push] at hp
  split at hp
  next h len id off ops ho =>
    split at hp
    next hin =>
      simp only [Node.run, ho, hin.1, if_true] at hr
      rw [if_pos (by omega)] at hr
      cases hr
    · cases hp
  · cases hp

theorem run_not_pull {bs : List β} (hr : n.run plus w = some n') (hb : bs ≠ []) : n.pull bs ≠ some n'' := by
  intro hp
  have hlen := List.length_pos_iff.mpr hb
  simp only [Node.pull] at hp
  split at hp
  next h len id off ops ho =>
    split at hp
    next hin =>
      simp only [Node.run, ho, hin.1, if_true] at hr
      rw [if_pos (by omega)] at hr
      cases hr
    · cases hp
  · cases hp

theorem push_not_pull {k : Nat} {bs : List β} {p : Node β × List β} (hp : n.push k = some p) : n.pull bs ≠ some n' := by
  intro hq
  obtain ⟨n₁, cs⟩ := p
  obtain ⟨op, ops, len, ho, ht, -⟩ := push_eq hp
  obtain ⟨op', ops', len', ho', ht', -⟩ := pull_eq hq
  rw [ho] at ho'
  cases ho'
  rw [ht] at ht'
  cases ht'

variable (plus w) in
/-- A finished rank takes no part in the ring. -/
theorem finished_idle (h : n.ctl.Finished) :
    n.run plus w = none ∧ (∀ k, n.push k = none) ∧ ∀ bs, n.pull bs = none := by
  obtain ⟨htodo, hops, -⟩ := h
  refine ⟨?_, fun k => ?_, fun bs => ?_⟩
  · simp [Node.run, hops, Ctl.enter, htodo]
  · simp [Node.push, hops]
  · simp [Node.pull, hops]

/-- A longer `send` is a shorter one and the rest. -/
theorem push_add {k j : Nat} {bs cs : List β} (h : n.push k = some (n', bs)) (h' : n.push (k + j) = some (n'', cs)) :
    bs.length = k ∧ ∃ ds, n'.push j = some (n'', ds) ∧ cs = bs ++ ds := by
  simp only [Node.push] at h h'
  split at h
  next hd len id off ops ho =>
    simp only [ho] at h'
    split at h'
    next hin =>
      rw [if_pos ⟨hin.1, by omega⟩] at h
      cases h
      cases h'
      refine ⟨Mem.length_read, (n.mem hd.area).read (off + (n.moved + k)) j, ?_, ?_⟩
      · simp only [Node.push, ho]
        rw [if_pos ⟨hin.1, by omega⟩, Nat.add_assoc n.moved]
      · rw [Mem.read_add, Nat.add_assoc]
    · cases h'
  · cases h

theorem pull_append {bs cs : List β} (h : n.pull bs = some n') (h' : n.pull (bs ++ cs) = some n'') :
    n'.pull cs = some n'' := by
  simp only [Node.pull, List.length_append] at h h'
  split at h
  next hd len id off ops ho =>
    simp only [ho] at h'
    split at h'
    next hin =>
      rw [if_pos ⟨hin.1, by omega⟩] at h
      cases h
      cases h'
      simp only [Node.pull, ho]
      rw [if_pos ⟨hin.1, by omega⟩]
      have hend : off + (n.moved + bs.length) = off + n.moved + bs.length := (Nat.add_assoc ..).symm
      have hmoved : n.moved + bs.length + cs.length = n.moved + (bs.length + cs.length) := Nat.add_assoc ..
      simp only [Function.update_self, Function.update_idem, hend, hmoved, Mem.write_append]
    · cases h'
  · cases h

end Node

/-! ## The network -/

section Net

variable {plus : Word β → Word β → Word β} {near : Word β → Bool} {init : Fin N → Word β} {count : Nat}
  {x y : Rank β}

theorem again_finished {w : Word β} (h : x.again near w count = some y) : x.node.ctl.Finished := by
  unfold Rank.again at h
  split at h
  next hf => exact hf
  · cases h

/-- A rank that goes on by itself is in no transfer. -/
theorem rank_run_idle {w : Word β} {r : Fin N} (h : x.run plus near w count r = some y) :
    (∀ k, 0 < k → x.node.push k = none) ∧ ∀ bs, bs ≠ [] → x.node.pull bs = none := by
  unfold Rank.run at h
  split at h
  next n hn =>
    exact ⟨fun k hk => Option.eq_none_iff_forall_ne_some.mpr fun p => run_not_push hn hk,
      fun bs hb => Option.eq_none_iff_forall_ne_some.mpr fun p => run_not_pull hn hb⟩
  · obtain ⟨-, hpush, hpull⟩ := finished_idle plus (worldOf r) (again_finished h)
    exact ⟨fun k _ => hpush k, fun bs _ => hpull bs⟩

theorem ringNet_push {c : Fin N} {k : Nat} {bs : List β} (h : (ringNet plus near init count).push c k x = some (y, bs)) :
    ∃ n, x.node.push k = some (n, bs) ∧ y = { x with node := n } := by
  obtain ⟨⟨n, bs'⟩, hn, heq⟩ := Option.map_eq_some_iff.mp h
  cases heq
  exact ⟨n, hn, rfl⟩

theorem ringNet_pull {c : Fin N} {bs : List β} (h : (ringNet plus near init count).pull c bs x = some y) :
    ∃ n, x.node.pull bs = some n ∧ y = { x with node := n } := by
  obtain ⟨n, hn, heq⟩ := Option.map_eq_some_iff.mp h
  cases heq
  exact ⟨n, hn, rfl⟩

theorem ringNet_lawful : (ringNet plus near init count).Lawful where
  run_push := by
    intro c n x y z hr hn hp
    obtain ⟨m, hm, -⟩ := ringNet_push hp
    rw [(rank_run_idle hr).1 n hn] at hm
    cases hm
  run_pull := by
    intro c bs x y z hr hb hp
    obtain ⟨m, hm, -⟩ := ringNet_pull hp
    rw [(rank_run_idle hr).2 bs hb] at hm
    cases hm
  push_pull := by
    intro c d n bs x y z _ _ _ hp hq
    obtain ⟨m, hm, -⟩ := ringNet_push hp
    obtain ⟨m', hm', -⟩ := ringNet_pull hq
    exact push_not_pull hm hm'
  push_push := by
    intro c d n m x y z hcd _ _ _ _
    exact hcd
  pull_pull := by
    intro c d bs cs x y z hcd _ _ _ _
    exact right_inj hcd
  push_add := by
    intro c n m x y z bs cs _ _ hp hq
    obtain ⟨n₁, h₁, rfl⟩ := ringNet_push hp
    obtain ⟨n₂, h₂, rfl⟩ := ringNet_push hq
    obtain ⟨hlen, ds, hds, rfl⟩ := push_add h₁ h₂
    exact ⟨hlen, ds, by simp only [ringNet, hds]; rfl, rfl⟩
  pull_append := by
    intro c bs cs x y z _ hp hq
    obtain ⟨n₁, h₁, rfl⟩ := ringNet_pull hp
    obtain ⟨n₂, h₂, rfl⟩ := ringNet_pull hq
    simp only [ringNet, pull_append h₁ h₂]
    rfl

/-- The ring inside the benchmark: where each `main` around it is, and what its
loop has left and has seen. -/
def around (pc : Fin N → MainPc) (iters : Fin N → Nat) (seen : Fin N → List (Mem β)) (s : State N β) :
    Kahn.State (Fin N) (Fin N) (Rank β) β :=
  ⟨fun r => ⟨s.node r, pc r, iters r, seen r⟩, s.link⟩

variable {pc : Fin N → MainPc} {iters : Fin N → Nat} {seen : Fin N → List (Mem β)} {s s' : State N β} {r : Fin N}
  {k : Nat} {room : Fin N → ℕ∞}

theorem around_update {n : Node β} {link : Fin N → List β} :
    around pc iters seen ⟨Function.update s.node r n, link⟩ =
      ⟨Function.update (around pc iters seen s).node r ⟨n, pc r, iters r, seen r⟩, link⟩ := by
  simp only [around, Kahn.State.mk.injEq, and_true]
  funext q
  by_cases hq : q = r
  · subst hq
    simp
  · simp [hq]

theorem run_fire {n : Node β} (h : (s.node r).run plus (worldOf r) = some n) :
    (ringNet plus near init count).fire room (.run r) (around pc iters seen s) =
      some (around pc iters seen { s with node := Function.update s.node r n }) := by
  rw [around_update]
  refine Kahn.fire_of_act (Kahn.act_run.mpr ⟨?_, rfl⟩)
  simp only [ringNet, Rank.run, Kahn.Net.site, h]

theorem push_fire (h : push r k s = some s') (hroom : (((s.link r).length + k : Nat) : ℕ∞) ≤ room r) :
    (ringNet plus near init count).fire room (.push r k) (around pc iters seen s) = some (around pc iters seen s') := by
  unfold push at h
  split at h
  next hk =>
    obtain ⟨⟨n, bs⟩, hn, rfl⟩ := Option.map_eq_some_iff.mp h
    rw [around_update]
    refine Kahn.fire_of_act (Kahn.act_push.mpr ⟨hk, hroom, bs, ?_, rfl⟩)
    simp only [ringNet, Kahn.Net.site, hn]
    rfl
  · cases h

theorem pull_fire (h : pull r k s = some s') :
    (ringNet plus near init count).fire room (.pull r k) (around pc iters seen s) = some (around pc iters seen s') := by
  unfold pull at h
  split at h
  next hk =>
    obtain ⟨n, hn, rfl⟩ := Option.map_eq_some_iff.mp h
    rw [around_update]
    refine Kahn.fire_of_act (Kahn.act_pull.mpr ⟨hk.1, hk.2, ?_, rfl⟩)
    simp only [ringNet, Kahn.Net.site, hn]
    rfl
  · cases h

/-- The network has the room the sockets have, or any amount; a socket that
holds nothing needs the latter. -/
def Suits (cap : Fin N → Nat) (room : Fin N → ℕ∞) : Prop := ∀ r, (cap r : ℕ∞) ≤ room r ∧ (cap r = 0 → room r = ⊤)

theorem suits_top (cap : Fin N → Nat) : Suits cap ⊤ := fun _ => ⟨le_top, fun _ => rfl⟩

/-- Every step of the ring over sockets is one, or a `send` and a `recv`, of
the network. -/
theorem step_steps {cap : Fin N → Nat} (hc : Suits cap room) {a : Action N} (h : step plus cap a s = some s') :
    (ringNet plus near init count).Steps room (around pc iters seen s) (around pc iters seen s') := by
  cases a with
  | run r =>
    obtain ⟨n, hn, rfl⟩ := Option.map_eq_some_iff.mp h
    exact .single ⟨_, run_fire hn⟩
  | send r k =>
    simp only [step] at h
    split at h
    next hk => exact .single ⟨_, push_fire h (le_trans (Nat.cast_le.mpr hk) (hc r).1)⟩
    · cases h
  | recv r k => exact .single ⟨_, pull_fire h⟩
  | handoff r k =>
    simp only [step] at h
    split at h
    next hk =>
      obtain ⟨t, ht, h⟩ := Option.bind_eq_some_iff.mp h
      have hroom : (((s.link r).length + k : Nat) : ℕ∞) ≤ room r := (hc r).2 hk ▸ le_top
      exact (Relation.ReflTransGen.single ⟨_, push_fire ht hroom⟩).tail ⟨_, pull_fire h⟩
    · cases h

variable (near init count pc iters seen) in
theorem reach_steps {cap : Fin N → Nat} (hc : Suits cap room) {calls : List Call} {mem : Fin N → Area → Mem β}
    (h : (system plus cap calls mem).Reach s) :
    (ringNet plus near init count).Steps room (around pc iters seen (initState calls mem)) (around pc iters seen s) := by
  refine Lts.Reach.inv (I := fun s => (ringNet plus near init count).Steps room
    (around pc iters seen (initState calls mem)) (around pc iters seen s)) ?_ ?_ h
  · intro s h0
    cases h0
    exact .refl
  · intro s a s' _ hi hs
    exact hi.trans (step_steps hc hs)

/-- The rank's `main` has returned `v`. -/
def Rank.Returned (x : Rank β) (v : Int) : Prop := x.node.ctl.Finished ∧ x.pc = .returned v

/-- Where every rank has returned nothing is left to happen. -/
theorem final_of_returned {s : Kahn.State (Fin N) (Fin N) (Rank β) β}
    (h : ∀ r, ∃ v, (s.node r).Returned v) : (ringNet plus near init count).Final s := by
  intro t ht
  obtain ⟨a, ha⟩ := ht
  obtain ⟨y, l, hact, -⟩ := Kahn.fire_eq ha
  cases a with
  | run r =>
    obtain ⟨hrun, -⟩ := Kahn.act_run.mp hact
    obtain ⟨v, hf, hp⟩ := h r
    simp [ringNet, Kahn.Net.site, Rank.run, Rank.again, (finished_idle _ _ hf).1, hp] at hrun
  | push r k =>
    obtain ⟨-, -, bs, hpush, -⟩ := Kahn.act_push.mp hact
    obtain ⟨n, hn, -⟩ := ringNet_push hpush
    obtain ⟨v, hf, -⟩ := h r
    cases ((finished_idle plus (worldOf r) hf).2.1 k).symm.trans hn
  | pull r k =>
    obtain ⟨-, -, hpull, -⟩ := Kahn.act_pull.mp hact
    obtain ⟨n, hn, -⟩ := ringNet_pull hpull
    obtain ⟨v, hf, -⟩ := h (right r)
    cases ((finished_idle plus (worldOf r) hf).2.2 _).symm.trans hn

theorem around_inj (h : around pc iters seen s = around pc iters seen s') : s = s' := by
  cases s
  cases s'
  simp only [around, Kahn.State.mk.injEq] at h
  obtain ⟨hnode, rfl⟩ := h
  congr
  funext q
  exact congrArg Rank.node (congrFun hnode q)

end Net

/-- Wherever a session of calls ends, over whatever sockets and however the
kernel cuts the streams, it ends in one state: that of every rank's memory too. -/
theorem session_determined (plus : Word β → Word β → Word β) (cap cap' : Fin N → Nat) (calls : List Call)
    (mem : Fin N → Area → Mem β) {s s' : State N β} (h : (system plus cap calls mem).Reach s)
    (hf : ∀ r, (s.node r).ctl.Finished) (h' : (system plus cap' calls mem).Reach s')
    (hf' : ∀ r, (s'.node r).ctl.Finished) : s = s' := by
  let W := ringNet plus (fun _ => true) (fun r : Fin N => (mem r .buf).word 0) 0
  have hover : ∀ {t : State N β}, (∀ r, (t.node r).ctl.Finished) →
      W.Final (around (fun _ => .returned 0) (fun _ => 0) (fun _ => []) t) :=
    fun ht => final_of_returned fun r => ⟨0, ht r, rfl⟩
  exact around_inj (ringNet_lawful.final_unique (reach_steps _ _ _ _ _ _ (suits_top cap') h') (hover hf')
    (reach_steps _ _ _ _ _ _ (suits_top cap) h) (hover hf))

end RdmaInfra.Collective.Blocking
