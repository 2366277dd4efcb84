/-
What a rank back from `world_barrier` knows of its two neighbours.

Every rank sends one byte to its right and receives one from its left, so the
left neighbour has arrived. That the right one has is known only through the
send's completion. Over RDMA it means that the byte is in a receive the right
neighbour posted, in its own barrier. Over TCP `send_async` is done once the
byte is in a socket buffer, and `poll` returns at once: the right neighbour is
known to have arrived only where it is the left one too.
-/
import RdmaInfra.Collective.BlockingProgress
import RdmaInfra.Collective.SessionAligned

namespace RdmaInfra.Collective

variable {N : Nat} {β : Type}

/-- The rank has entered the `k`-th of the calls. -/
def Ctl.Entered (calls : List Call) (k : Nat) (c : Ctl) : Prop := c.failed = false ∧ k + c.todo.length < calls.length

/-- The rank has returned 0 from the `k`-th of the calls. -/
def Ctl.Returned (calls : List Call) (k : Nat) (c : Ctl) : Prop :=
  c.failed = false ∧ (k + 1 + c.todo.length < calls.length ∨ k + 1 + c.todo.length = calls.length ∧ c.ops = [])

/-- Whoever is back from a barrier, both its neighbours have entered it. -/
def Arrived (calls : List Call) (c : Fin N → Ctl) : Prop :=
  ∀ r k, calls[k]? = some .barrier → (c r).Returned calls k →
    (c (left r)).Entered calls k ∧ (c (right r)).Entered calls k

/-- What carries the messages: queue pairs, or links of the capacities given. -/
inductive Backend (N : Nat)
  | rdma
  | tcp (cap : Fin N → Nat)

/-- A socket buffer takes at least a byte. -/
def Backend.Buffered : Backend N → Prop
  | .rdma => True
  | .tcp cap => ∀ r, 0 < cap r

/-- Some interleaving leads the ranks' programs to `c`. -/
def Backend.Reaches (plus : Word β → Word β → Word β) (calls : List Call) (mem : Fin N → Area → Mem β) (c : Fin N → Ctl) :
    Backend N → Prop
  | .rdma => ∃ s, (Posted.system plus calls mem).Reach s ∧ c = fun r => (s r).ctl
  | .tcp cap => ∃ s, (Blocking.system plus cap calls mem).Reach s ∧ c = fun r => (s.node r).ctl

/-! ## Over RDMA -/

namespace Posted

variable {calls before : List Call} {r : Fin N} {n : Node β} {done rest : List Event} {got out k : Nat} {kind : Kind}

/-- The messages of the first `k` calls. -/
def messages (N : Nat) (calls : List Call) (k : Nat) : Nat := (tags N 0 (calls.take k)).length

theorem tally_events (r : Fin N) (k : Nat) (kind : Kind) :
    tally kind (events (worldOf r) 0 (calls.take k)) = messages N calls k :=
  length_ofKind ..

theorem messages_barrier (hN : 2 ≤ N) (hk : calls[k]? = some .barrier) :
    messages N calls (k + 1) = messages N calls k + 1 := by
  have htags : ∀ i cs, tags N i (cs ++ [.barrier]) = tags N i cs ++ [(i + cs.length, 0)] := by
    intro i cs
    induction cs generalizing i with
    | nil => simp [tags, callTags, Nat.not_lt.mpr hN]
    | cons c cs ih =>
      simp only [List.cons_append, tags, ih, List.append_assoc, List.length_cons]
      rw [Nat.add_assoc, Nat.add_comm 1]
  obtain ⟨hlt, hget⟩ := List.getElem?_eq_some_iff.mp hk
  rw [messages, List.take_succ_eq_append_getElem hlt, hget, htags, List.length_append]
  rfl

/-- Whoever has done more than the first `k` calls' worth has entered the next. -/
theorem Position.entered_of_tally (h : Position calls r n before done rest got out) (hok : n.ctl.failed = false)
    (kind : Kind) (ht : messages N calls k < tally kind done) : n.ctl.Entered calls k := by
  obtain ⟨hcalls, -⟩ := h.ctl hok
  refine ⟨hok, ?_⟩
  by_contra hle
  have hpre : before <+: calls.take k := by
    rw [← hcalls, List.prefix_take_iff]
    refine ⟨List.prefix_append _ _, ?_⟩
    rw [← hcalls, List.length_append] at hle
    omega
  have h1 : tally kind done ≤ tally kind (events (worldOf r) 0 (calls.take k)) :=
    tally_le kind (List.IsPrefix.trans ⟨rest, h.split.symm⟩ (events_initial hpre))
  rw [tally_events] at h1
  omega

/-- Whoever has returned from a call has done all of it. -/
theorem Position.tally_of_returned (h : Position calls r n before done rest got out) (hr : n.ctl.Returned calls k) :
    messages N calls (k + 1) ≤ tally kind done := by
  obtain ⟨hok, hr⟩ := hr
  obtain ⟨hcalls, hb⟩ := h.ctl hok
  rw [← tally_events r (k + 1) kind]
  apply tally_le kind
  rw [← hcalls, List.length_append] at hr
  rcases hr with hlt | ⟨heq, ho⟩
  · refine List.IsPrefix.trans (events_initial ?_) h.inside
    rw [← hcalls, List.take_append_of_le_length (by omega), List.dropLast_eq_take]
    exact List.take_prefix_take_left (by omega)
  · rw [ho] at hb
    have hdone : events (worldOf r) 0 before = done := by rw [h.split, hb.nil, List.append_nil]
    rw [← hdone, ← hcalls, List.take_left' (by omega)]

theorem arrived (hN : 2 ≤ N) (hruns : ∀ r : Fin N, Runs calls r) {plus : Word β → Word β → Word β}
    {mem : Fin N → Area → Mem β} {s : State N β} (h : (system plus calls mem).Reach s) :
    Arrived calls fun r => (s r).ctl := by
  obtain ⟨got, hI⟩ := reach_session hN h
  intro r k hk hr
  obtain ⟨before, done, rest, hp⟩ := hI r
  obtain ⟨beforeL, doneL, restL, hpL⟩ := hI (left r)
  obtain ⟨beforeR, doneR, restR, hpR⟩ := hI (right r)
  rw [right_left] at hpL
  have hmsg := messages_barrier hN hk
  constructor
  · -- What was polled was placed, and what was placed the left neighbour sent.
    refine hpL.entered_of_tally (hpL.ok (hruns _)) .send ?_
    have h1 : _ ≤ tally .pollLeft done := hp.tally_of_returned hr
    have h2 := hp.recv.polled_le
    have h3 := hpL.send.served_le
    omega
  · -- The send was placed in a receive the right neighbour posted.
    refine hpR.entered_of_tally (hpR.ok (hruns _)) .recv ?_
    have h1 : _ ≤ tally .pollRight done := hp.tally_of_returned hr
    have h2 := hp.send.polled_le
    have h3 := hpR.recv.served_le
    omega

end Posted

/-! ## Over TCP -/

namespace Blocking

open Transport

variable {calls : List Call} {r : Fin N} {n n' : Node β} {k : Nat} {plus : Word β → Word β → Word β}

/-- A rank's program is among the calls: it has `todo` of them ahead, and the
transfers left of the one it is in. -/
structure Within (calls : List Call) (w : World) (c : Ctl) : Prop where
  todo : c.todo <:+ calls
  ops : c.ops = [] ∨ ∃ call, call :: c.todo <:+ calls ∧ transfers c.ops <:+ transfers ((call.ops true w).getD [])

theorem Within.goto {op : Op} {ops ops' : List Op} (h : Within calls (worldOf r) n.ctl) (ho : n.ctl.ops = op :: ops)
    (hs : transfers ops' <:+ transfers (op :: ops)) : Within calls (worldOf r) (n.goto ops').ctl := by
  refine ⟨h.todo, .inr ?_⟩
  rcases h.ops with hnil | ⟨call, hcall, htr⟩
  · rw [ho] at hnil
    cases hnil
  · rw [ho] at htr
    exact ⟨call, hcall, hs.trans htr⟩

theorem transfers_tail (op : Op) (ops : List Op) : transfers ops <:+ transfers (op :: ops) := by
  cases ht : op.transfer with
  | none => rw [transfers_cons_none ht]
  | some t =>
    rw [transfers_cons_some ht]
    exact List.suffix_cons _ _

theorem within_fail (calls : List Call) (w : World) : Within calls w .fail := ⟨List.nil_suffix, .inl rfl⟩

theorem Within.run (h : Within calls (worldOf r) n.ctl) (hr : n.run plus (worldOf r) = some n') :
    Within calls (worldOf r) n'.ctl := by
  cases hops : n.ctl.ops with
  | nil =>
    simp only [Node.run, hops] at hr
    obtain ⟨c, hc, rfl⟩ := Option.map_eq_some_iff.mp hr
    simp only [Ctl.enter] at hc
    split at hc
    · cases hc
    next call todo ht =>
    have hcall : call :: todo <:+ calls := ht ▸ h.todo
    split at hc
    next => cases hc; exact within_fail _ _
    next ops hsome =>
      cases hc
      refine ⟨(List.suffix_cons _ _).trans hcall, .inr ⟨call, hcall, ?_⟩⟩
      rw [hsome]
      exact List.suffix_rfl
  | cons op ops =>
    have htail : Within calls (worldOf r) (n.goto ops).ctl := h.goto hops (transfers_tail op ops)
    cases op with
    | sendAsync hdl len id off | recvAsync hdl len id off =>
      simp only [Node.run, hops] at hr
      split at hr
      · split at hr
        · cases hr
        · cases hr
          exact htail
      · cases hr
        exact within_fail _ _
    | pollLeft | pollRight =>
      simp only [Node.run, hops] at hr
      cases hr
      exact htail
    | sum d s j =>
      cases j with
      | zero =>
        simp only [Node.run, hops] at hr
        cases hr
        exact htail
      | succ j =>
        simp only [Node.run, hops] at hr
        cases hr
        refine h.goto hops ?_
        rw [transfers_cons_none rfl, transfers_cons_none rfl]

section Reach

variable {s s' : State N β} {cap : Fin N → Nat}

theorem update_ctl {f : Fin N → Node β} (hc : n.ctl = (f r).ctl) (q : Fin N) :
    (Function.update f r n q).ctl = (f q).ctl := by
  by_cases hq : q = r
  · subst hq
    rw [Function.update_self, hc]
  · rw [Function.update_of_ne hq]

/-- Bytes on their way change no rank's program. -/
theorem push_ctl (h : push r k s = some s') (q : Fin N) : (s'.node q).ctl = (s.node q).ctl := by
  simp only [push] at h
  split at h
  swap
  · cases h
  obtain ⟨⟨n, bs⟩, hn, rfl⟩ := Option.map_eq_some_iff.mp h
  obtain ⟨-, -, -, -, -, -, hc, -⟩ := push_eq hn
  exact update_ctl hc q

theorem pull_ctl (h : pull r k s = some s') (q : Fin N) : (s'.node q).ctl = (s.node q).ctl := by
  simp only [pull] at h
  split at h
  swap
  · cases h
  obtain ⟨n, hn, rfl⟩ := Option.map_eq_some_iff.mp h
  obtain ⟨-, -, -, -, -, -, hc, -⟩ := pull_eq hn
  exact update_ctl hc q

theorem step_within {a : Action N} (hw : ∀ q, Within calls (worldOf q) (s.node q).ctl)
    (h : step plus cap a s = some s') (q : Fin N) : Within calls (worldOf q) (s'.node q).ctl := by
  cases a with
  | run r =>
    obtain ⟨n, hn, rfl⟩ := Option.map_eq_some_iff.mp h
    by_cases hq : q = r
    · subst hq
      simp only [Function.update_self]
      exact (hw q).run hn
    · simp only [Function.update_of_ne hq]
      exact hw q
  | send r k =>
    simp only [step] at h
    split at h
    · rw [push_ctl h]
      exact hw q
    · cases h
  | recv r k =>
    rw [pull_ctl h]
    exact hw q
  | handoff r k =>
    simp only [step] at h
    split at h
    · obtain ⟨t, ht, h⟩ := Option.bind_eq_some_iff.mp h
      rw [pull_ctl h, push_ctl ht]
      exact hw q
    · cases h

theorem reach_within {mem : Fin N → Area → Mem β} (h : (system plus cap calls mem).Reach s) (q : Fin N) :
    Within calls (worldOf q) (s.node q).ctl := by
  refine Lts.Reach.inv (I := fun s => ∀ q, Within calls (worldOf q) (s.node q).ctl) ?_ ?_ h q
  · rintro _ rfl q
    exact ⟨List.suffix_rfl, .inl rfl⟩
  · intro s a s' _ hw hs
    exact step_within hw hs

end Reach

/-! ### Counting bytes -/

/-- The bytes a rank sends, and receives, in the calls `cs`. -/
def callBytes (N : Nat) (cs : List Call) : Nat := (cs.flatMap (Call.lens N)).sum

theorem callBytes_suffix {cs cs' : List Call} (h : cs <:+ cs') : callBytes N cs ≤ callBytes N cs' := by
  obtain ⟨t, rfl⟩ := h
  rw [callBytes, callBytes, List.flatMap_append, List.sum_append]
  exact Nat.le_add_left _ _

theorem volume_suffix {d : Dir} {ts ts' : List Transfer} (h : ts <:+ ts') : volume d ts ≤ volume d ts' := by
  obtain ⟨t, rfl⟩ := h
  rw [volume_append]
  exact Nat.le_add_left _ _

theorem volume_call (hN : 2 ≤ N) (r : Fin N) {c : Call} (hc : c.Valid N) (d : Dir) :
    volume d (transfers ((c.ops true (worldOf r)).getD [])) = callBytes N [c] := by
  obtain ⟨ops, hops, -, ht⟩ := call_ops hN r hc
  rw [hops, Option.getD_some, ht, volume_schedule, callBytes, List.flatMap_singleton]

/-- What a rank has left: of the call it is in, and all of those to come. -/
theorem volumeAt_eq (hN : 2 ≤ N) (hc : ∀ c ∈ n.ctl.todo, c.Valid N) (d : Dir) :
    volumeAt d r n = volume d (transfers n.ctl.ops) + callBytes N n.ctl.todo := by
  have h := transfersLeft_start hN r hc
  simp only [transfersLeft, opsLeft, List.nil_append] at h
  rw [volumeAt, transfersLeft, opsLeft, transfers_append, volume_append, h, volume_schedule]
  rfl

theorem movedAt_le {all : List Nat} (h : RankInv all r n) (d : Dir) : movedAt d r n ≤ volume d (transfers n.ctl.ops) := by
  cases hops : n.ctl.ops with
  | nil =>
    have hm := h.moved
    rw [hops] at hm
    rw [movedAt_zero (Nat.le_zero.mp hm)]
    exact Nat.zero_le _
  | cons op ops =>
    have hm := h.moved
    rw [hops] at hm
    cases ht : op.transfer with
    | none =>
      have h0 : currentLen (op :: ops) = 0 := by cases op <;> first | rfl | cases ht
      rw [movedAt_zero (by omega)]
      exact Nat.zero_le _
    | some t =>
      have hlen : currentLen (op :: ops) = t.2 := by cases op <;> cases ht <;> rfl
      rw [movedAt, transfersLeft_cons hops ht, transfers_cons_some ht, volume_cons, movedIn]
      split
      · omega
      · exact Nat.zero_le _

/-- A rank back from call `k` has at most the calls after it to go. -/
theorem Within.volume_le (h : Within calls (worldOf r) n.ctl) (hN : 2 ≤ N) (hc : ∀ c ∈ calls, c.Valid N)
    (hr : n.ctl.Returned calls k) (d : Dir) : volumeAt d r n ≤ callBytes N (calls.drop (k + 1)) := by
  have hdrop : ∀ {cs : List Call}, cs <:+ calls → k + 1 + cs.length ≤ calls.length → cs <:+ calls.drop (k + 1) := by
    intro cs hcs hlen
    refine List.suffix_of_suffix_length_le hcs (List.drop_suffix _ _) ?_
    rw [List.length_drop]
    omega
  rw [volumeAt_eq hN fun c hm => hc c (h.todo.subset hm)]
  obtain ⟨-, hr⟩ := hr
  by_cases ho : n.ctl.ops = []
  · have hle : k + 1 + n.ctl.todo.length ≤ calls.length := by omega
    rw [ho]
    have := callBytes_suffix (N := N) (hdrop h.todo hle)
    simpa [transfers, volume] using this
  · obtain ⟨call, hcall, htr⟩ := h.ops.resolve_left ho
    have hlt : k + 1 + n.ctl.todo.length < calls.length := by
      rcases hr with hlt | ⟨-, hnil⟩
      · exact hlt
      · exact absurd hnil ho
    calc volume d (transfers n.ctl.ops) + callBytes N n.ctl.todo
        ≤ callBytes N [call] + callBytes N n.ctl.todo := by
          rw [← volume_call hN r (hc call (hcall.subset List.mem_cons_self)) d]
          exact Nat.add_le_add_right (volume_suffix htr) _
      _ = callBytes N (call :: n.ctl.todo) := by simp [callBytes]
      _ ≤ callBytes N (calls.drop (k + 1)) := by
          refine callBytes_suffix (hdrop hcall ?_)
          rw [List.length_cons]
          omega

/-- Over any links, the left neighbour has arrived: its byte was received. -/
theorem entered_left (hN : 2 ≤ N) (hc : ∀ c ∈ calls, c.Valid N) {cap : Fin N → Nat} {mem : Fin N → Area → Mem β}
    {s : State N β} (h : (system plus cap calls mem).Reach s) (hk : calls[k]? = some .barrier)
    (hr : (s.node r).ctl.Returned calls k) : (s.node (left r)).ctl.Entered calls k := by
  have hI := reach_inv hN hc h
  refine ⟨(hI.rank _).ok, ?_⟩
  by_contra hle
  have hwl := reach_within h (left r)
  have hlink := hI.link (left r)
  rw [right_left] at hlink
  have hleft := volumeAt_eq (r := left r) hN (fun c hm => hc c (hwl.todo.subset hm)) .send
  have hmoved := movedAt_le (hI.rank (left r)) .send
  have hmine := (reach_within h r).volume_le hN hc hr .recv
  have htodo : callBytes N (calls.drop k) ≤ callBytes N (s.node (left r)).ctl.todo := by
    refine callBytes_suffix (List.suffix_of_suffix_length_le (List.drop_suffix _ _) hwl.todo ?_)
    rw [List.length_drop]
    omega
  have hbarrier : callBytes N (calls.drop k) = 1 + callBytes N (calls.drop (k + 1)) := by
    obtain ⟨hlt, hget⟩ := List.getElem?_eq_some_iff.mp hk
    rw [List.drop_eq_getElem_cons hlt, hget, callBytes, List.flatMap_cons, List.sum_append]
    rfl
  omega

/-! ### A barrier passed too early

In a ring of three or more, some rank gets through its first barrier on what the
ranks to its left do, before its right neighbour has called it. -/

section Early

variable {q : Fin N} {ops : List Op} {s : State N β} {cap : Fin N → Nat} {mem : Fin N → Area → Mem β}

def sendByte : Op := .sendAsync ⟨.scratch, 16 * sizeofFloat⟩ 1 (2 ^ 64 - 1) 0

def recvByte : Op := .recvAsync ⟨.scratch, 16 * sizeofFloat⟩ 1 (2 ^ 64 - 1) 0

/-- Rank `q` is between two operations, with `todo` and `ops` to go. -/
def AtOps (s : State N β) (q : Fin N) (todo : List Call) (ops : List Op) : Prop :=
  (s.node q).ctl = ⟨todo, ops, false⟩ ∧ (s.node q).moved = 0

/-- Only rank `q` differs. -/
def Same (q : Fin N) (s s' : State N β) : Prop := ∀ p, p ≠ q → s'.node p = s.node p

theorem AtOps.frame {s' : State N β} {p : Fin N} {todo : List Call} (h : AtOps s p todo ops) (hs : Same q s s')
    (hp : p ≠ q) : AtOps s' p todo ops := by
  simp only [AtOps, hs p hp]
  exact h

theorem step_run (q : Fin N) (n' : Node β) {todo : List Call} (h : (system plus cap calls mem).Reach s)
    (hn : (s.node q).run plus (worldOf q) = some n') (hctl : n'.ctl = ⟨todo, ops, false⟩) (hm : n'.moved = 0) :
    ∃ s', (system plus cap calls mem).Reach s' ∧ AtOps s' q todo ops ∧ Same q s s' ∧ s'.link = s.link := by
  have hstep : (system plus cap calls mem).step (.run q) s = some { s with node := Function.update s.node q n' } := by
    show Option.map _ _ = _
    rw [hn]
    rfl
  refine ⟨_, h.next hstep, ⟨?_, ?_⟩, fun p hp => Function.update_of_ne hp _ _, rfl⟩
  · simp only [Function.update_self, hctl]
  · simp only [Function.update_self, hm]

theorem step_enter (hN : 2 ≤ N) (h : (system plus cap calls mem).Reach s) (ha : AtOps s q [.barrier] []) :
    ∃ s', (system plus cap calls mem).Reach s' ∧ Same q s s' ∧ s'.link = s.link ∧
      AtOps s' q [] ((if q.val % 2 = 0 then [sendByte, recvByte] else [recvByte, sendByte]) ++ [.pollLeft, .pollRight]) := by
  have hops : (Call.barrier.ops true (worldOf q)).getD [] =
      (if q.val % 2 = 0 then [sendByte, recvByte] else [recvByte, sendByte]) ++ [.pollLeft, .pollRight] := by
    have hlt : ¬(worldOf q).size < 2 := Nat.not_lt.mpr hN
    simp only [Call.ops, Option.getD_some, worldBarrier, if_neg hlt]
    rfl
  obtain ⟨s', hs', ha', hsame, hlink⟩ := step_run q
    { s.node q with ctl := ⟨[], (Call.barrier.ops true (worldOf q)).getD [], false⟩ } h
    (by simp only [Node.run, ha.1, Ctl.enter]; rfl) rfl ha.2
  refine ⟨s', hs', hsame, hlink, ?_⟩
  rwa [hops] at ha'

theorem step_poll {op : Op} (hop : op = .pollLeft ∨ op = .pollRight) (h : (system plus cap calls mem).Reach s)
    (ha : AtOps s q [] (op :: ops)) :
    ∃ s', (system plus cap calls mem).Reach s' ∧ AtOps s' q [] ops ∧ Same q s s' ∧ s'.link = s.link := by
  refine step_run q ((s.node q).goto ops) h ?_ ?_ ha.2
  · rcases hop with rfl | rfl <;> simp only [Node.run, ha.1]
  · simp only [Node.goto, ha.1]

/-- A byte goes into an empty link, and the sender goes on. -/
theorem step_send (h : (system plus cap calls mem).Reach s) (hcap : 0 < cap q) (ha : AtOps s q [] (sendByte :: ops))
    (hl : s.link q = []) :
    ∃ s' b, (system plus cap calls mem).Reach s' ∧ AtOps s' q [] ops ∧ Same q s s' ∧
      s'.link = Function.update s.link q [b] := by
  have hpush : (s.node q).push 1 =
      some ({ s.node q with moved := 1 }, ((s.node q).mem .scratch).read (0 + (s.node q).moved) 1) := by
    simp only [Node.push, ha.1, ha.2, sendByte]
    rfl
  have hstep : (system plus cap calls mem).step (.send q 1) s =
      some ⟨Function.update s.node q { s.node q with moved := 1 },
        Function.update s.link q (s.link q ++ ((s.node q).mem .scratch).read (0 + (s.node q).moved) 1)⟩ := by
    have hfit : (s.link q).length + 1 ≤ cap q := by rw [hl]; exact hcap
    simp only [system, step, if_pos hfit, push, hpush]
    rfl
  obtain ⟨s', hs', ha', hsame, hlink⟩ := step_run q { s.node q with ctl := ⟨[], ops, false⟩, moved := 0 } (h.next hstep)
    (by simp only [Function.update_self, Node.run, ha.1, sendByte]; rfl) rfl rfl
  refine ⟨s', (s.node q).mem .scratch (0 + (s.node q).moved), hs', ha', fun p hp => ?_, ?_⟩
  · rw [hsame p hp]
    exact Function.update_of_ne hp _ _
  · rw [hlink, hl]
    rfl

/-- The byte of the link is received. -/
theorem step_recv {b : β} (h : (system plus cap calls mem).Reach s) (ha : AtOps s (right q) [] (recvByte :: ops))
    (hl : s.link q = [b]) :
    ∃ s', (system plus cap calls mem).Reach s' ∧ AtOps s' (right q) [] ops ∧ Same (right q) s s' ∧
      s'.link = Function.update s.link q [] := by
  have hpull : (s.node (right q)).pull [b] = some { s.node (right q) with
      mem := Function.update (s.node (right q)).mem .scratch
        (((s.node (right q)).mem .scratch).write (0 + (s.node (right q)).moved) [b]), moved := 1 } := by
    simp only [Node.pull, ha.1, ha.2, recvByte]
    rfl
  have hstep : (system plus cap calls mem).step (.recv q 1) s = some ⟨Function.update s.node (right q)
      { s.node (right q) with
        mem := Function.update (s.node (right q)).mem .scratch
          (((s.node (right q)).mem .scratch).write (0 + (s.node (right q)).moved) [b]), moved := 1 },
      Function.update s.link q []⟩ := by
    simp only [system, step, pull, hl]
    simp [hpull]
  obtain ⟨s', hs', ha', hsame, hlink⟩ := step_run (right q)
    { s.node (right q) with
      ctl := ⟨[], ops, false⟩
      mem := Function.update (s.node (right q)).mem .scratch
        (((s.node (right q)).mem .scratch).write (0 + (s.node (right q)).moved) [b]), moved := 0 } (h.next hstep)
    (by simp only [Function.update_self, Node.run, ha.1, recvByte]; rfl) rfl rfl
  refine ⟨s', hs', ha', fun p hp => ?_, hlink⟩
  rw [hsame p hp]
  exact Function.update_of_ne hp _ _

theorem Same.trans {s' s'' : State N β} (h : Same q s s') (h' : Same q s' s'') : Same q s s'' := by
  intro p hp
  rw [h' p hp, h p hp]

/-- An even rank's byte is on its link before anyone else moves. -/
theorem even_sends (hN : 2 ≤ N) (hcap : 0 < cap q) (hq : q.val % 2 = 0) (h : (system plus cap calls mem).Reach s)
    (ha : AtOps s q [.barrier] []) (hl : s.link q = []) :
    ∃ s' b, (system plus cap calls mem).Reach s' ∧ AtOps s' q [] [recvByte, .pollLeft, .pollRight] ∧ Same q s s' ∧
      s'.link = Function.update s.link q [b] := by
  obtain ⟨s1, h1, hs1, hl1, ha1⟩ := step_enter hN h ha
  rw [if_pos hq] at ha1
  obtain ⟨s2, b, h2, ha2, hs2, hl2⟩ := step_send h1 hcap ha1 (by rw [hl1, hl])
  exact ⟨s2, b, h2, ha2, hs1.trans hs2, by rw [hl2, hl1]⟩

/-- An odd rank passes a byte on. -/
theorem odd_sends {b : β} (hN : 2 ≤ N) (hcap : 0 < cap (right q)) (hq : (right q).val % 2 ≠ 0)
    (h : (system plus cap calls mem).Reach s) (ha : AtOps s (right q) [.barrier] []) (hl : s.link (right q) = [])
    (hb : s.link q = [b]) :
    ∃ s' b', (system plus cap calls mem).Reach s' ∧ Same (right q) s s' ∧
      s'.link = Function.update (Function.update s.link q []) (right q) [b'] := by
  obtain ⟨s1, h1, hs1, hl1, ha1⟩ := step_enter hN h ha
  rw [if_neg hq] at ha1
  obtain ⟨s2, h2, ha2, hs2, hl2⟩ := step_recv h1 ha1 (by rw [hl1, hb])
  obtain ⟨s3, b', h3, -, hs3, hl3⟩ := step_send h2 hcap ha2 (by
    rw [hl2, Function.update_of_ne (right_ne hN q), hl1, hl])
  exact ⟨s3, b', h3, (hs1.trans hs2).trans hs3, by rw [hl3, hl2, hl1]⟩

/-- An even rank that finds its left neighbour's byte returns. -/
theorem even_returns {b : β} (hN : 2 ≤ N) (hcap : 0 < cap (right q)) (hq : (right q).val % 2 = 0)
    (h : (system plus cap calls mem).Reach s) (ha : AtOps s (right q) [.barrier] []) (hl : s.link (right q) = [])
    (hb : s.link q = [b]) :
    ∃ s', (system plus cap calls mem).Reach s' ∧ AtOps s' (right q) [] [] ∧ Same (right q) s s' := by
  obtain ⟨s1, b', h1, ha1, hs1, hl1⟩ := even_sends hN hcap hq h ha hl
  obtain ⟨s2, h2, ha2, hs2, -⟩ := step_recv h1 ha1 (by rw [hl1, Function.update_of_ne (right_ne hN q).symm, hb])
  obtain ⟨s3, h3, ha3, hs3, -⟩ := step_poll (.inl rfl) h2 ha2
  obtain ⟨s4, h4, ha4, hs4, -⟩ := step_poll (.inr rfl) h3 ha3
  exact ⟨s4, h4, ha4, ((hs1.trans hs2).trans hs3).trans hs4⟩

theorem right_val {r : Fin N} (h : r.val + 1 < N) : (right r).val = r + 1 := Nat.mod_eq_of_lt h

theorem returns_early (hN : 3 ≤ N) (hcap : ∀ r, 0 < cap r) (plus : Word β → Word β → Word β)
    (mem : Fin N → Area → Mem β) :
    ∃ s r, (system plus cap [.barrier] mem).Reach s ∧ AtOps s r [] [] ∧ AtOps s (right r) [.barrier] [] := by
  have hN2 : 2 ≤ N := by omega
  have h0 : (system plus cap [.barrier] mem).Reach (initState [.barrier] mem) := Lts.Reach.init rfl
  have hat : ∀ p, AtOps (initState [.barrier] mem) p [.barrier] [] := fun p => ⟨rfl, rfl⟩
  by_cases h3 : N = 3
  · -- Ranks 2 and 0 are neighbours and both even.
    subst h3
    obtain ⟨s1, b, h1, -, hs1, hl1⟩ := even_sends (q := 2) hN2 (hcap 2) rfl h0 (hat 2) rfl
    obtain ⟨s2, h2, ha2, hs2⟩ := even_returns (q := 2) hN2 (hcap _) rfl h1 ((hat _).frame hs1 (by decide))
      (by rw [hl1, Function.update_of_ne (by decide)]; rfl) (by rw [hl1, Function.update_self])
    exact ⟨s2, right 2, h2, ha2, ((hat _).frame hs1 (by decide)).frame hs2 (by decide)⟩
  · -- Rank 1 passes rank 0's byte on to rank 2; rank 3 need not be there.
    let a : Fin N := ⟨0, by omega⟩
    have v0 : a.val = 0 := rfl
    have v1 : (right a).val = 1 := right_val (by omega)
    have v2 : (right (right a)).val = 2 := by rw [right_val (by omega), v1]
    have v3 : (right (right (right a))).val = 3 := by rw [right_val (by omega), v2]
    have hne : ∀ {p p' : Fin N}, p.val ≠ p'.val → p ≠ p' := fun hv he => hv (congrArg Fin.val he)
    obtain ⟨s1, b, h1, -, hs1, hl1⟩ := even_sends hN2 (hcap a) rfl h0 (hat a) rfl
    obtain ⟨s2, b', h2, hs2, hl2⟩ := odd_sends (q := a) hN2 (hcap _) (by omega) h1 ((hat _).frame hs1 (hne (by omega)))
      (by rw [hl1, Function.update_of_ne (hne (by omega))]; rfl) (by rw [hl1, Function.update_self])
    obtain ⟨s3, h3, ha3, hs3⟩ := even_returns (q := right a) hN2 (hcap _) (by omega) h2
      (((hat _).frame hs1 (hne (by omega))).frame hs2 (hne (by omega)))
      (by
        rw [hl2, Function.update_of_ne (hne (by omega)), Function.update_of_ne (hne (by omega)), hl1,
          Function.update_of_ne (hne (by omega))]
        rfl)
      (by rw [hl2, Function.update_self])
    refine ⟨s3, right (right a), h3, ha3, ?_⟩
    exact (((hat _).frame hs1 (hne (by omega))).frame hs2 (hne (by omega))).frame hs3 (hne (by omega))

end Early

end Blocking

/-! ## Both -/

theorem Call.Chunked.valid (hInt : N < 2 ^ 31) {c : Call} (h : c.Chunked N) : c.Valid N := by
  cases c with
  | allreduce count =>
    obtain ⟨hd, hpos, hlt⟩ := h
    refine ⟨hd, hpos, ?_⟩
    have hmul : count * sizeofFloat = N * (count / N * sizeofFloat) := by
      rw [← Nat.mul_assoc, Nat.mul_div_cancel' hd]
    have := Nat.mul_le_mul hInt.le hlt.le
    omega
  | barrier => trivial

/-- The barrier tells of both neighbours, in every session and interleaving,
exactly over RDMA and in a world of two. -/
theorem barrier_arrived_iff {β : Type} (N : Nat) (hN : 2 ≤ N) (hInt : N < 2 ^ 31) (b : Backend N) (hb : b.Buffered)
    (plus : Word β → Word β → Word β) (mem : Fin N → Area → Mem β) :
    (∀ calls, (∀ c ∈ calls, c.Chunked N) → ∀ c, b.Reaches plus calls mem c → Arrived calls c) ↔
      b = .rdma ∨ N = 2 := by
  constructor
  · intro h
    cases b with
    | rdma => exact .inl rfl
    | tcp cap =>
      by_contra hne
      have hN3 : 3 ≤ N := by
        have : N ≠ 2 := fun h2 => hne (.inr h2)
        omega
      obtain ⟨s, r, hs, ha, hright⟩ := Blocking.returns_early hN3 hb plus mem
      have harr := h [.barrier] (by simp [Call.Chunked]) _ ⟨s, hs, rfl⟩ r 0 rfl
      have hret : (s.node r).ctl.Returned [.barrier] 0 := by rw [ha.1]; exact ⟨rfl, .inr ⟨rfl, rfl⟩⟩
      obtain ⟨-, hlt⟩ := (harr hret).2
      rw [hright.1] at hlt
      simp at hlt
  · intro h calls hc c hr
    cases b with
    | rdma =>
      obtain ⟨s, hs, rfl⟩ := hr
      exact Posted.arrived hN (Posted.runs_of_chunked hN hInt hc) hs
    | tcp cap =>
      obtain ⟨s, hs, rfl⟩ := hr
      have h2 : N = 2 := h.resolve_left fun he => by cases he
      intro r k hk hret
      have hleft := Blocking.entered_left hN (fun c hm => (hc c hm).valid hInt) hs hk hret
      exact ⟨hleft, left_eq_right h2 r ▸ hleft⟩

/-- Three ranks: every run over RDMA is right, and some run over TCP is not. -/
theorem barrier_arrived_iff_three_ranks :
    let mem : Fin 3 → Area → Mem Nat := fun r _ _ => r
    let holds (b : Backend 3) := ∀ calls, (∀ c ∈ calls, c.Chunked 3) →
      ∀ c, b.Reaches (fun x y k => x k + y k) calls mem c → Arrived calls c
    holds .rdma ∧ ¬holds (.tcp fun _ => 1) := by
  refine ⟨(barrier_arrived_iff 3 (by decide) (by decide) .rdma trivial _ _).mpr (.inl rfl), fun h => ?_⟩
  have hb : (Backend.tcp (N := 3) fun _ => 1).Buffered := fun _ => Nat.one_pos
  rcases (barrier_arrived_iff 3 (by decide) (by decide) _ hb _ _).mp h with h | h <;> cases h

/-- Over TCP rank 0 of three is back from the barrier on the byte of rank 2, and
rank 1 has not called it. -/
theorem barrier_returns_alone :
    ∃ s, (Blocking.system (fun x y k => x k + y k) (fun _ => 1) [.barrier] fun (r : Fin 3) _ _ => (r : Nat)).exec
        [.run 2, .send 2 1, .run 0, .send 0 1, .run 0, .recv 2 1, .run 0, .run 0, .run 0]
        (Blocking.initState [.barrier] fun r _ _ => r) = some s ∧
      ¬Arrived [.barrier] fun r => (s.node r).ctl := by
  refine ⟨_, rfl, fun h => ?_⟩
  obtain ⟨-, -, hlt⟩ := h 0 0 rfl ⟨rfl, .inr ⟨rfl, rfl⟩⟩
  exact absurd hlt (by decide)

end RdmaInfra.Collective
