/-
What a session of all-reduces and barriers on the blocking path computes.

One run of a session is enough, since they all end alike
(`session_determined`): the one in which every rank finishes a call before any
enters the next. There a call's result is the next call's payload.
-/
import RdmaInfra.Collective.RingNet

namespace RdmaInfra.Collective.Blocking

variable {N : Nat} {β : Type}

/-! ## Call by call -/

section Before

variable {plus : Word β → Word β → Word β} {w : World} {n n' : Node β} {cs : List Call}

/-- A rank with more calls to make after those it has. -/
def Node.before (cs : List Call) (n : Node β) : Node β :=
  if n.ctl.failed then n else { n with ctl := { n.ctl with todo := n.ctl.todo ++ cs } }

/-- The calls that come later change no step of the calls before them. -/
theorem run_before (h : n.run plus w = some n') : (n.before cs).run plus w = some (n'.before cs) := by
  obtain ⟨⟨todo, ops, failed⟩, mem, moved⟩ := n
  cases ops with
  | nil =>
    cases todo with
    | nil => simp [Node.run, Ctl.enter] at h
    | cons c todo =>
      cases hc : c.ops true w with
      | none =>
        simp only [Node.run, Ctl.enter, hc, Option.map_some, Option.some.injEq] at h
        subst h
        cases failed <;> simp [Node.before, Node.run, Ctl.enter, hc, Ctl.fail]
      | some ops =>
        simp only [Node.run, Ctl.enter, hc, Option.map_some, Option.some.injEq] at h
        subst h
        cases failed <;> simp [Node.before, Node.run, Ctl.enter, hc]
  | cons op ops =>
    cases op with
    | sendAsync hd len id off | recvAsync hd len id off =>
      simp only [Node.run] at h
      split at h
      next hin =>
        split at h
        · cases h
        next hm =>
          cases h
          cases failed <;> simp [Node.before, Node.run, Node.goto, hin, hm]
      next hin =>
        cases h
        cases failed <;> simp [Node.before, Node.run, Ctl.fail, hin]
    | pollLeft | pollRight =>
      cases h
      cases failed <;> rfl
    | sum dst src k =>
      cases k with
      | zero =>
        cases h
        cases failed <;> rfl
      | succ k =>
        cases h
        cases failed <;> rfl

theorem push_before {k : Nat} {bs : List β} (h : n.push k = some (n', bs)) :
    (n.before cs).push k = some (n'.before cs, bs) := by
  obtain ⟨⟨todo, ops, failed⟩, mem, moved⟩ := n
  simp only [Node.push] at h
  split at h
  next hd len id off ops =>
    split at h
    next hin =>
      cases h
      cases failed <;> simp [Node.before, Node.push, hin]
    · cases h
  · cases h

theorem pull_before {bs : List β} (h : n.pull bs = some n') : (n.before cs).pull bs = some (n'.before cs) := by
  obtain ⟨⟨todo, ops, failed⟩, mem, moved⟩ := n
  simp only [Node.pull] at h
  split at h
  next hd len id off ops =>
    split at h
    next hin =>
      cases h
      cases failed <;> simp [Node.before, Node.pull, hin]
    · cases h
  · cases h

variable (cs) in
def State.before (s : State N β) : State N β := ⟨fun r => (s.node r).before cs, s.link⟩

variable {s s' : State N β} {r : Fin N} {cap : Fin N → Nat}

theorem before_update {link : Fin N → List β} :
    State.before cs ⟨Function.update s.node r n, link⟩ = ⟨Function.update (s.before cs).node r (n.before cs), link⟩ := by
  simp only [State.before, State.mk.injEq, and_true]
  funext q
  by_cases hq : q = r
  · subst hq
    simp
  · simp [hq]

theorem statePush_before {k : Nat} (h : push r k s = some s') : push r k (s.before cs) = some (s'.before cs) := by
  unfold push at h ⊢
  split at h
  next hk =>
    obtain ⟨⟨n, bs⟩, hn, rfl⟩ := Option.map_eq_some_iff.mp h
    rw [if_pos hk, before_update, State.before, push_before hn]
    rfl
  · cases h

theorem statePull_before {k : Nat} (h : pull r k s = some s') : pull r k (s.before cs) = some (s'.before cs) := by
  unfold pull at h ⊢
  split at h
  next hk =>
    obtain ⟨n, hn, rfl⟩ := Option.map_eq_some_iff.mp h
    rw [before_update, State.before, if_pos hk, pull_before hn]
    rfl
  · cases h

theorem step_before {a : Action N} (h : step plus cap a s = some s') :
    step plus cap a (s.before cs) = some (s'.before cs) := by
  cases a with
  | run r =>
    obtain ⟨n, hn, rfl⟩ := Option.map_eq_some_iff.mp h
    simp only [step]
    rw [before_update, State.before, run_before hn]
    rfl
  | send r k =>
    simp only [step] at h ⊢
    split at h
    next hk =>
      rw [if_pos (show ((s.before cs).link r).length + k ≤ cap r from hk)]
      exact statePush_before h
    · cases h
  | recv r k => exact statePull_before h
  | handoff r k =>
    simp only [step] at h ⊢
    split at h
    next hk =>
      obtain ⟨t, ht, h⟩ := Option.bind_eq_some_iff.mp h
      rw [if_pos hk, statePush_before ht]
      exact statePull_before h
    · cases h

variable (cs) in
/-- A session goes on from where its first call ended. -/
theorem reach_before {calls : List Call} {mem : Fin N → Area → Mem β} (h : (system plus cap calls mem).Reach s) :
    (system plus cap (calls ++ cs) mem).Reach (s.before cs) := by
  refine Lts.Reach.inv (I := fun s => (system plus cap (calls ++ cs) mem).Reach (s.before cs)) ?_ ?_ h
  · intro s h0
    cases h0
    exact .init rfl
  · intro s a s' _ hi hs
    exact hi.next (step_before hs)

/-- Where a session has ended, no byte is under way. -/
theorem state_of_finished (hN : 2 ≤ N) {calls : List Call} (hc : ∀ c ∈ calls, c.Valid N) {mem : Fin N → Area → Mem β}
    (h : (system plus cap calls mem).Reach s) (hf : ∀ r, (s.node r).ctl.Finished) :
    s = initState [] fun r => (s.node r).mem := by
  have hI := reach_inv hN hc h
  have hmoved : ∀ r, (s.node r).moved = 0 := by
    intro r
    have hle := (hI.rank r).moved
    rw [(hf r).2.1] at hle
    exact Nat.le_zero.mp hle
  have hlink : ∀ r, s.link r = [] := by
    intro r
    have hl := hI.link r
    have hvol : ∀ (d : Dir) q, volumeAt d q (s.node q) = 0 := by
      intro d q
      rw [volumeAt, transfersLeft_finished (hf q)]
      rfl
    rw [hvol, hvol, movedAt_zero (hmoved _), movedAt_zero (hmoved _)] at hl
    exact List.length_eq_zero_iff.mp (by omega)
  have hnode : s.node = fun r => ⟨⟨[], [], false⟩, (s.node r).mem, 0⟩ := by
    funext r
    obtain ⟨htodo, hops, hfail⟩ := hf r
    have hm := hmoved r
    generalize s.node r = n at *
    obtain ⟨⟨todo, ops, failed⟩, mem, moved⟩ := n
    cases htodo
    cases hops
    cases hfail
    cases hm
    rfl
  obtain ⟨node, link⟩ := s
  simp only [initState, State.mk.injEq]
  exact ⟨hnode, funext hlink⟩

/-- The calls after the first start as a session of their own. -/
theorem reach_next (hN : 2 ≤ N) {c : Call} (hc : c.Valid N) {mem : Fin N → Area → Mem β}
    (h : (system plus cap [c] mem).Reach s) (hf : ∀ r, (s.node r).ctl.Finished)
    (h' : (system plus cap cs fun r => (s.node r).mem).Reach s') : (system plus cap (c :: cs) mem).Reach s' := by
  have hs := reach_before cs h
  have hvalid : ∀ c' ∈ [c], c'.Valid N := by simpa using hc
  rw [state_of_finished hN hvalid h hf] at hs
  refine Lts.Reach.inv (I := (system plus cap (c :: cs) mem).Reach) ?_ ?_ h'
  · intro s h0
    cases h0
    exact hs
  · intro s a s' _ hi hst
    exact hi.next hst

end Before

/-! ## What a call leaves alone -/

/-- The bytes of the payload a call may write. -/
def bufBytes : Call → Nat
  | .allreduce count => count * sizeofFloat
  | .barrier => 0

/-- The operation writes no byte of the payload from `lim` on. -/
def Below (lim : Nat) : Op → Prop
  | .recvAsync h len _ off => h.area = .buf → off + len ≤ lim
  | .sum dst _ n => (dst + n) * sizeofFloat ≤ lim
  | _ => True

/-- A rank whose calls leave the payload `mem` alone from `lim` on. -/
structure Keeps (w : World) (lim : Nat) (mem : Mem β) (n : Node β) : Prop where
  todo : ∀ c ∈ n.ctl.todo, ∀ ops, c.ops true w = some ops → ∀ op ∈ ops, Below lim op
  ops : ∀ op ∈ n.ctl.ops, Below lim op
  buf : ∀ i, lim ≤ i → n.mem .buf i = mem i

section Keep

variable {plus : Word β → Word β → Word β} {w : World} {n n' : Node β} {m : Mem β} {lim : Nat}

theorem barrier_below {ops : List Op} (h : Call.ops true w .barrier = some ops) {op : Op} (hop : op ∈ ops) :
    Below 0 op := by
  simp only [Call.ops, worldBarrier, Option.some.injEq] at h
  subst h
  split at hop
  · cases hop
  · simp only [Bool.not_true, Bool.false_eq_true, if_false] at hop
    split at hop
    all_goals
      simp only [List.cons_append, List.nil_append, List.mem_cons, List.not_mem_nil, or_false] at hop
      obtain rfl | rfl | rfl | rfl := hop
      all_goals simp [Below]

theorem blockingStep_below {R : Ring} {r : Fin R.size} {s : Nat} {op : Op} (hs : s < R.steps)
    (h : op ∈ blockingStep (worldOf r) (bufH R) (bufH R) (stageH R) R.chunk s) :
    Below (R.count * sizeofFloat) op := by
  have hcount : R.count * sizeofFloat = R.size * R.bytes := Nat.mul_assoc ..
  rcases mem_blockingStep hs h with rfl | rfl | rfl | rfl | rfl
  · trivial
  · have hoff := R.off_add_le (chunkAt r (recvDist R.size s))
    rw [recvOp]
    split
    · simp [Below, stageH]
    · intro _
      omega
  · trivial
  · trivial
  · have hchunk := R.off_add_le (chunkAt r (s + 1))
    have hoff : (chunkAt r (s + 1)).val * R.chunk * sizeofFloat = R.off (chunkAt r (s + 1)) := Nat.mul_assoc ..
    have hbytes : R.chunk * sizeofFloat = R.bytes := rfl
    simp only [Below, Nat.add_mul]
    omega

theorem call_below (hN : 2 ≤ N) {r : Fin N} {c : Call} (hc : c.Valid N) {ops : List Op}
    (h : c.ops true (worldOf r) = some ops) {op : Op} (hop : op ∈ ops) : Below (bufBytes c) op := by
  cases c with
  | barrier => exact barrier_below h hop
  | allreduce count =>
    obtain ⟨⟨chunk, rfl⟩, hpos, hfit⟩ := hc
    let R : Ring := ⟨N, chunk, hN, Nat.pos_of_mul_pos_left hpos, by rw [← Nat.mul_assoc]; exact hfit⟩
    cases (allreduce_ops R true r).symm.trans h
    obtain ⟨s, hs, hop⟩ := List.mem_flatMap.mp hop
    exact blockingStep_below (R := R) (List.mem_range.mp hs) hop

theorem Keeps.goto (h : Keeps w lim m n) {op : Op} {ops : List Op} (ho : n.ctl.ops = op :: ops) (hops : n'.ctl.ops = ops)
    (htodo : n'.ctl.todo = n.ctl.todo) (hmem : n'.mem = n.mem) : Keeps w lim m n' := by
  refine ⟨htodo ▸ h.todo, fun op' hop => h.ops op' ?_, by rw [hmem]; exact h.buf⟩
  rw [hops] at hop
  rw [ho]
  exact List.mem_cons_of_mem _ hop

theorem Keeps.fail (h : Keeps w lim m n) : Keeps w lim m { n with ctl := .fail } :=
  ⟨fun _ hc => absurd hc List.not_mem_nil, fun _ hop => absurd hop List.not_mem_nil, h.buf⟩

theorem Keeps.run (h : Keeps w lim m n) (hr : n.run plus w = some n') : Keeps w lim m n' := by
  cases ho : n.ctl.ops with
  | nil =>
    simp only [Node.run, ho] at hr
    obtain ⟨c, hc, rfl⟩ := Option.map_eq_some_iff.mp hr
    unfold Ctl.enter at hc
    split at hc
    · cases hc
    next call todo ht =>
      have htodo : ∀ c ∈ todo, ∀ ops, c.ops true w = some ops → ∀ op ∈ ops, Below lim op :=
        fun c hc => h.todo c (by rw [ht]; exact List.mem_cons_of_mem _ hc)
      split at hc
      · cases hc
        exact h.fail
      next ops hops =>
        cases hc
        exact ⟨htodo, h.todo call (by rw [ht]; exact List.mem_cons_self) ops hops, h.buf⟩
  | cons op ops =>
    have hbelow : Below lim op := h.ops op (by rw [ho]; exact List.mem_cons_self)
    cases op with
    | sendAsync hd len id off | recvAsync hd len id off =>
      simp only [Node.run, ho] at hr
      split at hr
      · split at hr
        · cases hr
        · cases hr
          exact h.goto ho rfl rfl rfl
      · cases hr
        exact h.fail
    | pollLeft | pollRight =>
      simp only [Node.run, ho] at hr
      cases hr
      exact h.goto ho rfl rfl rfl
    | sum dst src k =>
      cases k with
      | zero =>
        simp only [Node.run, ho] at hr
        cases hr
        exact h.goto ho rfl rfl rfl
      | succ k =>
        simp only [Node.run, ho] at hr
        cases hr
        simp only [Below, sizeofFloat] at hbelow
        refine ⟨h.todo, fun op' hop => ?_, fun i hi => ?_⟩
        · rcases List.mem_cons.mp hop with rfl | hop
          · simp only [Below, sizeofFloat]
            omega
          · exact h.ops op' (by rw [ho]; exact List.mem_cons_of_mem _ hop)
        · simp only [Function.update_self]
          rw [Mem.setWord_outside (by omega)]
          exact h.buf i hi

theorem Keeps.push (h : Keeps w lim m n) {k : Nat} {bs : List β} (hp : n.push k = some (n', bs)) : Keeps w lim m n' := by
  simp only [Node.push] at hp
  split at hp
  · split at hp
    · cases hp
      exact ⟨h.todo, h.ops, h.buf⟩
    · cases hp
  · cases hp

theorem Keeps.pull (h : Keeps w lim m n) {bs : List β} (hp : n.pull bs = some n') : Keeps w lim m n' := by
  simp only [Node.pull] at hp
  split at hp
  next hd len id off ops ho =>
    have hbelow : hd.area = .buf → off + len ≤ lim :=
      h.ops (.recvAsync hd len id off) (by rw [ho]; exact List.mem_cons_self)
    split at hp
    next hin =>
      cases hp
      refine ⟨h.todo, h.ops, fun i hi => ?_⟩
      by_cases harea : hd.area = .buf
      · have hle := hbelow harea
        simp only [harea, Function.update_self]
        rw [Mem.write_outside (by omega)]
        exact h.buf i hi
      · simp only [Function.update_of_ne (Ne.symm harea)]
        exact h.buf i hi
    · cases hp
  · cases hp

variable {s s' : State N β} {x : Fin N → Mem β} {r : Fin N}

theorem keeps_update (h : ∀ q, Keeps (worldOf q) lim (x q) (s.node q)) (hn : Keeps (worldOf r) lim (x r) n) (q : Fin N) :
    Keeps (worldOf q) lim (x q) (Function.update s.node r n q) := by
  by_cases hq : q = r
  · subst hq
    rwa [Function.update_self]
  · rw [Function.update_of_ne hq]
    exact h q

theorem keeps_push (h : ∀ q, Keeps (worldOf q) lim (x q) (s.node q)) {k : Nat} (hp : push r k s = some s') (q : Fin N) :
    Keeps (worldOf q) lim (x q) (s'.node q) := by
  unfold Blocking.push at hp
  split at hp
  · obtain ⟨⟨n, bs⟩, hn, rfl⟩ := Option.map_eq_some_iff.mp hp
    exact keeps_update h ((h r).push hn) q
  · cases hp

theorem keeps_pull (h : ∀ q, Keeps (worldOf q) lim (x q) (s.node q)) {k : Nat} (hp : pull r k s = some s') (q : Fin N) :
    Keeps (worldOf q) lim (x q) (s'.node q) := by
  unfold Blocking.pull at hp
  split at hp
  · obtain ⟨n, hn, rfl⟩ := Option.map_eq_some_iff.mp hp
    exact keeps_update h ((h (right r)).pull hn) q
  · cases hp

theorem keeps_step {cap : Fin N → Nat} {a : Action N} (h : ∀ q, Keeps (worldOf q) lim (x q) (s.node q))
    (hs : step plus cap a s = some s') (q : Fin N) : Keeps (worldOf q) lim (x q) (s'.node q) := by
  cases a with
  | run r =>
    obtain ⟨n, hn, rfl⟩ := Option.map_eq_some_iff.mp hs
    exact keeps_update h ((h r).run hn) q
  | send r k =>
    simp only [step] at hs
    split at hs
    · exact keeps_push h hs q
    · cases hs
  | recv r k => exact keeps_pull h hs q
  | handoff r k =>
    simp only [step] at hs
    split at hs
    · obtain ⟨t, ht, hs⟩ := Option.bind_eq_some_iff.mp hs
      exact keeps_pull (keeps_push h ht) hs q
    · cases hs

/-- A call writes nothing behind its elements; a barrier writes nothing of the
payload. -/
theorem call_keeps (hN : 2 ≤ N) {cap : Fin N → Nat} {c : Call} (hc : c.Valid N) {mem : Fin N → Area → Mem β}
    (h : (system plus cap [c] mem).Reach s) (q : Fin N) {i : Nat} (hi : bufBytes c ≤ i) :
    (s.node q).mem .buf i = mem q .buf i := by
  have hk : ∀ q, Keeps (worldOf q) (bufBytes c) (mem q .buf) (s.node q) := by
    refine Lts.Reach.inv (I := fun s => ∀ q, Keeps (worldOf q) (bufBytes c) (mem q .buf) (s.node q)) ?_ ?_ h
    · intro s h0 q
      cases h0
      refine ⟨fun c' hc' ops hops op hop => ?_, fun _ hop => absurd hop List.not_mem_nil, fun _ _ => rfl⟩
      rw [List.mem_singleton.mp hc'] at hops
      exact call_below hN hc hops hop
    · intro s a s' _ hk hs
      exact keeps_step hk hs
  exact (hk q).buf i hi

end Keep

/-! ## What a session computes -/

/-- The payloads after an all-reduce of `count` elements: `e` is in chunk
`e / (count / N)`, and behind the last chunk nothing changes. -/
def allreduced (plus : Word β → Word β → Word β) (count : Nat) (x : Fin N → Nat → Word β) : Fin N → Nat → Word β :=
  fun r e => if h : e / (count / N) < N then ringSum plus x ⟨e / (count / N), h⟩ e else x r e

/-- The payloads after a session of calls. -/
def payload (plus : Word β → Word β → Word β) : List Call → (Fin N → Nat → Word β) → Fin N → Nat → Word β
  | [], x => x
  | .barrier :: cs, x => payload plus cs x
  | .allreduce count :: cs, x => payload plus cs (allreduced plus count x)

section Payload

variable {plus : Word β → Word β → Word β} {x y : Fin N → Nat → Word β}

/-- An element's sum reads that element alone. -/
theorem ringFold_congr {e : Nat} (h : ∀ r, x r e = y r e) (c : Fin N) (k : Nat) :
    ringFold plus x c k e = ringFold plus y c k e := by
  induction k with
  | zero => exact h c
  | succ k ih => rw [ringFold, ringFold, h, ih]

theorem allreduced_congr {e count : Nat} (h : ∀ r, x r e = y r e) (r : Fin N) :
    allreduced plus count x r e = allreduced plus count y r e := by
  unfold allreduced
  split
  · exact ringFold_congr h _ _
  · exact h r

theorem payload_congr {e : Nat} {calls : List Call} :
    ∀ {x y : Fin N → Nat → Word β}, (∀ r, x r e = y r e) → ∀ r, payload plus calls x r e = payload plus calls y r e := by
  induction calls with
  | nil =>
    intro x y h
    exact h
  | cons c cs ih =>
    intro x y h
    cases c with
    | barrier => exact ih h
    | allreduce count => exact ih (allreduced_congr h)

theorem count_div (R : Ring) : R.count / R.size = R.chunk :=
  Nat.mul_div_cancel_left _ (by have := R.two_le; omega)

/-- One all-reduce, element by element. -/
theorem result_word {R : Ring} {cap : Fin R.size → Nat} {mem : Fin R.size → Area → Mem β} {s : State R.size β}
    (h : (system plus cap [.allreduce R.count] mem).Reach s) {r : Fin R.size} (hf : (s.node r).ctl.Finished) (e : Nat) :
    ((s.node r).mem .buf).word e = allreduced plus R.count (fun r => (mem r .buf).word) r e := by
  have hmod : e % R.chunk < R.chunk := Nat.mod_lt _ R.chunk_pos
  have hdiv := Nat.div_add_mod e R.chunk
  unfold allreduced
  rw [count_div]
  split
  next hlt =>
    funext k
    have hj : 4 * (e % R.chunk) + k.val < R.bytes := by
      have := k.isLt
      simp only [Ring.bytes]
      omega
    have haddr : 4 * e + k.val = R.off ⟨e / R.chunk, hlt⟩ + (4 * (e % R.chunk) + k.val) := by
      have hmul : e / R.chunk * (R.chunk * 4) = 4 * (R.chunk * (e / R.chunk)) := by ring
      simp only [Ring.off, Ring.bytes]
      omega
    rw [Mem.word, haddr, result h hf _ hj, ← haddr, byteOf_word]
  next hge =>
    have hcount : R.count ≤ e := Nat.mul_le_of_le_div _ _ _ (Nat.not_lt.mp hge)
    funext k
    refine call_keeps R.two_le (count_valid R) h r ?_
    simp only [bufBytes, sizeofFloat]
    omega

variable (plus) in
/-- The run that makes the calls one by one. -/
theorem exists_session (hN : 2 ≤ N) (cap : Fin N → Nat) {calls : List Call} (hc : ∀ c ∈ calls, c.Valid N) :
    ∀ mem : Fin N → Area → Mem β, ∃ s, (system plus cap calls mem).Reach s ∧ (∀ r, (s.node r).ctl.Finished) ∧
      ∀ r e, ((s.node r).mem .buf).word e = payload plus calls (fun r => (mem r .buf).word) r e := by
  induction calls with
  | nil =>
    intro mem
    exact ⟨initState [] mem, .init rfl, fun r => ⟨rfl, rfl, rfl⟩, fun r e => rfl⟩
  | cons c cs ih =>
    intro mem
    have hv : c.Valid N := hc c List.mem_cons_self
    have hone : ∀ c' ∈ [c], c'.Valid N := by simpa using hv
    obtain ⟨s, hs, hf⟩ := exists_complete hN plus cap hone mem
    obtain ⟨t, ht, hft, hval⟩ := ih (fun c' hc' => hc c' (List.mem_cons_of_mem _ hc')) fun r => (s.node r).mem
    refine ⟨t, reach_next hN hv hs hf ht, hft, fun r e => ?_⟩
    rw [hval r e]
    cases c with
    | barrier =>
      refine payload_congr (fun q => ?_) r
      funext k
      exact call_keeps hN hv hs q (Nat.zero_le _)
    | allreduce count =>
      obtain ⟨⟨chunk, rfl⟩, hpos, hfit⟩ := hv
      let R : Ring := ⟨N, chunk, hN, Nat.pos_of_mul_pos_left hpos, by rw [← Nat.mul_assoc]; exact hfit⟩
      exact payload_congr (fun q => result_word (R := R) hs (hf q) e) r

end Payload

/-- However a session of barriers and all-reduces goes, each all-reduce takes
the sums the one before left, whatever the counts: a rank that is a call ahead of
its neighbours never mixes the two. -/
theorem session_payload (hN : 2 ≤ N) (plus : Word β → Word β → Word β) (cap : Fin N → Nat) (calls : List Call)
    (hc : ∀ c ∈ calls, c.Valid N) (mem : Fin N → Area → Mem β) (s : State N β)
    (h : (system plus cap calls mem).Reach s) (hf : ∀ r, (s.node r).ctl.Finished) :
    ∀ r e, ((s.node r).mem .buf).word e = payload plus calls (fun r => (mem r .buf).word) r e := by
  obtain ⟨s', hs', hf', hval⟩ := exists_session plus hN cap hc mem
  rw [session_determined plus cap cap calls mem h hf hs' hf']
  exact hval

/-- Three ranks sum six elements and then the first three again, over links of 0,
1 and 2 bytes. -/
theorem session_payload_three_ranks :
    ∃ s : State 3 Nat, (∀ r, (s.node r).ctl.Finished) ∧
      ∀ r, ((s.node r).mem .buf).word 0 0 = 9 ∧ ((s.node r).mem .buf).word 4 0 = 51 := by
  have hc : ∀ c ∈ [Call.allreduce 6, .barrier, .allreduce 3], c.Valid 3 := by
    simp [Call.Valid, sizeofFloat]
  obtain ⟨s, hs, hf⟩ := exists_complete (by decide) (fun a b k => a k + b k) (fun r : Fin 3 => r.val) hc
    fun r _ i => r.val + i
  refine ⟨s, hf, fun r => ?_⟩
  rw [session_payload (by decide) _ _ _ hc _ s hs hf r 0, session_payload (by decide) _ _ _ hc _ s hs hf r 4]
  revert r
  decide

end RdmaInfra.Collective.Blocking
