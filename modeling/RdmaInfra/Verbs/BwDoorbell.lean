/-
What the doorbell of `bw_rdma_write` says.

All writes send one buffer, and the client sets its last byte before it posts
the last of them. A payload too large to be sent inline is read by the NIC at
any time until it lands, so a write before the last that is still unread then
carries the flag as well. With one write in flight at a time, or only one at
all, none is (`Rung`); with any more, there is a run in which the one before
the last rings (`early_bell`).
-/
import RdmaInfra.Verbs.BwWrite

namespace RdmaInfra.Verbs.BwWrite

/-- The server is about to see the doorbell. -/
def Observes (p : Params) (s : State) : Prop := s.server.pc = .spin ∧ s.server.mem p.doorbell ≠ 0

/-! ## One write in flight -/

/-- The doorbell of the `n`-th write. -/
def Params.flag (p : Params) (n : Nat) : Nat := if n = p.totalIters then 1 else 0

theorem Params.flag_last {p : Params} {n : Nat} (h : n = p.totalIters) : p.flag n = 1 := if_pos h

theorem Params.flag_early {p : Params} {n : Nat} (h : n < p.totalIters) : p.flag n = 0 := if_neg (Nat.ne_of_lt h)

/-- The flag in the client's buffer, at each point of its program. -/
def BellAt (p : Params) (c : Client) : Prop :=
  match c.pc with
  | .clear => True
  | .stamp | .post => c.mem p.doorbell = p.flag (c.wr.posted + 1)
  | _ => c.mem p.doorbell = p.flag c.wr.posted

/-- The flag travels with the last write only. -/
structure Rung (p : Params) (s : State) : Prop where
  one : s.client.wr.One 0 0 p.size (s.client.mem p.doorbell)
  own : BellAt p s.client
  peer : s.server.mem p.doorbell = p.flag s.client.wr.landed

theorem Params.sub64_one (p : Params) : sub64 p.totalIters 1 = p.totalIters - 1 := by
  have hle := p.total_le
  unfold intMax at hle
  exact sub64_eq p.total_pos (by omega)

section OneInFlight

variable {p : Params} {s s' : State} {c : Client} {q : Writes Nat}

/-- Where the client is about to change its buffer or to post, nothing is in flight. -/
theorem idle_of_one (hp : p.depth = 1 ∨ p.totalIters = 1) (hw : Window p c)
    (hpc : c.pc = .clear ∨ c.pc = .mark ∨ c.pc = .stamp ∨ c.pc = .post) : c.wr.posted = c.wr.landed := by
  have hat := hw.pc
  have h1 := hw.counted.reaped_le
  have h2 := hw.counted.done_le
  have h3 := hw.counted.flight
  obtain hpc | hpc | hpc | hpc := hpc
  all_goals
    simp only [ClientAt, hpc] at hat
    omega

theorem Rung.client (hp : p.depth = 1 ∨ p.totalIters = 1) (hinline : p.maxInline < p.size) (hw : Window p s.client)
    (h : Rung p s) (hr : s.client.run p s.server.pc = some c) : Rung p { s with client := c } := by
  have hown := h.own
  have hat := hw.pc
  have hpos := p.total_pos
  have hscnt := hw.scnt
  unfold Client.run at hr
  split at hr <;> rename_i hpc <;> simp only [BellAt, hpc] at hown <;> simp only [ClientAt, hpc] at hat
  · cases hr
    have hidle := idle_of_one hp hw (by simp [hpc])
    refine ⟨?_, ?_, h.peer⟩
    · exact h.one.idle hidle
    · simp only [BellAt, Client.goto, Client.store, Function.update_self]
      exact (Params.flag_early (by omega)).symm
  · cases hr
    split
    · exact ⟨h.one, hown, h.peer⟩
    · exact ⟨h.one, hown, h.peer⟩
  · cases hr
    split
    · exact ⟨h.one, hown, h.peer⟩
    · exact ⟨h.one, hown, h.peer⟩
  · cases hr
    have hidle := idle_of_one hp hw (by simp [hpc])
    rw [p.sub64_one, hscnt]
    split
    · refine ⟨h.one.idle hidle, ?_, h.peer⟩
      simp only [BellAt, Client.goto, Client.store, Function.update_self]
      exact (Params.flag_last (by omega)).symm
    · refine ⟨h.one, ?_, h.peer⟩
      simp only [BellAt, Client.goto]
      rw [hown, Params.flag_early (by omega), Params.flag_early (by omega)]
  · cases hr
    split
    · exact ⟨h.one, hown, h.peer⟩
    · exact ⟨h.one, hown, h.peer⟩
  · cases hr
    have hidle := idle_of_one hp hw (by simp [hpc])
    have hsize := p.size_le
    unfold intMax at hsize
    unfold Client.postWrite
    rw [u32_of_lt (by omega), if_pos (sgeInBounds_of_le p.size_pos (by omega) (by omega)), if_neg (by omega)]
    exact ⟨h.one.post hidle p.size_pos, hown, h.peer⟩
  · cases hr
    exact ⟨h.one, hown, h.peer⟩
  · split at hr
    · cases hr
      exact ⟨h.one, hown, h.peer⟩
    · cases hr
  · cases hr
    exact ⟨h.one, hown, h.peer⟩
  all_goals cases hr

theorem Rung.poll {ne : Nat} (h : Rung p s) (hr : s.client.pollCq ne = some c) : Rung p { s with client := c } := by
  unfold Client.pollCq at hr
  split at hr
  · next hne =>
    cases hr
    have hown := h.own
    simp only [BellAt, hne.1] at hown
    exact ⟨⟨hne.2.2, h.one.done_le, h.one.flight⟩, hown, h.peer⟩
  · cases hr

/-- The server only reads its buffer. -/
theorem server_mem {v v' : Server} {peer : ClientPc} (hr : v.run p peer = some v') : v'.mem = v.mem := by
  unfold Server.run at hr
  split at hr
  · split at hr
    · cases hr
    · cases hr
      rfl
  · split at hr
    all_goals
      cases hr
      try rfl
  · cases hr
    rfl
  · split at hr
    · cases hr
      rfl
    · cases hr
  · cases hr

theorem Rung.server {v : Server} (h : Rung p s) (hr : s.server.run p s.client.pc = some v) :
    Rung p { s with server := v } := by
  refine ⟨h.one, h.own, ?_⟩
  simp only [server_mem hr]
  exact h.peer

/-- Only the counts of the queue matter for the client's own flag. -/
theorem BellAt.congr (h : BellAt p c) (hq : q.posted = c.wr.posted) : BellAt p { c with wr := q } := by
  unfold BellAt at h ⊢
  simpa only [hq] using h

/-- A write that lands whole carries the flag that is its own. -/
theorem Rung.land {n : Nat} {m : Mem Nat} (hp : p.depth = 1 ∨ p.totalIters = 1) (hw : Window p s.client)
    (h : Rung p s) (hl : s.client.wr.land n s.server.mem = some (q, m)) :
    Rung p ⟨{ s.server with mem := m }, { s.client with wr := q }⟩ := by
  obtain ⟨hone, hposted, -, -, hbell, -⟩ := h.one.land hl
  have hdoor : 0 + (p.size - 1) = p.doorbell := Nat.zero_add _
  rw [hdoor] at hbell
  refine ⟨hone, h.own.congr hposted, ?_⟩
  obtain ⟨hlanded, hm⟩ | ⟨hlanded, hflight, hm⟩ := hbell
  · simp only [hm, hlanded]
    exact h.peer
  · -- Something was in flight, so the client is not between a change of its flag and a post.
    have hown := h.own
    have hbusy (hpc : s.client.pc = .clear ∨ s.client.pc = .mark ∨ s.client.pc = .stamp ∨ s.client.pc = .post) :
        False := by
      have := idle_of_one hp hw hpc
      omega
    simp only [hm, hlanded, ← hflight]
    unfold BellAt at hown
    split at hown
    · exact (hbusy (by simp_all)).elim
    · exact (hbusy (by simp_all)).elim
    · exact (hbusy (by simp_all)).elim
    · exact hown

theorem Rung.step {a : Action} (hp : p.depth = 1 ∨ p.totalIters = 1) (hinline : p.maxInline < p.size)
    (hw : Window p s.client) (h : Rung p s) (hs : step p a s = some s') : Rung p s' := by
  cases a with
  | serverRun =>
    obtain ⟨v, hv, rfl⟩ := Option.map_eq_some_iff.mp hs
    exact h.server hv
  | clientRun =>
    obtain ⟨c, hc, rfl⟩ := Option.map_eq_some_iff.mp hs
    exact h.client hp hinline hw hc
  | poll ne =>
    obtain ⟨c, hc, rfl⟩ := Option.map_eq_some_iff.mp hs
    exact h.poll hc
  | fetch k n =>
    obtain ⟨q, hq, rfl⟩ := Option.map_eq_some_iff.mp hs
    obtain ⟨hone, hposted, hlanded, -⟩ := h.one.fetch (by rw [Nat.zero_add]; rfl) hq
    exact ⟨hone, h.own.congr hposted, by simp only [hlanded]; exact h.peer⟩
  | land n =>
    obtain ⟨⟨q, m⟩, hq, rfl⟩ := Option.map_eq_some_iff.mp hs
    exact h.land hp hw hq
  | complete =>
    obtain ⟨q, hq, rfl⟩ := Option.map_eq_some_iff.mp hs
    obtain ⟨hone, hposted, hlanded, -⟩ := h.one.complete hq
    exact ⟨hone, h.own.congr hposted, by simp only [hlanded]; exact h.peer⟩

theorem reach_rung (hp : p.depth = 1 ∨ p.totalIters = 1) (hinline : p.maxInline < p.size)
    (h : (system p).Reach s) : Rung p s := by
  refine Lts.Reach.inv (fun s h0 => ?_) (fun _ _ _ hr hi hst => hi.step hp hinline (reach_inv hr).window hst) h
  obtain ⟨m, m', hm, rfl⟩ := h0
  exact ⟨.init_one, trivial, hm.trans (Params.flag_early p.total_pos).symm⟩

end OneInFlight

/-! ## Two writes in flight -/

section TwoInFlight

variable {p : Params} {s : State} {k : Nat}

/-- A write of which nothing has been read. -/
def Params.unread (p : Params) : Write Nat := ⟨0, 0, p.size, [], 0⟩

/-- The client is at `pc` and the server spins; `k` writes have landed and completed. -/
structure At (p : Params) (pc : ClientPc) (k : Nat) (sq : List (Write Nat)) (s : State) : Prop where
  reach : (system p).Reach s
  client : s.client.pc = pc
  server : s.server.pc = .spin
  sq : s.client.wr.sq = sq
  landed : s.client.wr.landed = k
  done : s.client.wr.done = k

theorem At.posted {pc : ClientPc} {sq : List (Write Nat)} (h : At p pc k sq s) :
    s.client.wr.posted = k + sq.length := by
  rw [← (reach_inv h.reach).window.counted.flight, h.landed, h.sq]

theorem reach_run {c : Client} (h : (system p).Reach s) (hr : s.client.run p s.server.pc = some c) :
    (system p).Reach { s with client := c } := by
  refine Lts.Reach.next (a := .clientRun) h ?_
  simp only [system, step, hr, Option.map_some]

/-- From the test of the inner loop on to the next write. -/
theorem At.mark_of_room {sq : List (Write Nat)} (h : At p .inner k sq s) (hlt : k + sq.length < p.totalIters)
    (hroom : s.client.wr.posted - s.client.wr.reaped < p.depth) : ∃ s', At p .mark k sq s' := by
  have hw := (reach_inv h.reach).window
  have hposted := h.posted
  have hscnt := hw.scnt
  have hrun : s.client.run p s.server.pc = some (s.client.goto .mark) := by
    simp only [Client.run, h.client, hw.sub64]
    rw [if_pos ⟨by omega, hroom⟩]
  exact ⟨_, reach_run h.reach hrun, rfl, h.server, h.sq, h.landed, h.done⟩

/-- Where the window is full, one write is reaped and the inner loop tested again. -/
theorem At.reap {sq : List (Write Nat)} (h : At p .inner k sq s) (hlt : k + sq.length < p.totalIters)
    (hsq : sq.length < p.depth) (hfull : ¬ s.client.wr.posted - s.client.wr.reaped < p.depth) :
    ∃ s', At p .inner k sq s' ∧ s'.client.wr.posted - s'.client.wr.reaped < p.depth := by
  have hw := (reach_inv h.reach).window
  have hposted := h.posted
  have hwin := hw.window
  have hccnt := hw.ccnt
  have hint := p.total_le
  have hdone : s.client.wr.reaped + 1 ≤ s.client.wr.done := by rw [h.done]; omega
  unfold intMax at hint
  have hpoll : s.client.run p s.server.pc = some (s.client.goto .poll) := by
    simp only [Client.run, h.client, hw.sub64]
    rw [if_neg fun hc => hfull hc.2]
  have h1 := reach_run h.reach hpoll
  let c : Client :=
    { s.client with wr := { s.client.wr with reaped := s.client.wr.reaped + 1 }, ccnt := s.client.ccnt + 1, pc := .outer }
  have h2 : (system p).Reach { s with client := c } := by
    refine Lts.Reach.next (a := .poll 1) h1 ?_
    simp only [system, step, Client.pollCq, Client.goto]
    rw [if_pos ⟨trivial, by decide, hdone⟩, sizeT_of_lt (by omega)]
    rfl
  have hinner : c.run p s.server.pc = some (c.goto .inner) := by
    simp only [Client.run, c]
    rw [if_pos (by omega)]
  exact ⟨_, ⟨reach_run h2 hinner, rfl, h.server, h.sq, h.landed, h.done⟩, by simp only [Client.goto, c]; omega⟩

theorem At.mark {sq : List (Write Nat)} (h : At p .inner k sq s) (hlt : k + sq.length < p.totalIters)
    (hsq : sq.length < p.depth) : ∃ s', At p .mark k sq s' := by
  by_cases hroom : s.client.wr.posted - s.client.wr.reaped < p.depth
  · exact h.mark_of_room hlt hroom
  · obtain ⟨s', h', hroom'⟩ := h.reap hlt hsq hroom
    exact h'.mark_of_room hlt hroom'

/-- A write before the last is posted and not read. -/
theorem At.post (hinline : p.maxInline < p.size) (h : At p .mark k [] s) (hlt : k + 1 < p.totalIters) :
    ∃ s', At p .inner k [p.unread] s' := by
  have hscnt := (reach_inv h.reach).window.scnt
  have hposted := h.posted
  have hsize := p.size_le
  have hint := p.total_le
  unfold intMax at hsize hint
  simp only [List.length_nil, Nat.add_zero] at hposted
  have hstamp : s.client.run p s.server.pc = some (s.client.goto .stamp) := by
    simp only [Client.run, h.client, p.sub64_one]
    rw [if_neg (by omega)]
  let c := (if s.client.scnt = kWarmup then
    { s.client.goto .stamp with bwStart := s.client.bwStart ++ [s.client.scnt] } else s.client.goto .stamp).goto .post
  have h0 := reach_run h.reach hstamp
  have h1 : (system p).Reach { s with client := c } :=
    reach_run (s := { s with client := s.client.goto .stamp }) (c := c) h0 rfl
  have hwr : c.wr = s.client.wr := by
    simp only [c, Client.goto]
    split <;> rfl
  have hpost : c.run p s.server.pc = some (c.postWrite p) := rfl
  have hwrite : (c.postWrite p).wr = s.client.wr.post 0 0 p.size ∧ (c.postWrite p).pc = .inner := by
    unfold Client.postWrite
    rw [u32_of_lt (by omega), if_pos (sgeInBounds_of_le p.size_pos (by omega) (by omega)), if_neg (by omega), hwr]
    exact ⟨rfl, rfl⟩
  refine ⟨_, reach_run h1 hpost, hwrite.2, h.server, ?_, ?_, ?_⟩
  · simp only [hwrite.1, Writes.post, h.sq]
    rfl
  · simp only [hwrite.1, Writes.post, h.landed]
  · simp only [hwrite.1, Writes.post, h.done]

/-- The write in flight is read as the buffer is now, and lands. -/
theorem At.land {pc : ClientPc} (h : At p pc k [p.unread] s) :
    ∃ s', (system p).Reach s' ∧ s'.client = { s.client with wr := { s.client.wr with sq := [], landed := k + 1 } } ∧
      s'.server.pc = .spin ∧ s'.server.mem p.doorbell = s.client.mem p.doorbell := by
  have hpos := p.size_pos
  let data := s.client.mem.read 0 p.size
  let q : Writes Nat := { s.client.wr with sq := [{ p.unread with data := data }] }
  have hlen : data.length = p.size := Mem.length_read
  have htake : data.take p.size = data := List.take_of_length_le hlen.le
  have h1 : (system p).Reach { s with client := { s.client with wr := q } } := by
    refine Lts.Reach.next (a := .fetch 0 p.size) h.reach ?_
    simp [system, step, Writes.fetch, h.sq, Params.unread, hpos, q, data]
  have h2 : (system p).Reach ⟨{ s.server with mem := s.server.mem.write 0 data },
      { s.client with wr := { s.client.wr with sq := [], landed := k + 1 } }⟩ := by
    refine Lts.Reach.next (a := .land p.size) h1 ?_
    simp [system, step, Writes.land, Params.unread, hpos, q, hlen, htake, h.landed]
  refine ⟨_, h2, rfl, h.server, ?_⟩
  have hget : data[p.doorbell]? = some (s.client.mem (0 + p.doorbell)) :=
    Mem.getElem?_read (show p.size - 1 < p.size by omega)
  have := Mem.write_inside (m := s.server.mem) (a := 0) hget
  simpa using this

theorem At.drain (h : At p .inner k [p.unread] s) : ∃ s', At p .inner (k + 1) [] s' := by
  obtain ⟨s', hreach, hc, hv, -⟩ := h.land
  have hdone := h.done
  refine ⟨{ s' with client := { s'.client with wr := { s'.client.wr with done := k + 1 } } }, ?_, ?_, hv, ?_, ?_, rfl⟩
  · refine Lts.Reach.next (a := .complete) hreach ?_
    simp [system, step, Writes.complete, hc, hdone]
  · rw [hc]
    exact h.client
  · rw [hc]
  · rw [hc]

/-- Every write but the last can be posted, read and completed alone. -/
theorem exists_at (hinline : p.maxInline < p.size) (hk : k + 1 ≤ p.totalIters) : ∃ s, At p .inner k [] s := by
  induction k with
  | zero =>
    have h0 : (system p).Reach ⟨⟨.spin, fun _ => 0⟩, ⟨.clear, fun _ => 0, .init, 0, 0, []⟩⟩ :=
      Lts.Reach.init ⟨_, _, rfl, rfl⟩
    have h1 := reach_run h0 rfl
    have hinner : Client.run p .spin (((⟨.clear, fun _ => 0, .init, 0, 0, []⟩ : Client).store p 0).goto .outer) =
        some ((((⟨.clear, fun _ => 0, .init, 0, 0, []⟩ : Client).store p 0).goto .outer).goto .inner) :=
      congrArg some (if_pos p.total_pos)
    exact ⟨_, reach_run h1 hinner, rfl, rfl, rfl, rfl, rfl⟩
  | succ k ih =>
    obtain ⟨s, hs⟩ := ih (by omega)
    obtain ⟨s', hs'⟩ := hs.mark (by simp; omega) p.depth_pos
    obtain ⟨s'', hs''⟩ := hs'.post hinline (by omega)
    exact hs''.drain

/-- With room for two writes, the one before the last can ring the doorbell. -/
theorem early_bell (hinline : p.maxInline < p.size) (hd : 1 < p.depth) (ht : 1 < p.totalIters) :
    ∃ s, (system p).Reach s ∧ Observes p s ∧ s.client.wr.landed + 1 = p.totalIters := by
  obtain ⟨s0, h0⟩ := exists_at (k := p.totalIters - 2) hinline (by omega)
  obtain ⟨s1, h1⟩ := h0.mark (by simp; omega) p.depth_pos
  obtain ⟨s2, h2⟩ := h1.post hinline (by omega)
  obtain ⟨s3, h3⟩ := h2.mark (by simp; omega) (by simpa using hd)
  -- The flag is set while the write before the last is still unread.
  have hscnt : s3.client.scnt = p.totalIters - 1 := by
    rw [(reach_inv h3.reach).window.scnt, h3.posted]
    simp only [List.length_singleton]
    omega
  have hrun : s3.client.run p s3.server.pc = some ((s3.client.store p 1).goto .stamp) := by
    simp only [Client.run, h3.client, p.sub64_one, hscnt, if_true]
  have h4 : At p .stamp (p.totalIters - 2) [p.unread] { s3 with client := (s3.client.store p 1).goto .stamp } :=
    ⟨reach_run h3.reach hrun, rfl, h3.server, h3.sq, h3.landed, h3.done⟩
  obtain ⟨s5, hreach, hc, hv, hm⟩ := h4.land
  refine ⟨s5, hreach, ⟨hv, ?_⟩, ?_⟩
  · rw [hm]
    simp [Client.goto, Client.store]
  · rw [hc]
    simp only
    omega

end TwoInFlight

/-! ## What the doorbell announces -/

/-- Whenever the server sees the doorbell, the last write has landed. -/
def DoorbellLast (p : Params) : Prop :=
  ∀ s, (system p).Reach s → Observes p s → s.client.wr.landed = p.totalIters

/-- A payload the NIC reads by itself needs the window closed. -/
theorem doorbell_last_iff (p : Params) (hinline : p.maxInline < p.size) :
    DoorbellLast p ↔ p.depth = 1 ∨ p.totalIters = 1 := by
  have hd := p.depth_pos
  have ht := p.total_pos
  constructor
  · intro hlast
    by_contra hcon
    obtain ⟨s, hreach, hobs, hlanded⟩ := early_bell hinline (by omega) (by omega)
    have := hlast s hreach hobs
    omega
  · intro hp s hreach hobs
    have hpeer := (reach_rung hp hinline hreach).peer
    by_contra hne
    exact hobs.2 (hpeer.trans (if_neg hne))

/-- The default options, with a window of `depth`. -/
def defaultsAt (depth : Nat) (hpos : 0 < depth) (hle : depth ≤ 127) : Params where
  size := 4096
  depth := depth
  totalIters := kWarmup + 1000
  maxInline := 220
  size_pos := by decide
  depth_pos := hpos
  total_pos := by decide
  size_le := by decide
  depth_le := hle.trans (by decide)
  total_le := by decide

theorem doorbell_last_depthOne : DoorbellLast (defaultsAt 1 (by decide) (by decide)) :=
  (doorbell_last_iff _ (by decide)).mpr (.inl rfl)

/-- With the default depth the doorbell can ring one write early. -/
theorem doorbell_rings_early : ¬ DoorbellLast (defaultsAt 16 (by decide) (by decide)) := by
  intro hlast
  obtain ⟨s, hreach, hobs, hlanded⟩ :=
    early_bell (p := defaultsAt 16 (by decide) (by decide)) (by decide) (by decide) (by decide)
  have := hlast s hreach hobs
  omega

end RdmaInfra.Verbs.BwWrite
