/-
Messages and receives stay aligned over whole sessions on the posted path.

Fast ranks run ahead into later calls and nothing on the wire says which call a
message is for. The `k`-th send of a rank and the `k`-th receive of its right
neighbour meet because both queue pairs are FIFO (`SessionInv`), and they are of
one call and one step because all kinds of operations go through the calls and
steps in one order (`tags_ofKind`).
-/
import RdmaInfra.Collective.Ring
import RdmaInfra.Collective.SessionInv

namespace RdmaInfra.Collective

/-- An all-reduce is of whole chunks of at least one float and under 4 GB. -/
def Call.Chunked (N : Nat) : Call → Prop
  | .allreduce count => N ∣ count ∧ 0 < count ∧ count / N * sizeofFloat < 2 ^ 32
  | .barrier => True

namespace Posted

open Verbs (sgeInBounds)

variable {N : Nat} {β : Type}

/-! ## No call of a session fails -/

section Ring

variable {R : Ring} {r : Fin R.size}

theorem callRounds_ring (R : Ring) (r : Fin R.size) :
    callRounds (worldOf r) (.allreduce R.count) =
      ringPostedRounds (worldOf r) (bufH R) (bufH R) (stageH R) R.chunk := by
  obtain ⟨hdiv, hmod, h1, h2, h3⟩ := allreduce_sizes R r
  simp only [callRounds, hdiv, hmod, h1, chunkBytes_eq, h2, h3, ne_eq, not_true, if_false]
  rfl

theorem fits_postRecv (hb : R.bytes < 2 ^ 32) {s : Nat} (hs : s < R.steps) :
    Fits (postRecv (worldOf r) (bufH R) (stageH R) R.chunk s) := by
  have hf := R.bytes_fit
  have hp := R.bytes_pos
  have hw : (worldOf r).size = R.size := rfl
  simp only [postRecv, chunkBytes_eq, hw, recvChunk_eq hs, sizeT_off]
  split
  · have hm : s % 2 * R.bytes ≤ 1 * R.bytes := Nat.mul_le_mul_right _ (by omega)
    have h2 := R.two_bytes_le
    simp only [Fits, u32_of_lt hb, stageH]
    rw [sizeT_of_lt (by omega)]
    exact Verbs.sgeInBounds_of_le hp (by omega) (by omega)
  · have := R.off_add_le (chunkAt r (recvDist R.size s))
    simp only [Fits, u32_of_lt hb, bufH]
    exact Verbs.sgeInBounds_of_le hp (by omega) hf

theorem fits_postSend (hb : R.bytes < 2 ^ 32) {s : Nat} (hs : s < R.steps) :
    Fits (postSend (worldOf r) (bufH R) R.chunk s) := by
  have := R.off_add_le (chunkAt r (sendDist R.size s))
  simp only [postSend, Fits, chunkBytes_eq, sendChunk_eq hs, sizeT_off, u32_of_lt hb, bufH]
  exact Verbs.sgeInBounds_of_le R.bytes_pos (by omega) R.bytes_fit

theorem fits_callRounds (hb : R.bytes < 2 ^ 32) {s : Nat} {op : Op}
    (h : (s, op) ∈ callRounds (worldOf r) (.allreduce R.count)) : Fits op := by
  have hN := R.two_le
  rw [callRounds_ring] at h
  have hw : 0 < (worldOf r).steps := by simp only [World.steps, worldOf]; omega
  obtain ⟨hs, rfl | rfl | rfl | rfl | hsum⟩ := mem_ringPostedRounds hw h
  · exact fits_postRecv hb hs
  · exact fits_postSend hb hs
  · trivial
  · trivial
  · unfold postedSum at hsum
    split at hsum
    · rw [List.mem_singleton.mp hsum]
      trivial
    · cases hsum

end Ring

/-- Of the calls of a session none is refused, and every post passes. -/
theorem runs_of_chunked (hN : 2 ≤ N) (hInt : N < 2 ^ 31) {calls : List Call} (hc : ∀ c ∈ calls, c.Chunked N)
    (r : Fin N) : Runs calls r := by
  have hring : ∀ {count}, Call.allreduce count ∈ calls → ∃ R : Ring, R.size = N ∧ R.count = count ∧ R.bytes < 2 ^ 32 := by
    intro count hm
    obtain ⟨hd, hpos, hlt⟩ := hc _ hm
    have hchunk : 0 < count / N := Nat.div_pos (Nat.le_of_dvd hpos hd) (by omega)
    exact ⟨Ring.ofInt N (count / N) hN hInt hchunk hlt, rfl, Nat.mul_div_cancel' hd, hlt⟩
  refine ⟨fun c hm => ?_, fun e he => ?_⟩
  · cases c with
    | allreduce count =>
      obtain ⟨R, rfl, rfl, -⟩ := hring hm
      rw [allreduce_ops]
      rfl
    | barrier => rfl
  · obtain ⟨c, -, hcall, hmem⟩ := mem_events he
    have hm := List.mem_of_getElem? hcall
    cases c with
    | allreduce count =>
      obtain ⟨R, rfl, rfl, hb⟩ := hring hm
      exact fits_callRounds hb hmem
    | barrier =>
      simp only [callRounds, worldBarrier, List.mem_map] at hmem
      obtain ⟨op, hop, heq⟩ := hmem
      obtain ⟨-, rfl⟩ := Prod.mk.inj heq
      split at hop
      · cases hop
      · simp only [Bool.not_false, if_true, List.mem_append, List.mem_cons, List.not_mem_nil, or_false] at hop
        rcases hop with (hop | hop) | hop | hop <;> rw [hop] <;> trivial

/-! ## Events of the same number -/

section Events

variable {w : World} {calls : List Call} {kind : Kind} {e : Event} {k : Nat}

/-- Operations of the same number are of one call and one step. -/
theorem same_step (h : (ofKind kind (events w 0 calls))[k]? = some e) (w' : World) (hw : w.size = w'.size) (kind' : Kind) :
    ∃ e', (ofKind kind' (events w' 0 calls))[k]? = some e' ∧ e'.call = e.call ∧ e'.round = e.round := by
  have ht : (tags w'.size 0 calls)[k]? = some (e.call, e.round) := by
    rw [← hw, ← tags_ofKind w kind, List.getElem?_map, h]
    rfl
  rw [← tags_ofKind w' kind', List.getElem?_map, Option.map_eq_some_iff] at ht
  obtain ⟨e', he', heq⟩ := ht
  exact ⟨e', he', (Prod.mk.inj heq).1, (Prod.mk.inj heq).2⟩

theorem ofKind_of_lt {done es : List Event} (h : done <+: es) (hk : k < tally kind done) :
    ∃ e, (ofKind kind es)[k]? = some e ∧ postAt kind es k = wrOf e.op := by
  have hlt : k < (ofKind kind es).length := Nat.lt_of_lt_of_le hk (tally_le kind h)
  refine ⟨(ofKind kind es)[k], List.getElem?_eq_getElem hlt, ?_⟩
  rw [postAt, List.getElem?_eq_getElem hlt]
  rfl

/-- What the call of an event says of its post. -/
theorem wr_of_event (hk : kind = .send ∨ kind = .recv) (h : (ofKind kind (events w 0 calls))[k]? = some e) :
    ∃ c, calls[e.call]? = some c ∧ (wrOf e.op).size = msgLen w.size c ∧ (c = .barrier → (wrOf e.op).area = .scratch) := by
  obtain ⟨hm, hop⟩ := List.mem_filter.mp (List.mem_of_getElem? h)
  obtain ⟨c, -, hc, hmem⟩ := mem_events hm
  exact ⟨c, by simpa using hc, wr_of_mem hmem hk (by simpa using hop)⟩

end Events

/-! ## What a session keeps aligned -/

section Aligned

variable {calls before : List Call} {r : Fin N} {n : Node β} {done rest : List Event} {e : Event} {got out : Nat}

/-- `w` is the `k`-th send of rank `r` and `v` the `k`-th receive of its right
neighbour; they are of one length, one call and one step, and a barrier's goes
to the scratch buffer. -/
def Matched (calls : List Call) (r : Fin N) (k : Nat) (w v : Wr) : Prop :=
  ∃ es er : Event, (ofKind .send (events (worldOf r) 0 calls))[k]? = some es ∧
    (ofKind .recv (events (worldOf (right r)) 0 calls))[k]? = some er ∧ w = wrOf es.op ∧ v = wrOf er.op ∧
    er.call = es.call ∧ er.round = es.round ∧ w.size = v.size ∧ (calls[es.call]? = some .barrier → v.area = .scratch)

/-- The event a rank's program is at. -/
def current (calls : List Call) (r : Fin N) (c : Ctl) : Option Event :=
  let es := events (worldOf r) 0 (calls.take (calls.length - c.todo.length))
  es[es.length - c.ops.length]?

/-- A rank at a poll takes the completion `wc`: it is that of its `k`-th post of
the kind, of the poll's own call and step. -/
def Completes (calls : List Call) (r : Fin N) (c : Ctl) (kind : Kind) (k : Nat) (wc : Wc) : Prop :=
  ∃ e ep : Event, current calls r c = some e ∧ (ofKind kind (events (worldOf r) 0 calls))[k]? = some ep ∧
    ep.call = e.call ∧ ep.round = e.round ∧ wc.id = (wrOf ep.op).id ∧
    wc.kind = if kind = .recv then .recv else .send

/-- A state the actions `as` lead to. The heads of a send queue and of the right
neighbour's receive queue are what `place` takes; the completions at hand and
those on their way are of the last messages placed. -/
structure Aligned (calls : List Call) (as : List (Action N)) (s : State N β) : Prop where
  ok : ∀ r, (s r).ctl.failed = false
  links : ∀ r w sq v rq, (s r).sq = w :: sq → (s (right r)).rq = v :: rq → Matched calls r (placedOn r as) w.wr v
  pollLeft : ∀ r ops wc q, (s r).ctl.ops = .pollLeft :: ops → (s r).leftCq = wc :: q →
    Completes calls r (s r).ctl .recv (placedOn (left r) as - ((s r).leftCq.length + (s r).arrived.length)) wc
  pollRight : ∀ r ops wc q, (s r).ctl.ops = .pollRight :: ops → (s r).rightCq = wc :: q →
    Completes calls r (s r).ctl .send (placedOn r as - ((s r).rightCq.length + (s r).acked.length)) wc
  returned : ∀ r, (s r).ctl.ops = [] → (s r).rq = [] ∧ (s r).arrived = [] ∧ (s r).leftCq = [] ∧
    (s r).sq = [] ∧ (s r).acked = [] ∧ (s r).rightCq = []

theorem matched_of_position {m : Node β} {before' : List Call} {done' rest' : List Event} {k got' : Nat}
    (hn : Position calls r n before done rest got k) (hm : Position calls (right r) m before' done' rest' k got')
    {w sq v rq} (hsq : n.sq = w :: sq) (hrq : m.rq = v :: rq) : Matched calls r k w.wr v := by
  obtain ⟨hw, hwlt, -⟩ := hn.send.place { n with sq := sq, acked := n.acked ++ [w.wr.id] } hsq rfl rfl rfl
  obtain ⟨hv, hvlt, -⟩ := hm.recv.fill w.data hrq
  obtain ⟨es, hes, hse⟩ := ofKind_of_lt hn.done_prefix hwlt
  obtain ⟨er, her, hre⟩ := ofKind_of_lt hm.done_prefix hvlt
  obtain ⟨er', her', hcall, hround⟩ := same_step hes (worldOf (right r)) rfl .recv
  obtain rfl : er = er' := Option.some.inj (her.symm.trans her')
  obtain ⟨c, hc, hsize, -⟩ := wr_of_event (.inl rfl) hes
  obtain ⟨c', hc', hsize', harea⟩ := wr_of_event (.inr rfl) her
  obtain rfl : c = c' := Option.some.inj (by rw [← hc, ← hc', hcall])
  refine ⟨es, er, hes, her, hw.trans hse, hv.trans hre, hcall, hround, ?_, fun hb => ?_⟩
  · rw [hw, hv, hse, hre, hsize, hsize']
    rfl
  · rw [hv, hre]
    exact harea (Option.some.inj (hc.symm.trans hb))

theorem Behind.length {ops : List Op} (h : Behind rest ops) : ops.length = rest.length := by
  rcases h with rfl | ⟨e, es, d, s, i, k, rfl, -, rfl⟩
  · rw [List.length_map]
  · rw [List.length_cons, List.length_cons, List.length_map]

theorem Position.current (h : Position calls r n before done (e :: rest) got out) (hok : n.ctl.failed = false) :
    current calls r n.ctl = some e := by
  obtain ⟨hcalls, hb⟩ := h.ctl hok
  have hbefore : calls.take (calls.length - n.ctl.todo.length) = before := by
    rw [← hcalls, List.length_append, Nat.add_sub_cancel, List.take_left]
  have hlen := hb.length
  rw [List.length_cons] at hlen
  simp only [Posted.current, hbefore, h.split, hlen, List.length_append, List.length_cons, Nat.add_sub_cancel,
    List.getElem?_append_right (Nat.le_refl _), Nat.sub_self]
  rfl

theorem Position.pollLeft (h : Position calls r n before done rest got out) (hok : n.ctl.failed = false)
    {ops wc q} (ho : n.ctl.ops = .pollLeft :: ops) (hq : n.leftCq = wc :: q) :
    Completes calls r n.ctl .recv (got - (n.leftCq.length + n.arrived.length)) wc := by
  obtain ⟨-, hb⟩ := h.ctl hok
  rw [ho] at hb
  obtain ⟨e, es, rfl, he, -⟩ := hb.cons rfl
  have hk : kindOf e.op = some .pollLeft := by rw [he]; rfl
  obtain ⟨hwc, hlt, -⟩ := h.recv.poll { n with leftCq := q } hq rfl rfl rfl
  have hlen := h.recv.length_completed
  rw [List.length_append, List.length_map] at hlen
  have hidx : got - (n.leftCq.length + n.arrived.length) = tally .pollLeft done := by omega
  obtain ⟨ep, hep, hcall, hround⟩ := same_step (ofKind_tally h.next_prefix hk) (worldOf r) rfl .recv
  refine ⟨e, ep, h.current hok, by rw [hidx]; exact hep, hcall, hround, ?_, by rw [hwc]; rfl⟩
  rw [hwc, postAt, hep]
  rfl

theorem Position.pollRight (h : Position calls r n before done rest got out) (hok : n.ctl.failed = false)
    {ops wc q} (ho : n.ctl.ops = .pollRight :: ops) (hq : n.rightCq = wc :: q) :
    Completes calls r n.ctl .send (out - (n.rightCq.length + n.acked.length)) wc := by
  obtain ⟨-, hb⟩ := h.ctl hok
  rw [ho] at hb
  obtain ⟨e, es, rfl, he, -⟩ := hb.cons rfl
  have hk : kindOf e.op = some .pollRight := by rw [he]; rfl
  obtain ⟨hwc, hlt, -⟩ := h.send.poll { n with rightCq := q } hq rfl rfl rfl
  have hlen := h.send.length_completed
  rw [List.length_append, List.length_map] at hlen
  have hidx : out - (n.rightCq.length + n.acked.length) = tally .pollRight done := by omega
  obtain ⟨ep, hep, hcall, hround⟩ := same_step (ofKind_tally h.next_prefix hk) (worldOf r) rfl .send
  refine ⟨e, ep, h.current hok, by rw [hidx]; exact hep, hcall, hround, ?_, by rw [hwc]; rfl⟩
  rw [hwc, postAt, hep]
  rfl

/-- Between two calls a rank has nothing outstanding. -/
theorem Position.returned (h : Position calls r n before done rest got out) (hok : n.ctl.failed = false)
    (ho : n.ctl.ops = []) :
    n.rq = [] ∧ n.arrived = [] ∧ n.leftCq = [] ∧ n.sq = [] ∧ n.acked = [] ∧ n.rightCq = [] := by
  obtain ⟨-, hb⟩ := h.ctl hok
  rw [ho] at hb
  have hdone : events (worldOf r) 0 before = done := by rw [h.split, hb.nil, List.append_nil]
  have htally : ∀ kind, tally kind done = (tags (worldOf r).size 0 before).length := by
    intro kind
    rw [tally, ← hdone, length_ofKind]
  have hr := h.recv
  have hs := h.send
  rw [htally, htally] at hr hs
  obtain ⟨h1, hc⟩ := hr.empty
  obtain ⟨h4, hc'⟩ := hs.empty
  obtain ⟨h2, h3⟩ := List.append_eq_nil_iff.mp hc
  obtain ⟨h5, h6⟩ := List.append_eq_nil_iff.mp hc'
  exact ⟨h1, List.map_eq_nil_iff.mp h3, h2, List.map_eq_nil_iff.mp h4, List.map_eq_nil_iff.mp h6, h5⟩

/-- A rank whose calls all pass their checks never fails. -/
theorem Position.ok (h : Position calls r n before done rest got out) (hr : Runs calls r) : n.ctl.failed = false := by
  by_contra hf
  exact (h.stopped (by simpa using hf)).2.2 hr

/-- Over any session of barriers and all-reduces, in any interleaving, every
message goes into the receive of its own call and step and every poll takes its
own step's completion; a call that returns leaves nothing outstanding. -/
theorem session_aligned {β : Type} (N : Nat) (hN : 2 ≤ N) (hInt : N < 2 ^ 31) (plus : Word β → Word β → Word β)
    (calls : List Call) (hc : ∀ c ∈ calls, c.Chunked N) (mem : Fin N → Area → Mem β) (as : List (Action N))
    (s : State N β) (he : (system plus calls mem).exec as (initState calls mem) = some s) : Aligned calls as s := by
  have hpos := run_position hN he
  have hok : ∀ r, (s r).ctl.failed = false := by
    intro r
    obtain ⟨before, done, rest, h⟩ := hpos r
    exact h.ok (runs_of_chunked hN hInt hc r)
  refine ⟨hok, ?_, ?_, ?_, ?_⟩
  · intro r w sq v rq hsq hrq
    obtain ⟨before, done, rest, h⟩ := hpos r
    obtain ⟨before', done', rest', h'⟩ := hpos (right r)
    rw [left_right] at h'
    exact matched_of_position h h' hsq hrq
  · intro r ops wc q ho hq
    obtain ⟨before, done, rest, h⟩ := hpos r
    exact h.pollLeft (hok r) ho hq
  · intro r ops wc q ho hq
    obtain ⟨before, done, rest, h⟩ := hpos r
    exact h.pollRight (hok r) ho hq
  · intro r ho
    obtain ⟨before, done, rest, h⟩ := hpos r
    exact h.returned (hok r) ho

/-- Rank 0 of two is back from the barrier and sends the first chunk of the next
call, while rank 1 has polled nothing of the barrier. -/
theorem session_aligned_drift :
    let calls := [Call.barrier, .allreduce 2]
    let mem : Fin 2 → Area → Mem Nat := fun r _ _ => r
    let as : List (Action 2) := [.run 0, .run 0, .run 0, .run 1, .run 1, .run 1, .fetch 0 0, .place 0, .fetch 1 0,
      .place 1, .recvDone 0, .sendDone 0, .run 0, .run 0, .run 0, .run 0, .run 0, .recvDone 1]
    ∃ s, (system (fun a b k => a k + b k) calls mem).exec as (initState calls mem) = some s ∧ (s 0).ctl.todo = [] ∧
      (s 0).sq.length = 1 ∧ (s 1).ctl.ops = [.pollLeft, .pollRight] ∧ Aligned calls as s := by
  have hc : ∀ c ∈ [Call.barrier, .allreduce 2], c.Chunked 2 := by simp [Call.Chunked, sizeofFloat]
  intro calls mem as
  have hrun : ∃ s, (system (fun a b k => a k + b k) calls mem).exec as (initState calls mem) = some s ∧
      (s 0).ctl.todo = [] ∧ (s 0).sq.length = 1 ∧ (s 1).ctl.ops = [.pollLeft, .pollRight] :=
    ⟨_, rfl, rfl, rfl, rfl⟩
  obtain ⟨s, hs, h0, h1, h2⟩ := hrun
  exact ⟨s, hs, h0, h1, h2, session_aligned 2 (by decide) (by decide) _ _ hc _ _ _ hs⟩

end Aligned

end Posted
end RdmaInfra.Collective
