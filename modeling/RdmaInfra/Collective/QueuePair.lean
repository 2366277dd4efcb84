/-
What a rank's two queue pairs hold, by counting.

The `k`-th receive a rank posts is `f k`, and likewise its sends. As both queues
are FIFO, how many requests have been posted, served and polled says exactly which
ones each queue holds: a receive queue and a send queue are a `WorkQueue` each,
whose completions are on their way or in the completion queue. Each lemma is one
thing a rank or a NIC does to a queue pair. `SendSide` adds what the outstanding
sends carry.
-/
import RdmaInfra.Queue
import RdmaInfra.Collective.Posted

namespace RdmaInfra.Collective.Posted

variable {β : Type}

/-! ## The order of a queue pair -/

/-- Receives, served when a message fills them; completions carry the ids. -/
abbrev RecvQueue (f : Nat → Wr) (n : Node β) (posted polled got : Nat) : Prop :=
  WorkQueue f (fun k => Wc.mk .recv (f k).id) n.rq (n.leftCq ++ n.arrived.map (Wc.mk .recv)) posted polled got

/-- Sends, served when they are placed. The bytes fetched are no part of a request. -/
abbrev SendQueue (f : Nat → Wr) (n : Node β) (sent polled out : Nat) : Prop :=
  WorkQueue f (fun k => Wc.mk .send (f k).id) (n.sq.map SendWr.wr) (n.rightCq ++ n.acked.map (Wc.mk .send)) sent polled out

/-- An id is on its way to the completion queue, or in it. -/
theorem mem_late {kind : Verbs.WcKind} {cq : List Wc} {late : List Nat} {id : Nat} (h : id ∈ late ++ cq.map Wc.id) :
    ∃ wc ∈ cq ++ late.map (Wc.mk kind), wc.id = id := by
  rcases List.mem_append.mp h with hl | hc
  · exact ⟨⟨kind, id⟩, List.mem_append_right _ (List.mem_map_of_mem hl), rfl⟩
  · obtain ⟨wc, hwc, rfl⟩ := List.mem_map.mp hc
    exact ⟨wc, List.mem_append_left _ hwc, rfl⟩

theorem map_wr_set {sq : List (SendWr β)} {k : Nat} {w : SendWr β} {data : List β} (h : sq[k]? = some w) :
    (sq.set k ⟨w.wr, data⟩).map SendWr.wr = sq.map SendWr.wr := by
  obtain ⟨hlt, hw⟩ := List.getElem?_eq_some_iff.mp h
  refine List.ext_getElem? fun i => ?_
  simp only [List.getElem?_map, List.getElem?_set]
  split
  next hi => subst hi; simp [hlt, hw]
  · rfl

namespace RecvQueue

variable {f : Nat → Wr} {n n' : Node β} {posted polled got : Nat}

theorem congr (h : RecvQueue f n posted polled got) (hr : n'.rq = n.rq) (hc : n'.leftCq = n.leftCq)
    (ha : n'.arrived = n.arrived) : RecvQueue f n' posted polled got := by
  rw [RecvQueue, hr, hc, ha]
  exact h

theorem post (h : RecvQueue f n posted polled got) (hr : n'.rq = n.rq ++ [f posted]) (hc : n'.leftCq = n.leftCq)
    (ha : n'.arrived = n.arrived) : RecvQueue f n' (posted + 1) polled got := by
  rw [RecvQueue, hr, hc, ha]
  exact WorkQueue.post h

theorem poll {wc q} (h : RecvQueue f n posted polled got) (n' : Node β) (hq : n.leftCq = wc :: q) (hr : n'.rq = n.rq)
    (hc : n'.leftCq = q) (ha : n'.arrived = n.arrived) :
    wc = ⟨.recv, (f polled).id⟩ ∧ polled < got ∧ RecvQueue f n' posted (polled + 1) got := by
  rw [RecvQueue, hq, List.cons_append] at h
  rw [RecvQueue, hr, hc, ha]
  exact WorkQueue.poll h

theorem fill {w rq} (h : RecvQueue f n posted polled got) (data : List β) (hq : n.rq = w :: rq) :
    w = f got ∧ got < posted ∧ RecvQueue f (n.fill w rq data) posted polled (got + 1) := by
  rw [RecvQueue, hq] at h
  obtain ⟨rfl, hlt, hrest⟩ := WorkQueue.serve h
  refine ⟨rfl, hlt, ?_⟩
  rw [List.append_assoc] at hrest
  simpa only [RecvQueue, Node.fill, List.map_append, List.map_singleton] using hrest

theorem done (h : RecvQueue f n posted polled got) (hd : n.recvDone = some n') : RecvQueue f n' posted polled got := by
  obtain ⟨id, ids, ha, rfl⟩ := Node.recvDone_cases hd
  rw [RecvQueue, ha] at h
  simpa only [RecvQueue, List.map_cons, List.append_assoc, List.singleton_append] using h

/-- A receive filled and not polled. -/
theorem mem_cq {id} (h : RecvQueue f n posted polled got) (hid : id ∈ n.arrived ++ n.leftCq.map Wc.id) :
    ∃ k, polled ≤ k ∧ k < got ∧ id = (f k).id := by
  obtain ⟨wc, hwc, rfl⟩ := mem_late hid
  obtain ⟨k, hge, hlt, rfl⟩ := h.mem_completed hwc
  exact ⟨k, hge, hlt, rfl⟩

/-- With nothing to poll and nothing on its way, every placed message has been
polled. -/
theorem got_eq (h : RecvQueue f n posted polled got) (hc : n.leftCq = []) (ha : n.arrived = []) : got = polled := by
  rw [RecvQueue, hc, ha] at h
  exact h.served_eq_polled

theorem got_eq_posted (h : RecvQueue f n posted polled got) (hr : n.rq = []) : got = posted := by
  rw [RecvQueue, hr] at h
  exact h.served_eq_posted

end RecvQueue

namespace SendQueue

variable {f : Nat → Wr} {n n' : Node β} {sent polled out : Nat}

theorem congr (h : SendQueue f n sent polled out) (hs : n'.sq.map SendWr.wr = n.sq.map SendWr.wr)
    (hc : n'.rightCq = n.rightCq) (ha : n'.acked = n.acked) : SendQueue f n' sent polled out := by
  rw [SendQueue, hs, hc, ha]
  exact h

theorem post (h : SendQueue f n sent polled out) (hs : n'.sq = n.sq ++ [⟨f sent, []⟩]) (hc : n'.rightCq = n.rightCq)
    (ha : n'.acked = n.acked) : SendQueue f n' (sent + 1) polled out := by
  rw [SendQueue, hs, hc, ha, List.map_append]
  exact WorkQueue.post h

theorem poll {wc q} (h : SendQueue f n sent polled out) (n' : Node β) (hq : n.rightCq = wc :: q) (hs : n'.sq = n.sq)
    (hc : n'.rightCq = q) (ha : n'.acked = n.acked) :
    wc = ⟨.send, (f polled).id⟩ ∧ polled < out ∧ SendQueue f n' sent (polled + 1) out := by
  rw [SendQueue, hq, List.cons_append] at h
  rw [SendQueue, hs, hc, ha]
  exact WorkQueue.poll h

theorem place {w sq} (h : SendQueue f n sent polled out) (n' : Node β) (hq : n.sq = w :: sq) (hs : n'.sq = sq)
    (hc : n'.rightCq = n.rightCq) (ha : n'.acked = n.acked ++ [w.wr.id]) :
    w.wr = f out ∧ out < sent ∧ SendQueue f n' sent polled (out + 1) := by
  rw [SendQueue, hq, List.map_cons] at h
  obtain ⟨hwr, hlt, hrest⟩ := WorkQueue.serve h
  refine ⟨hwr, hlt, ?_⟩
  rw [List.append_assoc] at hrest
  simpa only [SendQueue, hs, hc, ha, hwr, List.map_append, List.map_singleton] using hrest

theorem done (h : SendQueue f n sent polled out) (hd : n.sendDone = some n') : SendQueue f n' sent polled out := by
  obtain ⟨id, ids, ha, rfl⟩ := Node.sendDone_cases hd
  rw [SendQueue, ha] at h
  simpa only [SendQueue, List.map_cons, List.append_assoc, List.singleton_append] using h

theorem fetch {k} (h : SendQueue f n sent polled out) (hd : n.fetch k = some n') : SendQueue f n' sent polled out := by
  obtain ⟨w, hk, -, rfl⟩ := Node.fetch_cases hd
  exact h.congr (map_wr_set hk) rfl rfl

theorem mem_sq {w} (h : SendQueue f n sent polled out) (hw : w ∈ n.sq) : ∃ k, out ≤ k ∧ k < sent ∧ w.wr = f k :=
  h.mem_queue (List.mem_map_of_mem hw)

/-- A send placed and not polled. -/
theorem mem_cq {id} (h : SendQueue f n sent polled out) (hid : id ∈ n.acked ++ n.rightCq.map Wc.id) :
    ∃ k, polled ≤ k ∧ k < out ∧ id = (f k).id := by
  obtain ⟨wc, hwc, rfl⟩ := mem_late hid
  obtain ⟨k, hge, hlt, rfl⟩ := h.mem_completed hwc
  exact ⟨k, hge, hlt, rfl⟩

/-- With nothing to poll and nothing on its way, every placed message has been
polled. -/
theorem out_eq (h : SendQueue f n sent polled out) (hc : n.rightCq = []) (ha : n.acked = []) : out = polled := by
  rw [SendQueue, hc, ha] at h
  exact h.served_eq_polled

theorem out_eq_sent (h : SendQueue f n sent polled out) (hs : n.sq = []) : out = sent := by
  rw [SendQueue, hs] at h
  exact h.served_eq_posted

end SendQueue

/-! ## What the outstanding sends carry -/

/-- A send queue in which the bytes fetched for a send are those of its message. -/
structure SendSide (f : Nat → Wr) (msg : Nat → Nat → β) (n : Node β) (sent polled out : Nat) : Prop
    extends SendQueue f n sent polled out where
  data : ∀ w ∈ n.sq, ∀ j b, w.data[j]? = some b → b = msg w.wr.id j
  fetched : ∀ w ∈ n.sq, w.data.length ≤ w.wr.size

namespace SendSide

variable {f : Nat → Wr} {msg : Nat → Nat → β} {n n' : Node β} {sent polled out : Nat}

theorem sendQueue (h : SendSide f msg n sent polled out) : SendQueue f n sent polled out := h.toWorkQueue

theorem congr (h : SendSide f msg n sent polled out) (hs : n'.sq = n.sq) (hc : n'.rightCq = n.rightCq)
    (ha : n'.acked = n.acked) : SendSide f msg n' sent polled out :=
  ⟨h.sendQueue.congr (congrArg _ hs) hc ha, hs ▸ h.data, hs ▸ h.fetched⟩

/-- Nothing is fetched yet for a send just posted. -/
theorem post (h : SendSide f msg n sent polled out) (hs : n'.sq = n.sq ++ [⟨f sent, []⟩])
    (hc : n'.rightCq = n.rightCq) (ha : n'.acked = n.acked) : SendSide f msg n' (sent + 1) polled out := by
  refine ⟨h.sendQueue.post hs hc ha, fun w hw => ?_, fun w hw => ?_⟩
  · rw [hs, List.mem_append, List.mem_singleton] at hw
    rcases hw with hw | rfl
    · exact h.data w hw
    · simp
  · rw [hs, List.mem_append, List.mem_singleton] at hw
    rcases hw with hw | rfl
    · exact h.fetched w hw
    · simp

theorem poll {wc q} (h : SendSide f msg n sent polled out) (n' : Node β) (hq : n.rightCq = wc :: q)
    (hs : n'.sq = n.sq) (hc : n'.rightCq = q) (ha : n'.acked = n.acked) :
    SendSide f msg n' sent (polled + 1) out := by
  obtain ⟨-, -, hqueue⟩ := h.sendQueue.poll n' hq hs hc ha
  exact ⟨hqueue, hs ▸ h.data, hs ▸ h.fetched⟩

theorem place {w sq} (h : SendSide f msg n sent polled out) (n' : Node β) (hq : n.sq = w :: sq) (hs : n'.sq = sq)
    (hc : n'.rightCq = n.rightCq) (ha : n'.acked = n.acked ++ [w.wr.id]) :
    w.wr = f out ∧ out < sent ∧ SendSide f msg n' sent polled (out + 1) := by
  obtain ⟨hwr, hlt, hqueue⟩ := h.sendQueue.place n' hq hs hc ha
  have hsub : ∀ v ∈ n'.sq, v ∈ n.sq := fun v hv => hq ▸ List.mem_cons_of_mem _ (hs ▸ hv)
  exact ⟨hwr, hlt, hqueue, fun v hv => h.data v (hsub v hv), fun v hv => h.fetched v (hsub v hv)⟩

theorem done (h : SendSide f msg n sent polled out) (hd : n.sendDone = some n') :
    SendSide f msg n' sent polled out := by
  have hqueue := h.sendQueue.done hd
  obtain ⟨id, ids, -, rfl⟩ := Node.sendDone_cases hd
  exact ⟨hqueue, h.data, h.fetched⟩

/-- Fetching is right when the next byte of every outstanding source is the
message's. -/
theorem fetch {k} (h : SendSide f msg n sent polled out) (hd : n.fetch k = some n')
    (hb : ∀ w ∈ n.sq, w.data.length < w.wr.size →
      n.mem w.wr.area (w.wr.off + w.data.length) = msg w.wr.id w.data.length) :
    SendSide f msg n' sent polled out := by
  have hqueue := h.sendQueue.fetch hd
  obtain ⟨w, hk, hlt, rfl⟩ := Node.fetch_cases hd
  have hw : w ∈ n.sq := List.mem_of_getElem? hk
  refine ⟨hqueue, fun v hv j b hj => ?_, fun v hv => ?_⟩
  · rcases List.mem_or_eq_of_mem_set hv with hv | rfl
    · exact h.data v hv j b hj
    · rw [List.getElem?_append] at hj
      split at hj
      · exact h.data w hw j b hj
      · next hge =>
        have hj0 : j = w.data.length := by
          have := (List.getElem?_eq_some_iff.mp hj).1
          simp only [List.length_singleton] at this
          omega
        subst hj0
        simp only [Nat.sub_self, List.getElem?_cons_zero, Option.some.injEq] at hj
        rw [← hj, hb w hw hlt]
  · rcases List.mem_or_eq_of_mem_set hv with hv | rfl
    · exact h.fetched v hv
    · simp only [List.length_append, List.length_singleton]
      omega

end SendSide

end RdmaInfra.Collective.Posted
