/-
Who owns which memory during an all-reduce on the posted path.

A receive owns its region from the post to its completion, a send its source
until it is polled, and a reduction its chunk and its stage half while it runs.
At most one receive and one send are outstanding at a time, and the receive is of
the send's round or of the next (`Window`). What is left is chunk arithmetic,
and it fails at one place: in a world of two, the receive of round 1 is for the
very chunk that round 0 sends. No byte of it arrives before that send has been
placed (`late_of_two`).
-/
import RdmaInfra.Collective.SessionAligned

namespace RdmaInfra.Collective.Posted

variable {β : Type}

/-! ## The rounds begun by a prefix of the program -/

/-- How far the four kinds are apart in an all-reduce of `steps` rounds. -/
structure Window (steps posted sent polledL polledR : Nat) : Prop where
  posted_le : posted ≤ steps
  sent_le : sent ≤ steps
  ahead : posted ≤ polledL + 1
  one : sent ≤ polledR + 1
  behind : polledR ≤ polledL
  close : polledL ≤ polledR + 1

theorem prefix_flatMap_range {α : Type} (f : Nat → List α) (n : Nat) {xs : List α}
    (h : xs <+: (List.range n).flatMap f) (hne : xs ≠ []) :
    ∃ t < n, ∃ ys, ys ≠ [] ∧ xs = (List.range t).flatMap f ++ ys ∧ ys <+: f t := by
  induction n with
  | zero => exact absurd (List.prefix_nil.mp h) hne
  | succ n ih =>
    have hsplit : (List.range (n + 1)).flatMap f = (List.range n).flatMap f ++ f n := by
      rw [List.range_succ, List.flatMap_append, List.flatMap_singleton]
    rw [hsplit] at h
    have hshort : xs <+: (List.range n).flatMap f →
        ∃ t < n + 1, ∃ ys, ys ≠ [] ∧ xs = (List.range t).flatMap f ++ ys ∧ ys <+: f t := by
      intro hx
      obtain ⟨t, ht, hys⟩ := ih hx
      exact ⟨t, by omega, hys⟩
    rcases List.prefix_or_prefix_of_prefix h (List.prefix_append _ _) with hx | ⟨ys, rfl⟩
    · exact hshort hx
    · by_cases hys : ys = []
      · subst hys
        exact hshort (by simp)
      · exact ⟨n, Nat.lt_succ_self n, ys, hys, rfl, (List.prefix_append_right_inj _).mp h⟩

theorem concat_prefix_append {α : Type} {xs pre post : List α} {e : α} (h : xs ++ [e] <+: pre ++ post)
    (hpost : post.length ≤ 1) (he : e ∉ pre) : xs = pre ∧ e ∈ post := by
  rcases List.prefix_or_prefix_of_prefix h (List.prefix_append _ _) with hx | ⟨zs, hz⟩
  · exact absurd (hx.subset (by simp)) he
  rw [← hz] at h
  have hzs : zs <+: post := (List.prefix_append_right_inj _).mp h
  have hlen := hzs.length_le
  cases zs with
  | nil =>
    rw [List.append_nil] at hz
    exact absurd (by rw [hz]; simp) he
  | cons z zs =>
    obtain rfl : zs = [] := List.length_eq_zero_iff.mp (by simp only [List.length_cons] at hlen; omega)
    obtain ⟨hxs, heq⟩ := List.append_inj' hz rfl
    cases heq
    exact ⟨hxs.symm, hzs.subset (by simp)⟩

section Rounds

variable (R : Ring) (r : Fin R.size)

/-- The events of round `s`. -/
def roundEvents (s : Nat) : List Event :=
  (postedRound (worldOf r) (bufH R) (bufH R) (stageH R) R.chunk s).map fun e => ⟨0, e.1, e.2⟩

/-- The post ahead of the first round. -/
def firstEvent : Event := ⟨0, 0, postRecv (worldOf r) (bufH R) (stageH R) R.chunk 0⟩

theorem events_ring : events (worldOf r) 0 [.allreduce R.count] =
    firstEvent R r :: (List.range R.steps).flatMap (roundEvents R r) := by
  rw [events, events, callRounds_ring, List.append_nil, ringPostedRounds, List.map_cons, List.map_flatMap]
  rfl

variable {R r} {kind : Kind}

theorem tally_cons (e : Event) (es : List Event) :
    tally kind (e :: es) = (if kindOf e.op = some kind then 1 else 0) + tally kind es := by
  by_cases hk : kindOf e.op = some kind <;> simp [tally, ofKind, hk, Nat.add_comm]

theorem tally_append (es es' : List Event) : tally kind (es ++ es') = tally kind es + tally kind es' := by
  rw [tally, ofKind_append, List.length_append]
  rfl

theorem tally_round (s : Nat) :
    tally kind (roundEvents R r s) = if kind = .recv then if s + 1 < R.steps then 1 else 0 else 1 := by
  have hsteps : (worldOf r).steps = R.steps := rfl
  have h := congrArg List.length
    (filter_postedRound (worldOf r) (bufH R) (bufH R) (stageH R) R.chunk s kind)
  rw [List.length_map, hsteps] at h
  rw [tally, ofKind, roundEvents, List.filter_map, List.length_map]
  refine h.trans ?_
  split
  · split <;> rfl
  · rfl

theorem tally_rounds {t : Nat} (ht : t < R.steps) :
    tally kind ((List.range t).flatMap (roundEvents R r)) = t := by
  induction t with
  | zero => rfl
  | succ t ih =>
    rw [List.range_succ, List.flatMap_append, List.flatMap_singleton, tally_append, ih (by omega), tally_round]
    rw [if_pos ht, ite_self]

/-- Within a round, nothing is posted and no send is polled before the receive
is polled. -/
theorem tally_of_prefix_round {s : Nat} {ys : List Event} (h : ys <+: roundEvents R r s) :
    tally .recv ys ≤ tally .pollLeft ys ∧ tally .pollRight ys ≤ tally .pollLeft ys := by
  have hrecv : tally .recv ys ≤ 1 := by
    have := tally_le .recv h
    rw [tally_round, if_pos rfl] at this
    split at this <;> omega
  have hpoll : tally .pollRight ys ≤ 1 := by
    have := tally_le .pollRight h
    rwa [tally_round, if_neg (by decide)] at this
  simp only [roundEvents, postedRound, List.map_cons, List.prefix_cons_iff] at h
  rcases h with rfl | ⟨ys, rfl, rfl | ⟨zs, rfl, -⟩⟩
  · exact ⟨Nat.le_refl _, Nat.le_refl _⟩
  · exact ⟨Nat.le_refl _, Nat.le_refl _⟩
  · have hleft : 1 ≤ tally .pollLeft (⟨0, s, postSend (worldOf r) (bufH R) R.chunk s⟩ :: ⟨0, s, .pollLeft⟩ :: zs) := by
      rw [tally_cons, tally_cons, if_neg (by simp [postSend, kindOf]), if_pos (by rfl)]
      omega
    exact ⟨hrecv.trans hleft, hpoll.trans hleft⟩

theorem window_of_initial {done : List Event} (h : done <+: events (worldOf r) 0 [.allreduce R.count]) :
    Window R.steps (tally .recv done) (tally .send done) (tally .pollLeft done) (tally .pollRight done) := by
  have hN := R.two_le
  have hst : R.steps = 2 * (R.size - 1) := rfl
  have hfirst : kindOf (firstEvent R r).op = some .recv := kind_postRecv ..
  rw [events_ring, List.prefix_cons_iff] at h
  rcases h with rfl | ⟨xs, rfl, hxs⟩
  · exact ⟨Nat.zero_le _, Nat.zero_le _, Nat.zero_le _, Nat.zero_le _, Nat.le_refl _, Nat.zero_le _⟩
  by_cases hne : xs = []
  · subst hne
    simp only [tally_cons, hfirst, show tally _ [] = 0 from rfl]
    constructor <;> simp
    omega
  · obtain ⟨t, ht, ys, -, rfl, hys⟩ := prefix_flatMap_range _ _ hxs hne
    obtain ⟨hrl, hpl⟩ := tally_of_prefix_round hys
    have hr := tally_le .recv hys
    have hs := tally_le .send hys
    have hl := tally_le .pollLeft hys
    rw [tally_round, if_pos rfl] at hr
    rw [tally_round, if_neg (by decide)] at hs hl
    simp only [tally_cons, tally_append, tally_rounds ht, hfirst]
    split at hr <;> constructor <;> simp <;> omega

/-- The reduction of round `s`, if it has one. -/
def sumEvents (R : Ring) (r : Fin R.size) (s : Nat) : List Event :=
  (postedSum (worldOf r) R.chunk s).map fun op => ⟨0, s, op⟩

theorem length_sumEvents (s : Nat) : (sumEvents R r s).length ≤ 1 := by
  rw [sumEvents, List.length_map, postedSum]
  split <;> simp

theorem tally_sumEvents (s : Nat) : tally kind (sumEvents R r s) = 0 := by
  rw [tally, ofKind, List.length_eq_zero_iff, List.filter_eq_nil_iff]
  intro e he
  obtain ⟨op, hop, rfl⟩ := List.mem_map.mp he
  simp [kind_postedSum hop]

/-- A round is its posts and polls, and then its reduction. -/
theorem round_split (s : Nat) :
    ∃ pre, roundEvents R r s = pre ++ sumEvents R r s ∧ ∀ e ∈ pre, (kindOf e.op).isSome = true := by
  have hsteps : (worldOf r).steps = R.steps := rfl
  refine ⟨⟨0, s, postSend (worldOf r) (bufH R) R.chunk s⟩ :: ⟨0, s, .pollLeft⟩ ::
    ((if s + 1 < R.steps then [⟨0, s + 1, postRecv (worldOf r) (bufH R) (stageH R) R.chunk (s + 1)⟩] else []) ++
    [⟨0, s, .pollRight⟩]), ?_, ?_⟩
  · simp only [roundEvents, postedRound, hsteps, List.map_cons, List.map_append, List.map_map, List.cons_append,
      List.append_assoc]
    split <;> rfl
  · intro e he
    simp only [List.mem_cons, List.mem_append, List.not_mem_nil, or_false] at he
    rcases he with rfl | rfl | he | rfl
    · rfl
    · rfl
    · split at he
      · rw [List.mem_singleton.mp he, kind_postRecv]
        rfl
      · cases he
    · rfl

/-- At a reduction the round's send and receive are polled. -/
theorem tally_at_sum {done : List Event} {e : Event} {d src n : Nat}
    (h : done ++ [e] <+: events (worldOf r) 0 [.allreduce R.count]) (he : e.op = .sum d src n) :
    ∃ t < R.size - 1, e.op ∈ postedSum (worldOf r) R.chunk t ∧ tally .send done = t + 1 ∧
      tally .pollLeft done = t + 1 ∧ tally .pollRight done = t + 1 := by
  have hnone : kindOf e.op = none := by rw [he]; rfl
  have hfirst : kindOf (firstEvent R r).op = some .recv := kind_postRecv ..
  rw [events_ring, List.prefix_cons_iff] at h
  obtain hnil | ⟨xs, hcons, hxs⟩ := h
  · simp at hnil
  have hne : xs ≠ [] := by
    intro heq
    subst heq
    have hm : e ∈ [firstEvent R r] := by rw [← hcons]; simp
    rw [List.mem_singleton.mp hm, hfirst] at hnone
    cases hnone
  obtain ⟨t, ht, ys, hys0, rfl, hys⟩ := prefix_flatMap_range _ _ hxs hne
  obtain ⟨ys', e', rfl⟩ := (List.eq_nil_or_concat ys).resolve_left hys0
  rw [List.concat_eq_append, ← List.append_assoc, ← List.cons_append] at hcons
  obtain ⟨rfl, heq⟩ := List.append_inj' hcons rfl
  cases heq
  obtain ⟨pre, hround, hpre⟩ := round_split (R := R) (r := r) t
  rw [List.concat_eq_append, hround] at hys
  obtain ⟨rfl, hsum⟩ := concat_prefix_append hys (length_sumEvents t) fun hm => by simpa [hnone] using hpre e hm
  obtain ⟨op, hop, rfl⟩ := List.mem_map.mp hsum
  have htally : ∀ kind, tally kind ys' = tally kind (roundEvents R r t) := by
    intro kind
    rw [hround, tally_append, tally_sumEvents, Nat.add_zero]
  refine ⟨t, ?_, hop, ?_, ?_, ?_⟩
  · unfold postedSum at hop
    split at hop
    next hlt => exact hlt
    · cases hop
  all_goals
    rw [tally_cons, hfirst, tally_append, tally_rounds ht, htally, tally_round]
    simp

end Rounds

/-! ## Regions -/

/-- Bytes of an area. -/
structure Region where
  area : Area
  off : Nat
  size : Nat

def Region.Covers (g : Region) (a : Area) (i : Nat) : Prop := g.area = a ∧ g.off ≤ i ∧ i < g.off + g.size

def Region.Disjoint (g h : Region) : Prop := ∀ a i, g.Covers a i → ¬h.Covers a i

/-- The bytes a request names. -/
def Wr.region (w : Wr) : Region := ⟨w.area, w.off, w.size⟩

section Regions

variable (R : Ring) (r : Fin R.size)

/-- The receive of round `k`. -/
def recvOf (k : Nat) : Wr := wrOf (postRecv (worldOf r) (bufH R) (stageH R) R.chunk k)

/-- The send of round `k`. -/
def sendOf (k : Nat) : Wr := wrOf (postSend (worldOf r) (bufH R) R.chunk k)

/-- The receives posted and not polled; of one that is filled the queues hold
the id, which is its round. -/
def recvsOut (n : Node β) : List Wr := n.rq ++ (n.arrived ++ n.leftCq.map Wc.id).map (recvOf R r)

/-- The sends posted and not polled. -/
def sendsOut (n : Node β) : List Wr := n.sq.map SendWr.wr ++ (n.acked ++ n.rightCq.map Wc.id).map (sendOf R r)

/-- A chunk of the payload. -/
def chunkRegion (c : Fin R.size) : Region := ⟨.buf, R.off c, R.bytes⟩

variable {R r}

theorem chunkRegion_disjoint {c c' : Fin R.size} (h : c ≠ c') : (chunkRegion R c).Disjoint (chunkRegion R c') := by
  rintro a i ⟨-, hge, hlt⟩ ⟨-, hge', hlt'⟩
  simp only [chunkRegion] at hge hlt hge' hlt'
  have hj : i - R.off c < R.bytes := by omega
  have := R.off_disjoint h hj
  omega

/-- A region inside a disjoint one. -/
theorem Region.Disjoint.mono {g g' h h' : Region} (hd : g'.Disjoint h') (hg : ∀ a i, g.Covers a i → g'.Covers a i)
    (hh : ∀ a i, h.Covers a i → h'.Covers a i) : g.Disjoint h :=
  fun a i hc hc' => hd a i (hg a i hc) (hh a i hc')

theorem sendOf_region {k : Nat} (hk : k < R.steps) {a : Area} {i : Nat} (h : (sendOf R r k).region.Covers a i) :
    (chunkRegion R (chunkAt r (sendDist R.size k))).Covers a i := by
  have hu : u32 R.bytes ≤ R.bytes := Nat.mod_le _ _
  simp only [sendOf, postSend, wrOf, Wr.region, chunkBytes_eq, sendChunk_eq hk, sizeT_off, bufH] at h
  obtain ⟨ha, hge, hlt⟩ := h
  exact ⟨ha, hge, Nat.lt_of_lt_of_le hlt (Nat.add_le_add_left hu _)⟩

theorem recvOf_region {k : Nat} (hk : k < R.steps) (hg : ¬k < R.size - 1) {a : Area} {i : Nat}
    (h : (recvOf R r k).region.Covers a i) : (chunkRegion R (chunkAt r (recvDist R.size k))).Covers a i := by
  have hu : u32 R.bytes ≤ R.bytes := Nat.mod_le _ _
  have hw : (worldOf r).size = R.size := rfl
  simp only [recvOf, postRecv, hw, if_neg hg, wrOf, Wr.region, chunkBytes_eq, recvChunk_eq hk, sizeT_off, bufH] at h
  obtain ⟨ha, hge, hlt⟩ := h
  exact ⟨ha, hge, Nat.lt_of_lt_of_le hlt (Nat.add_le_add_left hu _)⟩

/-- A half of the staging area. -/
def halfRegion (R : Ring) (k : Nat) : Region := ⟨.stage, k % 2 * R.bytes, R.bytes⟩

theorem recvOf_stage {k : Nat} (hs : k < R.size - 1) {a : Area} {i : Nat}
    (h : (recvOf R r k).region.Covers a i) : (halfRegion R k).Covers a i := by
  have hu : u32 R.bytes ≤ R.bytes := Nat.mod_le _ _
  have hw : (worldOf r).size = R.size := rfl
  have hfit : sizeT (k % 2 * R.bytes) = k % 2 * R.bytes := by
    have h1 := Nat.mul_le_mul_right R.bytes (show k % 2 ≤ 1 by omega)
    have h2 := R.two_bytes_le
    have h3 := R.bytes_fit
    exact sizeT_of_lt (by omega)
  simp only [recvOf, postRecv, hw, if_pos hs, wrOf, Wr.region, chunkBytes_eq, hfit, stageH] at h
  obtain ⟨ha, hge, hlt⟩ := h
  exact ⟨ha, hge, Nat.lt_of_lt_of_le hlt (Nat.add_le_add_left hu _)⟩

/-- The receive of a round or of the next one, and the send. -/
theorem recv_send_disjoint {j k : Nat} (hj : j < R.steps) (hk : k < R.steps) (hjk : j ≤ k) (hkj : k ≤ j + 1) :
    (recvOf R r k).region.Disjoint (sendOf R r j).region ∨ R.size = 2 ∧ k = 1 ∧ j = 0 := by
  have hN := R.two_le
  have hst : R.steps = 2 * (R.size - 1) := rfl
  by_cases hs : k < R.size - 1
  · left
    intro a i hv hw
    obtain ⟨ha, -⟩ := recvOf_stage hs hv
    obtain ⟨ha', -⟩ := sendOf_region hj hw
    cases ha.trans ha'.symm
  · by_cases hc : chunkAt r (recvDist R.size k) = chunkAt r (sendDist R.size j)
    · right
      have := chunkAt_inj (recvDist_lt hk) (sendDist_lt hj) hc
      simp only [recvDist, if_neg hs, sendDist] at this
      split at this <;> [skip; split at this] <;> omega
    · left
      exact (chunkRegion_disjoint hc).mono (fun _ _ => recvOf_region hk hs) (fun _ _ => sendOf_region hj)

/-- What the loop `dst[i] += src[i]` over `n` floats reads of `stage`. -/
def sumReads (src n : Nat) : Region := ⟨.stage, src * sizeofFloat, n * sizeofFloat⟩

/-- What it writes of `buf`. -/
def sumWrites (dst n : Nat) : Region := ⟨.buf, dst * sizeofFloat, n * sizeofFloat⟩

theorem sum_regions {t dst src n : Nat} (ht : t < R.size - 1)
    (h : Op.sum dst src n ∈ postedSum (worldOf r) R.chunk t) :
    sumReads src n = halfRegion R t ∧ sumWrites dst n = chunkRegion R (chunkAt r (t + 1)) := by
  have hst : R.steps = 2 * (R.size - 1) := rfl
  have hw : (worldOf r).size = R.size := rfl
  have hfit : sizeT (t % 2 * R.chunk) = t % 2 * R.chunk := by
    have h1 := Nat.mul_le_mul_right R.chunk (show t % 2 ≤ 1 by omega)
    have h2 := R.two_bytes_le
    have h3 := R.bytes_fit
    simp only [Ring.bytes] at h2 h3
    exact sizeT_of_lt (by omega)
  have hrd : recvDist R.size t = t + 1 := if_pos ht
  simp only [postedSum, hw, if_pos ht, List.mem_singleton, recvChunk_eq (show t < 2 * (R.size - 1) by omega), hrd,
    sizeT_elem, hfit] at h
  cases h
  simp only [sumReads, sumWrites, halfRegion, chunkRegion, sizeofFloat, Ring.off, Ring.bytes, Nat.mul_assoc, and_self]

/-- The receive posted ahead of a reduction. -/
theorem recv_sum_disjoint {t : Nat} (ht : t < R.size - 1) :
    (recvOf R r (t + 1)).region.Disjoint (halfRegion R t) ∧
      (recvOf R r (t + 1)).region.Disjoint (chunkRegion R (chunkAt r (t + 1))) := by
  have hst : R.steps = 2 * (R.size - 1) := rfl
  by_cases hs : t + 1 < R.size - 1
  · refine ⟨fun a i hv hh => ?_, fun a i hv hc => ?_⟩
    · obtain ⟨-, hge, hlt⟩ := recvOf_stage hs hv
      obtain ⟨-, hge', hlt'⟩ := hh
      simp only [halfRegion] at hge hlt hge' hlt'
      rcases Nat.mod_two_eq_zero_or_one t with h0 | h1
      · rw [show (t + 1) % 2 = 1 by omega] at hge hlt
        rw [h0] at hge' hlt'
        omega
      · rw [show (t + 1) % 2 = 0 by omega] at hge hlt
        rw [h1] at hge' hlt'
        omega
    · cases (recvOf_stage hs hv).1.trans hc.1.symm
  · have hk : t + 1 < R.steps := by omega
    refine ⟨fun a i hv hh => ?_, ?_⟩
    · cases (recvOf_region hk hs hv).1.trans hh.1.symm
    · have hne : chunkAt r (recvDist R.size (t + 1)) ≠ chunkAt r (t + 1) := by
        intro hc
        have := chunkAt_inj (recvDist_lt hk) (by omega) hc
        simp only [recvDist, if_neg hs] at this
        omega
      exact (chunkRegion_disjoint hne).mono (fun _ _ => recvOf_region hk hs) fun _ _ h => h

end Regions

/-! ## Ownership in every reachable state -/

/-- What rank `r` may not have its memory used for at once. -/
structure Owned (R : Ring) (r : Fin R.size) (n : Node β) : Prop where
  transfers : ∀ v ∈ recvsOut R r n, ∀ w ∈ sendsOut R r n,
    v.region.Disjoint w.region ∨ R.size = 2 ∧ v.id = 1 ∧ w.id = 0
  reduction : ∀ e dst src k, current [.allreduce R.count] r n.ctl = some e → e.op = .sum dst src k →
    (∀ v ∈ recvsOut R r n, v.region.Disjoint (sumReads src k) ∧ v.region.Disjoint (sumWrites dst k)) ∧
      ∀ w ∈ sendsOut R r n, w.region.Disjoint (sumWrites dst k)
  late : R.size = 2 → ∀ w ∈ n.sq, w.wr.id = 0 → ∀ v ∈ recvsOut R r n, v.id = 1 → v ∈ n.rq

section Owned

variable {R : Ring} {r : Fin R.size} {n : Node β} {before : List Call} {done rest : List Event} {got out : Nat}

/-- The `k`-th operation of a kind is that of round `k`. -/
theorem ring_event {k : Nat} (hk : k < R.steps) (kind : Kind) :
    ∃ op, kindOf op = some kind ∧ (k, op) ∈ callRounds (worldOf r) (.allreduce R.count) ∧
      postAt kind (events (worldOf r) 0 [.allreduce R.count]) k = wrOf op := by
  have hN := R.two_le
  have hmod : R.count % R.size = 0 := Nat.mul_mod_right ..
  have htags : tags R.size 0 [.allreduce R.count] = (List.range R.steps).map (Prod.mk 0) := by
    simp only [tags, callTags, hmod, ne_eq, not_true, if_false, Nat.not_lt.mpr hN, List.append_nil]
    rfl
  have ht : (tags R.size 0 [.allreduce R.count])[k]? = some (0, k) := by
    rw [htags, List.getElem?_map, List.getElem?_range hk]
    rfl
  rw [show R.size = (worldOf r).size from rfl, ← tags_ofKind (worldOf r) kind, List.getElem?_map,
    Option.map_eq_some_iff] at ht
  obtain ⟨e, he, heq⟩ := ht
  obtain ⟨hcall, rfl⟩ := Prod.mk.inj heq
  obtain ⟨hm, hop⟩ := List.mem_filter.mp (List.mem_of_getElem? he)
  obtain ⟨c, -, hc, hmem⟩ := mem_events hm
  rw [hcall] at hc
  cases hc
  refine ⟨e.op, by simpa using hop, hmem, ?_⟩
  rw [postAt, he]
  rfl

theorem postAt_recv {k : Nat} (hk : k < R.steps) :
    postAt .recv (events (worldOf r) 0 [.allreduce R.count]) k = recvOf R r k := by
  obtain ⟨op, hkind, hm, heq⟩ := ring_event (r := r) hk .recv
  rw [callRounds_ring] at hm
  obtain ⟨-, rfl | rfl | rfl | rfl | hsum⟩ := mem_ringPostedRounds (Nat.zero_lt_of_lt hk) hm
  · exact heq
  · cases hkind
  · cases hkind
  · cases hkind
  · rw [kind_postedSum hsum] at hkind
    cases hkind

theorem postAt_send {k : Nat} (hk : k < R.steps) :
    postAt .send (events (worldOf r) 0 [.allreduce R.count]) k = sendOf R r k := by
  obtain ⟨op, hkind, hm, heq⟩ := ring_event (r := r) hk .send
  rw [callRounds_ring] at hm
  obtain ⟨-, rfl | rfl | rfl | rfl | hsum⟩ := mem_ringPostedRounds (Nat.zero_lt_of_lt hk) hm
  · rw [kind_postRecv] at hkind
    cases hkind
  · exact heq
  · cases hkind
  · cases hkind
  · rw [kind_postedSum hsum] at hkind
    cases hkind

theorem recvOf_id (k : Nat) : (recvOf R r k).id = k := by
  unfold recvOf postRecv
  split <;> rfl

/-- An outstanding receive is of a round posted and not polled. -/
theorem mem_recvsOut (h : Position [.allreduce R.count] r n before done rest got out) {v : Wr}
    (hv : v ∈ recvsOut R r n) :
    ∃ k, tally .pollLeft done ≤ k ∧ k < tally .recv done ∧ v = recvOf R r k ∧ (v ∈ n.rq ∨ k < got) := by
  have hle := (window_of_initial h.done_prefix).posted_le
  have hq := h.recv
  rcases List.mem_append.mp hv with hm | hm
  · obtain ⟨k, hge, hlt, rfl⟩ := hq.mem_queue hm
    have := hq.polled_le
    exact ⟨k, by omega, hlt, postAt_recv (by omega), .inl hm⟩
  · obtain ⟨id, hid, rfl⟩ := List.mem_map.mp hm
    obtain ⟨k, hge, hlt, rfl⟩ := hq.mem_cq hid
    have := hq.served_le
    rw [postAt_recv (by omega), recvOf_id]
    exact ⟨k, hge, by omega, rfl, .inr hlt⟩

theorem mem_sendsOut (h : Position [.allreduce R.count] r n before done rest got out) {w : Wr}
    (hw : w ∈ sendsOut R r n) :
    ∃ k, tally .pollRight done ≤ k ∧ k < tally .send done ∧ w = sendOf R r k := by
  have hle := (window_of_initial h.done_prefix).sent_le
  have hq := h.send
  rcases List.mem_append.mp hw with hm | hm
  · obtain ⟨x, hx, rfl⟩ := List.mem_map.mp hm
    obtain ⟨k, hge, hlt, hwr⟩ := hq.mem_sq hx
    have := hq.polled_le
    exact ⟨k, by omega, hlt, by rw [hwr, postAt_send (by omega)]⟩
  · obtain ⟨id, hid, rfl⟩ := List.mem_map.mp hm
    obtain ⟨k, hge, hlt, rfl⟩ := hq.mem_cq hid
    have := hq.served_le
    rw [postAt_send (by omega)]
    exact ⟨k, hge, by omega, rfl⟩

/-- The event a rank is at comes next. -/
theorem Position.of_current (h : Position [.allreduce R.count] r n before done rest got out) {e : Event}
    (hc : Posted.current [.allreduce R.count] r n.ctl = some e) : ∃ rest', rest = e :: rest' := by
  by_cases hok : n.ctl.failed = false
  · cases rest with
    | nil =>
      have hlen := (h.ctl hok).2.length
      rw [List.length_nil] at hlen
      simp only [Posted.current, hlen, Nat.sub_zero, List.getElem?_length] at hc
      cases hc
    | cons e' rest =>
      rw [h.current hok] at hc
      cases hc
      exact ⟨rest, rfl⟩
  · obtain ⟨-, ho, -⟩ := h.stopped (by simpa using hok)
    simp only [Posted.current, ho, List.length_nil, Nat.sub_zero, List.getElem?_length] at hc
    cases hc

theorem transfers_disjoint (h : Position [.allreduce R.count] r n before done rest got out) {v w : Wr}
    (hv : v ∈ recvsOut R r n) (hw : w ∈ sendsOut R r n) :
    v.region.Disjoint w.region ∨ R.size = 2 ∧ v.id = 1 ∧ w.id = 0 := by
  obtain ⟨hp, hs, ha, ho, hb, hc⟩ := window_of_initial h.done_prefix
  obtain ⟨k, hk1, hk2, rfl, -⟩ := mem_recvsOut h hv
  obtain ⟨j, hj1, hj2, rfl⟩ := mem_sendsOut h hw
  rw [recvOf_id]
  exact recv_send_disjoint (by omega) (by omega) (by omega) (by omega)

theorem reduction_disjoint (h : Position [.allreduce R.count] r n before done rest got out) {e : Event}
    {dst src k : Nat} (hc : Posted.current [.allreduce R.count] r n.ctl = some e) (he : e.op = .sum dst src k) :
    (∀ v ∈ recvsOut R r n, v.region.Disjoint (sumReads src k) ∧ v.region.Disjoint (sumWrites dst k)) ∧
      ∀ w ∈ sendsOut R r n, w.region.Disjoint (sumWrites dst k) := by
  obtain ⟨rest', rfl⟩ := h.of_current hc
  obtain ⟨t, ht, hsum, hsent, hleft, hright⟩ := tally_at_sum h.next_prefix he
  rw [he] at hsum
  obtain ⟨hreads, hwrites⟩ := sum_regions ht hsum
  rw [hreads, hwrites]
  refine ⟨fun v hv => ?_, fun w hw => ?_⟩
  · have hahead := (window_of_initial h.done_prefix).ahead
    obtain ⟨j, hj1, hj2, rfl, -⟩ := mem_recvsOut h hv
    obtain rfl : j = t + 1 := by omega
    exact recv_sum_disjoint ht
  · obtain ⟨j, hj1, hj2, -⟩ := mem_sendsOut h hw
    omega

/-- In a world of two, a message of round 1 comes from a rank that has received
round 0's. -/
theorem late_of_two (h2 : R.size = 2) {s : State R.size β} {got : Fin R.size → Nat}
    (hI : SessionInv [.allreduce R.count] got s) {w : SendWr β} (hw : w ∈ (s r).sq) (hid : w.wr.id = 0) {v : Wr}
    (hv : v ∈ recvsOut R r (s r)) (hone : v.id = 1) : v ∈ (s r).rq := by
  obtain ⟨before, done, rest, h⟩ := hI r
  obtain ⟨beforeL, doneL, restL, hl⟩ := hI (left r)
  rw [right_left, left_eq_right h2] at hl
  obtain ⟨k, -, hk, rfl, hrq | hgot⟩ := mem_recvsOut h hv
  · exact hrq
  · rw [recvOf_id] at hone
    have hwin := window_of_initial hl.done_prefix
    have h1 := hl.send.served_le
    have h3 := hwin.one
    have h4 := hwin.behind
    have h5 := hl.recv.polled_le
    obtain ⟨j, hj, hjs, hwr⟩ := h.send.mem_sq hw
    have hsent := (window_of_initial h.done_prefix).sent_le
    rw [hwr, postAt_send (by omega)] at hid
    have : (sendOf R r j).id = j := rfl
    omega

/-- In every reachable state of an all-reduce, memory is used for one thing at a
time; the exception is two ranks' receive of round 1 posted over the source of
their send of round 0, and it stays empty until that send has been placed. -/
theorem memory_owned {β : Type} (R : Ring) (plus : Word β → Word β → Word β) (mem : Fin R.size → Area → Mem β)
    (s : State R.size β) (hs : (system plus [.allreduce R.count] mem).Reach s) (r : Fin R.size) : Owned R r (s r) := by
  obtain ⟨got, hI⟩ := reach_session R.two_le hs
  obtain ⟨before, done, rest, h⟩ := hI r
  refine ⟨fun v hv w hw => transfers_disjoint h hv hw, fun e dst src k hc he => reduction_disjoint h hc he, ?_⟩
  intro h2 w hw hid v hv hone
  exact late_of_two h2 hI hw hid hv hone

/-- Three ranks of one float each: rank 0 has posted the receive of round 1 and
not polled the send of round 0. -/
theorem memory_owned_three_ranks :
    let R : Ring := ⟨3, 1, by decide, by decide, by decide⟩
    let ring := system (fun x y k => x k + y k) [.allreduce 3] fun (r : Fin 3) _ _ => (r : Nat)
    ∃ s, ring.exec [.run 0, .run 0, .run 0, .run 2, .run 2, .run 2, .fetch 2 0, .fetch 2 0, .fetch 2 0, .fetch 2 0,
        .place 2, .recvDone 0, .run 0, .run 0] (initState [.allreduce 3] fun r _ _ => r) = some s ∧
      (recvsOut R 0 (s 0)).map Wr.id = [1] ∧ (sendsOut R 0 (s 0)).map Wr.id = [0] ∧ Owned R (0 : Fin 3) (s 0) := by
  intro R ring
  have hrun : ∃ s, ring.exec [.run 0, .run 0, .run 0, .run 2, .run 2, .run 2, .fetch 2 0, .fetch 2 0, .fetch 2 0,
        .fetch 2 0, .place 2, .recvDone 0, .run 0, .run 0] (initState [.allreduce 3] fun r _ _ => r) = some s ∧
      (recvsOut R 0 (s 0)).map Wr.id = [1] ∧ (sendsOut R 0 (s 0)).map Wr.id = [0] := ⟨_, rfl, rfl, rfl⟩
  obtain ⟨s, hs, hr, hw⟩ := hrun
  have hreach : ring.Reach s := Lts.Reach.exec (Lts.Reach.init rfl) hs
  exact ⟨s, hs, hr, hw, memory_owned R _ _ s hreach 0⟩

/-- Two ranks of one float each: rank 0 has a receive posted over its chunk, and
a send of that chunk of which no byte has been fetched. -/
theorem receive_over_send :
    ∃ s, (system (fun x y k => x k + y k) [.allreduce 2] fun (r : Fin 2) _ _ => (r : Nat)).exec
        [.run 0, .run 0, .run 0, .run 1, .run 1, .run 1, .fetch 1 0, .fetch 1 0, .fetch 1 0, .fetch 1 0, .place 1,
          .recvDone 0, .run 0, .run 0] (initState [.allreduce 2] fun r _ _ => r) = some s ∧
      ∃ v ∈ (s 0).rq, ∃ w ∈ (s 0).sq, ¬v.region.Disjoint w.wr.region := by
  refine ⟨_, rfl, ⟨.buf, 0, 4, 1⟩, List.mem_singleton.mpr rfl, ⟨⟨.buf, 0, 4, 0⟩, []⟩, List.mem_singleton.mpr rfl, ?_⟩
  intro hd
  exact hd .buf 0 ⟨rfl, by decide, by decide⟩ ⟨rfl, by decide, by decide⟩

end Owned

end RdmaInfra.Collective.Posted
