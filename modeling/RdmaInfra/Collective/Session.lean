/-
A session on the posted path: the calls all ranks make, one after another, as
the list of each rank's operations with the call and the round each belongs to.

Messages carry no tag, so a message and a receive meet only by their numbers on
the link. What keeps a session aligned is a fact about the lists alone: the
operations of one kind (sends, receives, polls of either) belong to the same
calls and rounds in the same order, whatever the kind and whatever the rank
(`tags_ofKind`).
-/
import RdmaInfra.Collective.Posted

namespace RdmaInfra.Collective.Posted

open Verbs (sgeInBounds)

inductive Kind
  | send
  | recv
  | pollLeft
  | pollRight
  deriving DecidableEq, Repr

/-- What an operation does on the queue pairs; a reduction does nothing. -/
def kindOf : Op → Option Kind
  | .sendAsync _ _ _ _ => some .send
  | .recvAsync _ _ _ _ => some .recv
  | .pollLeft => some .pollLeft
  | .pollRight => some .pollRight
  | .sum _ _ _ => none

/-- The work request an operation posts. -/
def wrOf : Op → Wr
  | .sendAsync h len id off | .recvAsync h len id off => ⟨h.area, off, u32 len, id⟩
  | .pollLeft | .pollRight | .sum _ _ _ => ⟨.scratch, 0, 0, 0⟩

/-- The post of an operation passes its check. -/
def Fits : Op → Prop
  | .sendAsync h len _ off | .recvAsync h len _ off => sgeInBounds h.size (u32 len) off = true
  | .pollLeft | .pollRight | .sum _ _ _ => True

/-- An operation of a session. -/
structure Event where
  call : Nat
  round : Nat
  op : Op
  deriving DecidableEq, Repr

/-! ## The rounds of a call -/

/-- `postedStep`, each operation with the round it is for. -/
def postedRound (w : World) (rH lH stageH : BufferHandle) (chunk s : Nat) : List (Nat × Op) :=
  (s, .sendAsync rH (chunkBytes chunk) s (sizeT (w.sendChunk s * chunkBytes chunk))) :: (s, .pollLeft) ::
  ((if s + 1 < w.steps then [(s + 1, postRecv w lH stageH chunk (s + 1))] else []) ++
  (s, .pollRight) :: (postedSum w chunk s).map (Prod.mk s))

def ringPostedRounds (w : World) (rH lH stageH : BufferHandle) (chunk : Nat) : List (Nat × Op) :=
  (0, postRecv w lH stageH chunk 0) :: (List.range w.steps).flatMap (postedRound w rH lH stageH chunk)

theorem postedRound_ops (w : World) (rH lH stageH : BufferHandle) (chunk s : Nat) :
    (postedRound w rH lH stageH chunk s).map Prod.snd = postedStep w rH lH stageH chunk s := by
  simp only [postedRound, postedStep, List.map_cons, List.map_append, List.map_map]
  split <;> simp [Function.comp_def]

theorem ringPostedRounds_ops (w : World) (rH lH stageH : BufferHandle) (chunk : Nat) :
    (ringPostedRounds w rH lH stageH chunk).map Prod.snd = ringPosted w rH lH stageH chunk := by
  simp only [ringPostedRounds, ringPosted, List.map_cons, List.map_flatMap, postedRound_ops]

/-- The operations of a call, with their rounds; a barrier has one. -/
def callRounds (w : World) : Call → List (Nat × Op)
  | .allreduce count =>
    let buf : BufferHandle := ⟨.buf, sizeT (count * sizeofFloat)⟩
    if count % w.size ≠ 0 then []
    else if w.size < 2 then []
    else ringPostedRounds w buf buf ⟨.stage, sizeT (2 * chunkBytes (count / w.size))⟩ (count / w.size)
  | .barrier =>
    let scratch : BufferHandle := ⟨.scratch, 16 * sizeofFloat⟩
    (worldBarrier false w scratch scratch).map (Prod.mk 0)

theorem rounds_ops (w : World) (c : Call) : (callRounds w c).map Prod.snd = (c.ops false w).getD [] := by
  cases c with
  | allreduce count =>
    simp only [callRounds, Call.ops, ringAllreduce]
    split
    · rfl
    · split
      · rfl
      · exact ringPostedRounds_ops ..
  | barrier => simp [callRounds, Call.ops, Function.comp_def]

/-- The events of the calls `cs`, the first of them being number `i`. -/
def events (w : World) : Nat → List Call → List Event
  | _, [] => []
  | i, c :: cs => (callRounds w c).map (fun e => ⟨i, e.1, e.2⟩) ++ events w (i + 1) cs

theorem events_append (w : World) (i : Nat) (cs cs' : List Call) :
    events w i (cs ++ cs') = events w i cs ++ events w (i + cs.length) cs' := by
  induction cs generalizing i with
  | nil => rfl
  | cons c cs ih =>
    simp only [List.cons_append, events, ih, List.append_assoc, List.length_cons]
    rw [Nat.add_assoc, Nat.add_comm 1]

/-- The events of one kind. -/
def ofKind (k : Kind) (es : List Event) : List Event := es.filter fun e => kindOf e.op = some k

theorem ofKind_append (k : Kind) (es es' : List Event) : ofKind k (es ++ es') = ofKind k es ++ ofKind k es' :=
  List.filter_append ..

/-! ## All kinds belong to the same rounds -/

/-- The rounds of a call. -/
def callTags (N : Nat) : Call → List Nat
  | .allreduce count => if count % N ≠ 0 then [] else if N < 2 then [] else List.range (2 * (N - 1))
  | .barrier => if N < 2 then [] else [0]

/-- The call and the round of each message of a session. -/
def tags (N : Nat) : Nat → List Call → List (Nat × Nat)
  | _, [] => []
  | i, c :: cs => (callTags N c).map (Prod.mk i) ++ tags N (i + 1) cs

/-- The first receive is posted ahead, and each round posts the next one's. -/
theorem range_ahead (n : Nat) :
    0 :: (List.range (n + 1)).flatMap (fun s => if s + 1 < n + 1 then [s + 1] else []) = List.range (n + 1) := by
  rw [List.range_succ, List.flatMap_append, List.flatMap_singleton, if_neg (Nat.lt_irrefl _), List.append_nil,
    ← List.range_succ, List.range_succ_eq_map]
  congr 1
  rw [List.map_eq_flatMap]
  refine List.flatMap_congr fun s hs => ?_
  rw [if_pos (Nat.succ_lt_succ (List.mem_range.mp hs))]

theorem kind_postRecv (w : World) (lH stageH : BufferHandle) (chunk s : Nat) :
    kindOf (postRecv w lH stageH chunk s) = some .recv := by
  unfold postRecv
  split <;> rfl

theorem kind_postedSum {w : World} {chunk s : Nat} {op : Op} (h : op ∈ postedSum w chunk s) : kindOf op = none := by
  unfold postedSum at h
  split at h
  · rw [List.mem_singleton.mp h]
    rfl
  · cases h

/-- The operations of one kind in a round. -/
theorem filter_postedRound (w : World) (rH lH stageH : BufferHandle) (chunk s : Nat) (k : Kind) :
    ((postedRound w rH lH stageH chunk s).filter fun e => kindOf e.2 = some k).map Prod.fst =
      if k = .recv then if s + 1 < w.steps then [s + 1] else [] else [s] := by
  have hsum : ((postedSum w chunk s).map (Prod.mk s)).filter (fun e => kindOf e.2 = some k) = [] := by
    rw [List.filter_eq_nil_iff]
    intro e he
    obtain ⟨op, hop, rfl⟩ := List.mem_map.mp he
    simp [kind_postedSum hop]
  have hnext : ((if s + 1 < w.steps then [(s + 1, postRecv w lH stageH chunk (s + 1))] else []).filter
      fun e => kindOf e.2 = some k).map Prod.fst = if k = .recv ∧ s + 1 < w.steps then [s + 1] else [] := by
    split
    · by_cases hk : k = .recv <;> simp [kind_postRecv, *, eq_comm]
    · simp [*]
  simp only [postedRound, List.filter_cons, List.filter_append, hsum]
  cases k <;> simp_all [kindOf]

theorem tags_callRounds (w : World) (c : Call) (k : Kind) :
    ((callRounds w c).filter fun e => kindOf e.2 = some k).map Prod.fst = callTags w.size c := by
  cases c with
  | allreduce count =>
    simp only [callRounds, callTags]
    split
    · rfl
    split
    · rfl
    next hN =>
    have hsteps : w.steps = 2 * (w.size - 1) := rfl
    obtain ⟨n, hn⟩ : ∃ n, w.steps = n + 1 := ⟨w.steps - 1, by omega⟩
    simp only [ringPostedRounds, List.filter_cons, kind_postRecv, List.filter_flatMap]
    by_cases hk : k = .recv
    · subst hk
      simp only [decide_true, if_true, List.map_cons, List.map_flatMap, filter_postedRound, ← hsteps, hn]
      exact range_ahead n
    · have hne : some Kind.recv ≠ some k := fun he => hk (Option.some.inj he).symm
      simp only [hne, decide_false, Bool.false_eq_true, if_false, List.map_flatMap, filter_postedRound, hk, ← hsteps]
      exact List.flatMap_singleton' _
  | barrier =>
    simp only [callRounds, callTags, worldBarrier]
    split
    · rfl
    · cases k <;> rfl

/-- Whatever the kind, the operations belong to the same calls and rounds in
the same order. -/
theorem tags_ofKind (w : World) (k : Kind) (i : Nat) (cs : List Call) :
    (ofKind k (events w i cs)).map (fun e => (e.call, e.round)) = tags w.size i cs := by
  induction cs generalizing i with
  | nil => rfl
  | cons c cs ih =>
    simp only [events, ofKind_append, List.map_append, ih, tags]
    congr 1
    rw [← tags_callRounds w c k, ofKind, List.filter_map, List.map_map, List.map_map]
    rfl

theorem length_ofKind (w : World) (k : Kind) (i : Nat) (cs : List Call) :
    (ofKind k (events w i cs)).length = (tags w.size i cs).length := by
  rw [← tags_ofKind w k i cs, List.length_map]

/-! ## What an event is -/

theorem mem_events {w : World} {i : Nat} {cs : List Call} {e : Event} (h : e ∈ events w i cs) :
    ∃ c, i ≤ e.call ∧ cs[e.call - i]? = some c ∧ (e.round, e.op) ∈ callRounds w c := by
  induction cs generalizing i with
  | nil => cases h
  | cons c cs ih =>
    rcases List.mem_append.mp h with h | h
    · obtain ⟨⟨s, op⟩, hm, rfl⟩ := List.mem_map.mp h
      exact ⟨c, Nat.le_refl _, by simp, hm⟩
    · obtain ⟨c', hle, hc', hm⟩ := ih h
      refine ⟨c', by omega, ?_, hm⟩
      rw [show e.call - i = (e.call - (i + 1)) + 1 by omega, List.getElem?_cons_succ]
      exact hc'

/-- The send of round `s`. -/
def postSend (w : World) (rH : BufferHandle) (chunk s : Nat) : Op :=
  .sendAsync rH (chunkBytes chunk) s (sizeT (w.sendChunk s * chunkBytes chunk))

theorem mem_ringPostedRounds {w : World} {rH lH stageH : BufferHandle} {chunk s : Nat} {op : Op} (hw : 0 < w.steps)
    (h : (s, op) ∈ ringPostedRounds w rH lH stageH chunk) :
    s < w.steps ∧ (op = postRecv w lH stageH chunk s ∨ op = postSend w rH chunk s ∨ op = .pollLeft ∨
      op = .pollRight ∨ op ∈ postedSum w chunk s) := by
  rcases List.mem_cons.mp h with h | h
  · cases h
    exact ⟨hw, .inl rfl⟩
  obtain ⟨t, ht, h⟩ := List.mem_flatMap.mp h
  have ht := List.mem_range.mp ht
  rcases List.mem_cons.mp h with h | h
  · cases h
    exact ⟨ht, .inr (.inl rfl)⟩
  rcases List.mem_cons.mp h with h | h
  · cases h
    exact ⟨ht, .inr (.inr (.inl rfl))⟩
  rcases List.mem_append.mp h with h | h
  · split at h
    next hs =>
      cases List.mem_singleton.mp h
      exact ⟨hs, .inl rfl⟩
    · cases h
  rcases List.mem_cons.mp h with h | h
  · cases h
    exact ⟨ht, .inr (.inr (.inr (.inl rfl)))⟩
  · obtain ⟨op', hop, he⟩ := List.mem_map.mp h
    cases he
    exact ⟨ht, .inr (.inr (.inr (.inr hop)))⟩

/-- The length of every message of a call. -/
def msgLen (N : Nat) : Call → Nat
  | .allreduce count => u32 (chunkBytes (count / N))
  | .barrier => 1

theorem size_postRecv (w : World) (lH stageH : BufferHandle) (chunk s : Nat) :
    (wrOf (postRecv w lH stageH chunk s)).size = u32 (chunkBytes chunk) := by
  unfold postRecv
  split <;> rfl

/-- A post is of its call's length, and a barrier's byte is in the scratch
buffer. -/
theorem wr_of_mem {w : World} {c : Call} {s : Nat} {op : Op} {k : Kind} (h : (s, op) ∈ callRounds w c)
    (hk : k = .send ∨ k = .recv) (hop : kindOf op = some k) :
    (wrOf op).size = msgLen w.size c ∧ (c = .barrier → (wrOf op).area = .scratch) := by
  cases c with
  | allreduce count =>
    refine ⟨?_, fun hc => by cases hc⟩
    simp only [callRounds] at h
    split at h
    · cases h
    split at h
    · cases h
    next hN =>
    have hw : 0 < w.steps := by simp only [World.steps]; omega
    obtain ⟨-, rfl | rfl | rfl | rfl | hsum⟩ := mem_ringPostedRounds hw h
    · exact size_postRecv ..
    · rfl
    · rcases hk with rfl | rfl <;> cases hop
    · rcases hk with rfl | rfl <;> cases hop
    · rw [kind_postedSum hsum] at hop
      cases hop
  | barrier =>
    simp only [callRounds, worldBarrier] at h
    split at h
    · cases h
    · simp only [Bool.not_false, if_true, List.map_append, List.map_cons, List.map_nil, List.mem_append, List.mem_cons,
        Prod.mk.injEq, List.not_mem_nil, or_false] at h
      rcases h with (⟨rfl, rfl⟩ | ⟨rfl, rfl⟩) | ⟨rfl, rfl⟩ | ⟨rfl, rfl⟩
      · exact ⟨rfl, fun _ => rfl⟩
      · exact ⟨rfl, fun _ => rfl⟩
      · rcases hk with rfl | rfl <;> cases hop
      · rcases hk with rfl | rfl <;> cases hop

end RdmaInfra.Collective.Posted
