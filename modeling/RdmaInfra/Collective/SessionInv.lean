/-
Where a rank is in a session, and what its queue pairs hold there.

A rank is summed up by the events of the calls it has entered, split into those
it has done and those it has left, and by how many messages were placed on its
two links. Every queue then follows by counting the events of each kind
(`Position`). No length and no data is in it: it holds for every chunk size,
and of a rank that has failed.
-/
import RdmaInfra.Collective.QueuePair
import RdmaInfra.Collective.Session

namespace RdmaInfra.Collective.Posted

open Verbs (sgeInBounds)

variable {N : Nat} {β : Type}

/-- The `k`-th post of a kind in a list of events. -/
def postAt (kind : Kind) (es : List Event) (k : Nat) : Wr :=
  ((ofKind kind es)[k]?.map fun e => wrOf e.op).getD ⟨.scratch, 0, 0, 0⟩

/-- The number of events of a kind. -/
def tally (kind : Kind) (es : List Event) : Nat := (ofKind kind es).length

/-- The events `es` are left, `ops` being what is left of their operations: of a
reduction some elements may have been added. -/
def Behind (es : List Event) (ops : List Op) : Prop :=
  ops = es.map Event.op ∨
    ∃ e es' d s i k, es = e :: es' ∧ e.op = .sum d s (i + k) ∧ ops = .sum (d + i) (s + i) k :: es'.map Event.op

/-- No call of the session is refused, and every post passes its check. -/
def Runs (calls : List Call) (r : Fin N) : Prop :=
  (∀ c ∈ calls, (c.ops false (worldOf r)).isSome = true) ∧ ∀ e ∈ events (worldOf r) 0 calls, Fits e.op

/-- Rank `r` has entered the calls `before` and is in the last of them or behind
it; of their events it has `done` and `rest`; `got` messages were placed into
its receives and `out` of its own at its right neighbour. -/
structure Position (calls : List Call) (r : Fin N) (n : Node β) (before : List Call) (done rest : List Event)
    (got out : Nat) : Prop where
  split : events (worldOf r) 0 before = done ++ rest
  entered : before <+: calls
  inside : events (worldOf r) 0 before.dropLast <+: done
  ctl : n.ctl.failed = false → before ++ n.ctl.todo = calls ∧ Behind rest n.ctl.ops
  stopped : n.ctl.failed = true → n.ctl.todo = [] ∧ n.ctl.ops = [] ∧ ¬Runs calls r
  recv : RecvQueue (postAt .recv (events (worldOf r) 0 calls)) n (tally .recv done) (tally .pollLeft done) got
  send : SendQueue (postAt .send (events (worldOf r) 0 calls)) n (tally .send done) (tally .pollRight done) out

variable {calls before : List Call} {r : Fin N} {n n' : Node β} {done rest : List Event} {e : Event} {got out : Nat}
  {kind : Kind}

theorem tally_snoc : tally kind (done ++ [e]) = tally kind done + if kindOf e.op = some kind then 1 else 0 := by
  rw [tally, tally, ofKind_append, List.length_append]
  by_cases hk : kindOf e.op = some kind <;> simp [ofKind, hk]

theorem tally_le (kind : Kind) {es es' : List Event} (h : es <+: es') : tally kind es ≤ tally kind es' := by
  obtain ⟨t, rfl⟩ := h
  rw [tally, tally, ofKind_append, List.length_append]
  exact Nat.le_add_right _ _

/-- The event that follows `done`. -/
theorem ofKind_tally {es : List Event} (h : done ++ [e] <+: es) (hk : kindOf e.op = some kind) :
    (ofKind kind es)[tally kind done]? = some e := by
  obtain ⟨t, rfl⟩ := h
  have hone : ofKind kind [e] = [e] := by simp [ofKind, hk]
  simp only [tally, ofKind_append, hone, List.append_assoc, List.getElem?_append_right (Nat.le_refl _), Nat.sub_self]
  rfl

theorem postAt_tally {es : List Event} (h : done ++ [e] <+: es) (hk : kindOf e.op = some kind) :
    postAt kind es (tally kind done) = wrOf e.op := by
  rw [postAt, ofKind_tally h hk]
  rfl

theorem events_initial {w : World} (h : before <+: calls) : events w 0 before <+: events w 0 calls := by
  obtain ⟨t, rfl⟩ := h
  rw [events_append]
  exact List.prefix_append _ _

theorem Position.done_prefix (h : Position calls r n before done rest got out) :
    done <+: events (worldOf r) 0 calls :=
  List.IsPrefix.trans ⟨rest, h.split.symm⟩ (events_initial h.entered)

theorem Position.next_prefix (h : Position calls r n before done (e :: rest) got out) :
    done ++ [e] <+: events (worldOf r) 0 calls :=
  List.IsPrefix.trans ⟨rest, by rw [h.split, List.append_assoc]; rfl⟩ (events_initial h.entered)

/-- The rank is past the event `e`. -/
theorem Position.advance (h : Position calls r n before done (e :: rest) got out) (hok : n'.ctl.failed = false)
    (ht : n'.ctl.todo = n.ctl.todo) (ho : Behind rest n'.ctl.ops) (hf : n.ctl.failed = false)
    (hr : RecvQueue (postAt .recv (events (worldOf r) 0 calls)) n' (tally .recv (done ++ [e]))
      (tally .pollLeft (done ++ [e])) got)
    (hs : SendQueue (postAt .send (events (worldOf r) 0 calls)) n' (tally .send (done ++ [e]))
      (tally .pollRight (done ++ [e])) out) :
    Position calls r n' before (done ++ [e]) rest got out where
  split := by rw [h.split, List.append_assoc]; rfl
  entered := h.entered
  inside := h.inside.trans (List.prefix_append _ _)
  ctl := fun _ => ⟨by rw [ht]; exact (h.ctl hf).1, ho⟩
  stopped := fun hc => by simp [hok] at hc
  recv := hr
  send := hs

theorem Behind.nil (h : Behind rest []) : rest = [] := by
  rcases h with h | ⟨e, es, d, s, i, k, -, -, h⟩
  · exact List.map_eq_nil_iff.mp h.symm
  · cases h

/-- Where the next operation is no reduction, it is the next event's. -/
theorem Behind.cons {op : Op} {ops : List Op} (h : Behind rest (op :: ops)) (hk : (kindOf op).isSome = true) :
    ∃ e es, rest = e :: es ∧ e.op = op ∧ Behind es ops := by
  rcases h with h | ⟨e, es, d, s, i, k, -, -, h⟩
  · cases rest with
    | nil => cases h
    | cons e es =>
      cases h
      exact ⟨e, es, rfl, rfl, .inl rfl⟩
  · cases h
    cases hk

theorem Behind.sum {d s k : Nat} {ops : List Op} (h : Behind rest (.sum d s k :: ops)) :
    ∃ e es d' s' i, rest = e :: es ∧ e.op = .sum d' s' (i + k) ∧ d = d' + i ∧ s = s' + i ∧ ops = es.map Event.op := by
  rcases h with h | ⟨e, es, d', s', i, k', rfl, he, h⟩
  · cases rest with
    | nil => cases h
    | cons e es =>
      obtain ⟨he, ho⟩ := List.cons.inj h
      exact ⟨e, es, d, s, 0, rfl, by rw [← he, Nat.zero_add], rfl, rfl, ho⟩
  · cases h
    exact ⟨e, es, d', s', i, rfl, he, rfl, rfl, rfl⟩

/-! ## The program's steps -/

/-- A poll, a post or a reduction does to the tallies what its kind says. -/
theorem tally_of_kind (hk : kindOf e.op = some kind) : tally kind (done ++ [e]) = tally kind done + 1 := by
  rw [tally_snoc, if_pos hk]

theorem tally_of_ne (hk : kindOf e.op ≠ some kind) : tally kind (done ++ [e]) = tally kind done := by
  rw [tally_snoc, if_neg hk, Nat.add_zero]

/-- A post that does not pass its check ends the rank's program. -/
theorem Position.fail (h : Position calls r n before done (e :: rest) got out) (hfit : ¬Fits e.op) :
    Position calls r { n with ctl := .fail } before done (e :: rest) got out where
  split := h.split
  entered := h.entered
  inside := h.inside
  ctl := fun hc => by cases hc
  stopped := fun _ => ⟨rfl, rfl, fun hr => hfit (hr.2 e (h.next_prefix.subset (by simp)))⟩
  recv := h.recv.congr rfl rfl rfl
  send := h.send.congr rfl rfl rfl

theorem Position.enter (h : Position calls r n before done rest got out) (hok : n.ctl.failed = false)
    (ho : n.ctl.ops = []) {c : Ctl} (hc : n.ctl.enter false (worldOf r) = some c) :
    ∃ before' rest', Position calls r { n with ctl := c } before' done rest' got out := by
  obtain ⟨hcalls, hb⟩ := h.ctl hok
  rw [ho] at hb
  have hrest := hb.nil
  subst hrest
  have hsplit : done = events (worldOf r) 0 before := by rw [h.split, List.append_nil]
  simp only [Ctl.enter] at hc
  split at hc
  · cases hc
  next call todo ht =>
  have hpre : before ++ [call] <+: calls := ⟨todo, by rw [← hcalls, ht, List.append_assoc]; rfl⟩
  have hev : events (worldOf r) 0 (before ++ [call]) =
      done ++ (callRounds (worldOf r) call).map fun e => ⟨before.length, e.1, e.2⟩ := by
    rw [events_append, hsplit, Nat.zero_add]
    simp only [events, List.append_nil]
  have hops := rounds_ops (worldOf r) call
  have hin : events (worldOf r) 0 (before ++ [call]).dropLast <+: done := by
    have heq : events (worldOf r) 0 (before ++ [call]).dropLast = done := by rw [List.dropLast_concat, ← hsplit]
    exact heq ▸ List.prefix_rfl
  refine ⟨before ++ [call], (callRounds (worldOf r) call).map fun e => ⟨before.length, e.1, e.2⟩, ?_⟩
  split at hc
  next hnone =>
    cases hc
    refine ⟨hev, hpre, hin, (fun hf => by cases hf), fun _ => ⟨rfl, rfl, fun hr => ?_⟩, h.recv.congr rfl rfl rfl,
      h.send.congr rfl rfl rfl⟩
    have := hr.1 call (hpre.subset (by simp))
    rw [hnone] at this
    cases this
  next ops hsome =>
    cases hc
    refine ⟨hev, hpre, hin, fun _ => ⟨by rw [List.append_assoc, List.singleton_append, ← ht, hcalls], .inl ?_⟩,
      fun hf => by simp [hok] at hf, h.recv.congr rfl rfl rfl, h.send.congr rfl rfl rfl⟩
    rw [hsome, Option.getD_some] at hops
    rw [List.map_map, ← hops]
    rfl

/-- Whatever step a rank's program takes, it is at some later position. -/
theorem Position.run {plus : Word β → Word β → Word β} (h : Position calls r n before done rest got out)
    (hr : n.run plus (worldOf r) = some n') :
    ∃ before' done' rest', Position calls r n' before' done' rest' got out := by
  have hok : n.ctl.failed = false := by
    by_contra hf
    obtain ⟨ht, ho, -⟩ := h.stopped (by simpa using hf)
    simp [Node.run, ho, Ctl.enter, ht] at hr
  obtain ⟨-, hb⟩ := h.ctl hok
  cases hops : n.ctl.ops with
  | nil =>
    simp only [Node.run, hops] at hr
    obtain ⟨c, hc, rfl⟩ := Option.map_eq_some_iff.mp hr
    obtain ⟨before', rest', hp⟩ := h.enter hok hops hc
    exact ⟨before', done, rest', hp⟩
  | cons op ops =>
    rw [hops] at hb
    cases op with
    | sendAsync hdl len id off =>
      obtain ⟨e, es, rfl, he, hb⟩ := hb.cons rfl
      have hk : kindOf e.op = some .send := by rw [he]; rfl
      simp only [Node.run, hops] at hr
      split at hr
      next hin =>
        cases hr
        refine ⟨before, done ++ [e], es, h.advance hok rfl hb hok ?_ ?_⟩
        · rw [tally_of_ne (by simp [hk]), tally_of_ne (by simp [hk])]
          exact h.recv.congr rfl rfl rfl
        · rw [tally_of_kind hk, tally_of_ne (by simp [hk])]
          refine h.send.post ?_ rfl rfl
          rw [postAt_tally h.next_prefix hk, he]
          rfl
      next hin =>
        cases hr
        exact ⟨before, done, e :: es, h.fail (by rw [he]; exact hin)⟩
    | recvAsync hdl len id off =>
      obtain ⟨e, es, rfl, he, hb⟩ := hb.cons rfl
      have hk : kindOf e.op = some .recv := by rw [he]; rfl
      simp only [Node.run, hops] at hr
      split at hr
      next hin =>
        cases hr
        refine ⟨before, done ++ [e], es, h.advance hok rfl hb hok ?_ ?_⟩
        · rw [tally_of_kind hk, tally_of_ne (by simp [hk])]
          refine h.recv.post ?_ rfl rfl
          rw [postAt_tally h.next_prefix hk, he]
          rfl
        · rw [tally_of_ne (by simp [hk]), tally_of_ne (by simp [hk])]
          exact h.send.congr rfl rfl rfl
      next hin =>
        cases hr
        exact ⟨before, done, e :: es, h.fail (by rw [he]; exact hin)⟩
    | pollLeft =>
      obtain ⟨e, es, rfl, he, hb⟩ := hb.cons rfl
      have hk : kindOf e.op = some .pollLeft := by rw [he]; rfl
      simp only [Node.run, hops] at hr
      split at hr
      · cases hr
      next wc q hq =>
      cases hr
      refine ⟨before, done ++ [e], es, h.advance hok rfl hb hok ?_ ?_⟩
      · rw [tally_of_ne (by simp [hk]), tally_of_kind hk]
        exact (h.recv.poll { n.goto ops with leftCq := q } hq rfl rfl rfl).2.2
      · rw [tally_of_ne (by simp [hk]), tally_of_ne (by simp [hk])]
        exact h.send.congr rfl rfl rfl
    | pollRight =>
      obtain ⟨e, es, rfl, he, hb⟩ := hb.cons rfl
      have hk : kindOf e.op = some .pollRight := by rw [he]; rfl
      simp only [Node.run, hops] at hr
      split at hr
      · cases hr
      next wc q hq =>
      cases hr
      refine ⟨before, done ++ [e], es, h.advance hok rfl hb hok ?_ ?_⟩
      · rw [tally_of_ne (by simp [hk]), tally_of_ne (by simp [hk])]
        exact h.recv.congr rfl rfl rfl
      · rw [tally_of_ne (by simp [hk]), tally_of_kind hk]
        exact (h.send.poll { n.goto ops with rightCq := q } hq rfl rfl rfl).2.2
    | sum d s k =>
      obtain ⟨e, es, d', s', i, rfl, he, rfl, rfl, rfl⟩ := hb.sum
      have hk : kindOf e.op = none := by rw [he]; rfl
      cases k with
      | zero =>
        simp only [Node.run, hops] at hr
        cases hr
        refine ⟨before, done ++ [e], es, h.advance hok rfl (.inl rfl) hok ?_ ?_⟩
        · rw [tally_of_ne (by simp [hk]), tally_of_ne (by simp [hk])]
          exact h.recv.congr rfl rfl rfl
        · rw [tally_of_ne (by simp [hk]), tally_of_ne (by simp [hk])]
          exact h.send.congr rfl rfl rfl
      | succ k =>
        simp only [Node.run, hops] at hr
        cases hr
        refine ⟨before, done, e :: es, h.split, h.entered, h.inside, fun _ => ⟨(h.ctl hok).1, .inr ?_⟩,
          fun hf => by simp [Node.goto, hok] at hf, h.recv.congr rfl rfl rfl, h.send.congr rfl rfl rfl⟩
        exact ⟨e, es, d', s', i + 1, k, rfl, by rw [he, Nat.add_right_comm, Nat.add_assoc], rfl⟩

/-! ## The steps of the ring -/

/-- Every rank is at some position; `got r` messages were placed at rank `r`. -/
def SessionInv (calls : List Call) (got : Fin N → Nat) (s : State N β) : Prop :=
  ∀ r, ∃ before done rest, Position calls r (s r) before done rest (got r) (got (right r))

variable {got : Fin N → Nat} {s s' : State N β} {plus : Word β → Word β → Word β}

theorem init_session (calls : List Call) (mem : Fin N → Area → Mem β) :
    SessionInv calls (fun _ => 0) (initState calls mem) := by
  intro r
  refine ⟨[], [], [], rfl, List.nil_prefix, List.nil_prefix, fun _ => ⟨rfl, .inl rfl⟩, (fun hf => by cases hf), ?_, ?_⟩
  · exact ⟨Nat.le_refl _, Nat.le_refl _, rfl, rfl⟩
  · exact ⟨Nat.le_refl _, Nat.le_refl _, rfl, rfl⟩

/-- One rank moves to another position. -/
theorem SessionInv.update (h : SessionInv calls got s) {r n'}
    (hn : ∃ before done rest, Position calls r n' before done rest (got r) (got (right r))) :
    SessionInv calls got (Function.update s r n') := by
  intro q
  by_cases hq : q = r
  · subst hq
    rw [Function.update_self]
    exact hn
  · rw [Function.update_of_ne hq]
    exact h q

theorem Position.congr_queues {g o g' o' : Nat} (h : Position calls r n before done rest g o) (hc : n'.ctl = n.ctl)
    (hr : RecvQueue (postAt .recv (events (worldOf r) 0 calls)) n' (tally .recv done) (tally .pollLeft done) g')
    (hs : SendQueue (postAt .send (events (worldOf r) 0 calls)) n' (tally .send done) (tally .pollRight done) o') :
    Position calls r n' before done rest g' o' :=
  ⟨h.split, h.entered, h.inside, hc ▸ h.ctl, hc ▸ h.stopped, hr, hs⟩

/-- What a placement finds: the next send of the rank and the next receive of
its right neighbour. -/
theorem place_cases {r : Fin N} (h : place r s = some s') :
    ∃ w sq v rq, (s r).sq = w :: sq ∧ (s (right r)).rq = v :: rq ∧
      w.data.length = w.wr.size ∧ w.wr.size ≤ v.size ∧
      s' = Function.update (Function.update s r { s r with sq := sq, acked := (s r).acked ++ [w.wr.id] }) (right r)
        ((Function.update s r { s r with sq := sq, acked := (s r).acked ++ [w.wr.id] } (right r)).fill v rq w.data) := by
  simp only [place] at h
  split at h
  next w sq v rq hs hr =>
    split at h
    next hc =>
      cases h
      exact ⟨w, sq, v, rq, hs, hr, hc.1, hc.2, rfl⟩
    · cases h
  · cases h

/-- The number of messages placed at each rank, after an action. -/
def bump (a : Action N) (got : Fin N → Nat) : Fin N → Nat :=
  match a with
  | .place r => Function.update got (right r) (got (right r) + 1)
  | _ => got

theorem SessionInv.place (hN : 2 ≤ N) (h : SessionInv calls got s) {r : Fin N} (hp : place r s = some s') :
    SessionInv calls (bump (.place r) got) s' := by
  obtain ⟨w, sq, v, rq, hsq, hrq, -, -, rfl⟩ := place_cases hp
  have hne : right r ≠ r := right_ne hN r
  rw [Function.update_of_ne hne]
  intro q
  obtain ⟨before, done, rest, hq⟩ := h q
  refine ⟨before, done, rest, ?_⟩
  -- The sender's `out` and the receiver's `got` grow; a rank may be neither.
  have hgot : bump (.place r) got q = if q = right r then got q + 1 else got q := by
    simp only [bump, Function.update_apply]
    split <;> simp [*]
  have hout : bump (.place r) got (right q) = if q = r then got (right q) + 1 else got (right q) := by
    simp only [bump, Function.update_apply]
    by_cases hqr : q = r
    · simp [hqr]
    · rw [if_neg (fun he => hqr (right_inj he)), if_neg hqr]
  rw [hgot, hout]
  by_cases hq1 : q = right r
  · subst hq1
    rw [Function.update_self, if_pos rfl, if_neg hne]
    exact hq.congr_queues rfl (hq.recv.fill w.data hrq).2.2 (hq.send.congr rfl rfl rfl)
  · rw [Function.update_of_ne hq1, if_neg hq1]
    by_cases hq2 : q = r
    · subst hq2
      rw [Function.update_self, if_pos rfl]
      exact hq.congr_queues rfl (hq.recv.congr rfl rfl rfl)
        (hq.send.place { s q with sq := sq, acked := (s q).acked ++ [w.wr.id] } hsq rfl rfl rfl).2.2
    · rw [Function.update_of_ne hq2, if_neg hq2]
      exact hq

theorem SessionInv.step (hN : 2 ≤ N) (h : SessionInv calls got s) {a : Action N} (hs : step plus a s = some s') :
    SessionInv calls (bump a got) s' := by
  cases a with
  | run r =>
    obtain ⟨n', hn, rfl⟩ := Option.map_eq_some_iff.mp hs
    obtain ⟨before, done, rest, hp⟩ := h r
    exact h.update (hp.run hn)
  | fetch r k =>
    obtain ⟨n', hn, rfl⟩ := Option.map_eq_some_iff.mp hs
    obtain ⟨before, done, rest, hp⟩ := h r
    have hsend := hp.send.fetch hn
    obtain ⟨w, -, -, rfl⟩ := Node.fetch_cases hn
    exact h.update ⟨before, done, rest, hp.congr_queues rfl (hp.recv.congr rfl rfl rfl) hsend⟩
  | place r => exact h.place hN hs
  | recvDone r =>
    obtain ⟨n', hn, rfl⟩ := Option.map_eq_some_iff.mp hs
    obtain ⟨before, done, rest, hp⟩ := h r
    have hrecv := hp.recv.done hn
    obtain ⟨id, ids, -, rfl⟩ := Node.recvDone_cases hn
    exact h.update ⟨before, done, rest, hp.congr_queues rfl hrecv (hp.send.congr rfl rfl rfl)⟩
  | sendDone r =>
    obtain ⟨n', hn, rfl⟩ := Option.map_eq_some_iff.mp hs
    obtain ⟨before, done, rest, hp⟩ := h r
    have hsend := hp.send.done hn
    obtain ⟨id, ids, -, rfl⟩ := Node.sendDone_cases hn
    exact h.update ⟨before, done, rest, hp.congr_queues rfl (hp.recv.congr rfl rfl rfl) hsend⟩

theorem reach_session (hN : 2 ≤ N) {mem : Fin N → Area → Mem β} (h : (system plus calls mem).Reach s) :
    ∃ got, SessionInv calls got s := by
  refine Lts.Reach.inv (I := fun s => ∃ got, SessionInv calls got s) ?_ ?_ h
  · rintro _ rfl
    exact ⟨_, init_session calls mem⟩
  · rintro s a s' - ⟨got, hI⟩ hs
    exact ⟨_, hI.step hN hs⟩

/-- The messages placed so far on the link from `r` to its right neighbour. -/
def placedOn (r : Fin N) (as : List (Action N)) : Nat :=
  as.countP fun a => match a with
    | .place q => q = r
    | _ => false

theorem bump_placedOn (a : Action N) (as : List (Action N)) (got : Fin N → Nat) (q : Fin N) :
    bump a got q + placedOn (left q) as = got q + placedOn (left q) (a :: as) := by
  cases a with
  | place r =>
    simp only [bump, placedOn, List.countP_cons, Function.update_apply, decide_eq_true_eq]
    by_cases hr : r = left q
    · rw [if_pos (by rw [hr, right_left]), if_pos hr, hr, right_left]
      omega
    · rw [if_neg fun hq => hr (by rw [hq, left_right]), if_neg hr]
      omega
  | run _ | fetch _ _ | recvDone _ | sendDone _ => simp [bump, placedOn]

/-- Every run keeps every rank at a position, with the messages of its links
counted. -/
theorem exec_session (hN : 2 ≤ N) (mem : Fin N → Area → Mem β) (as : List (Action N)) {got : Fin N → Nat}
    {s s' : State N β} (h : SessionInv calls got s) (he : (system plus calls mem).exec as s = some s') :
    SessionInv calls (fun q => got q + placedOn (left q) as) s' := by
  induction as generalizing got s with
  | nil =>
    cases he
    exact h
  | cons a as ih =>
    obtain ⟨t, ht, he⟩ := Option.bind_eq_some_iff.mp he
    have hs := ih (h.step hN ht) he
    simp only [bump_placedOn] at hs
    exact hs

/-- Where a rank of a run is. -/
theorem run_position (hN : 2 ≤ N) {mem : Fin N → Area → Mem β} {as : List (Action N)} {s : State N β}
    (he : (system plus calls mem).exec as (initState calls mem) = some s) (r : Fin N) :
    ∃ before done rest, Position calls r (s r) before done rest (placedOn (left r) as) (placedOn r as) := by
  have h := exec_session hN mem as (init_session calls mem) he r
  simpa only [Nat.zero_add, left_right] using h

end RdmaInfra.Collective.Posted
