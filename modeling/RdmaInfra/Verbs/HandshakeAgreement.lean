/-
The two sides of the handshake agree.

The invariant says where each side is and what has gone over the connection it
is on (`At`): what a side has sent in exchange `k` is a part of the `local` it
held there, what it has received is a part of what its peer sent there. The
client makes connection `k` for its exchange `k`, and the listeners hold the
connections made and not accepted in order, so the server's exchange `k` is on
the same one. A step of one side keeps what the other is in (`At.frame`).
-/
import RdmaInfra.Verbs.Handshake

namespace RdmaInfra.Verbs.Handshake

/-! ## The invariant -/

/-- What a side's `local` says of the queue pair, once built. -/
def Endpoint.Describes (e : Endpoint) (c : ConnInfo) : Prop :=
  c.qpn = e.qpNum ∧ c.psn = 0 ∧ e.gids.gid? (findRoceV2Gid e.gids) = some c.gid

/-- The image of the `local` a side held in exchange `k`. -/
def image (e : Endpoint) (held : List ConnInfo) (k : Nat) : List UInt8 :=
  match held[k]? with
  | some c => c.bytes e.pad
  | none => []

/-- The queue pair is built. -/
structure Built (e : Endpoint) (x : Side) : Prop where
  describes : e.Describes x.localInfo
  gidIndex : x.gidIndex = findRoceV2Gid e.gids

/-- `remote` is what the peer held in the last exchange begun. -/
structure Got (e : Endpoint) (x : Side) (peerHeld : List ConnInfo) : Prop where
  begun : x.held ≠ []
  remote : ∃ c, peerHeld[x.held.length - 1]? = some c ∧ x.remote = c.bytes e.pad

/-- In an exchange, on its own connection. -/
structure Current (x : Side) : Prop where
  fd : x.fd + 1 = x.held.length
  held : x.held[x.fd]? = some x.localInfo

/-- Side `p` at each point. -/
def At (e : Party → Endpoint) (p : Party) (x : Side) (peerHeld : List ConnInfo) (conns : Nat → Party → Stream) :
    Prop :=
  match x.pc with
  | .listen | .build => x.held = [] ∧ x.attr = none
  | .join => Built (e p) x ∧ (x.attr = none ∧ x.held = [] ∨ x.attr ≠ none ∧ Got (e p.peer) x peerHeld)
  | .send => Built (e p) x ∧ Current x ∧ (conns x.fd p).sent.length = x.pos ∧
      (p = .client → Got (e p.peer) x peerHeld) ∧ (p = .server → (conns x.fd p.peer).read = 0)
  | .recv => Built (e p) x ∧ Current x ∧ (conns x.fd p.peer).read = x.pos ∧
      x.remote.take x.pos = (conns x.fd p.peer).sent.take x.pos ∧ (p = .client → (conns x.fd p).sent = [])
  | .toRts => Built (e p) x ∧ x.attr = none ∧ Got (e p.peer) x peerHeld
  | .ready => Built (e p) x ∧ x.attr ≠ none ∧ Got (e p.peer) x peerHeld
  | .failed => True

/-- The attributes that reach the peer. -/
structure QpAttr.Reaches (own peer : Endpoint) (a : QpAttr) : Prop where
  destQpNum : a.destQpNum = peer.qpNum
  rqPsn : a.rqPsn = 0
  dgid : peer.gids.gid? (findRoceV2Gid peer.gids) = some a.dgid
  sgidIndex : a.sgidIndex = findRoceV2Gid own.gids
  sqPsn : a.sqPsn = 0

structure Inv (e : Party → Endpoint) (s : State) : Prop where
  side : ∀ p, At e p (s.sides p) (s.sides p.peer).held s.conns
  held : ∀ p, ∀ c ∈ (s.sides p).held, (e p).Describes c
  attr : ∀ p a, (s.sides p).attr = some a → a.Reaches (e p) (e p.peer)
  length : ∀ p, (s.sides p).remote.length = ConnInfo.size
  /-- What a side has sent in exchange `k` is a part of its `local` there. -/
  sent : ∀ k p, (s.conns k p).sent <+: image (e p) (s.sides p).held k
  read : ∀ k p, (s.conns k p).read ≤ (s.conns k p).sent.length
  unread : ∀ k p, (s.sides p).held.length ≤ k → (s.conns k p.peer).read = 0
  next : s.next = (s.sides .client).held.length
  accepted : (s.sides .server).held.length ≤ (s.sides .client).held.length
  /-- The listeners hold the connections made and not accepted. -/
  pending : s.ep ++ s.mr = span (s.sides .server).held.length (s.sides .client).held.length
  ep : ∀ k ∈ s.ep, k = 0

section Frame

variable {e : Party → Endpoint} {p : Party} {x : Side} {held held' : List ConnInfo} {conns conns' : Nat → Party → Stream}
  {k : Nat} {c : ConnInfo}

theorem image_append (hk : k < held.length) (e : Endpoint) (t : List ConnInfo) :
    image e (held ++ t) k = image e held k := by
  simp only [image, List.getElem?_append_left hk]

theorem image_of_le (hk : held.length ≤ k) (e : Endpoint) : image e held k = [] := by
  simp only [image, List.getElem?_eq_none hk]

/-- A prefix of an image that has its size is that image. -/
theorem eq_of_full {e : Endpoint} {bs : List UInt8} (h : bs <+: image e held k) (hl : ConnInfo.size ≤ bs.length) :
    ∃ c, held[k]? = some c ∧ bs = c.bytes e.pad := by
  simp only [image] at h
  split at h
  next c hc => exact ⟨c, hc, h.eq_of_length_le (by simpa using hl)⟩
  next hc =>
    rw [List.prefix_nil.mp h] at hl
    exact absurd hl (by decide)

theorem Got.mono {e : Endpoint} (h : Got e x held) (hh : held <+: held') : Got e x held' := by
  obtain ⟨hb, c, hc, hr⟩ := h
  obtain ⟨t, rfl⟩ := hh
  have hlt := (List.getElem?_eq_some_iff.mp hc).1
  exact ⟨hb, c, by rw [List.getElem?_append_left hlt, hc], hr⟩

/-- A step of the peer keeps what this side is in. -/
theorem At.frame (h : At e p x held conns) (hread : ∀ k, (conns k p.peer).read ≤ (conns k p.peer).sent.length)
    (hh : held <+: held') (hown : ∀ k, (conns' k p).sent = (conns k p).sent)
    (hpr : ∀ k, (conns' k p.peer).read = (conns k p.peer).read)
    (hps : ∀ k, (conns k p.peer).sent <+: (conns' k p.peer).sent) : At e p x held' conns' := by
  simp only [At] at h ⊢
  split at h
  · exact h
  · exact h
  · exact ⟨h.1, h.2.imp_right fun hg => ⟨hg.1, hg.2.mono hh⟩⟩
  · obtain ⟨hb, hc, hs, hg, hr⟩ := h
    exact ⟨hb, hc, by rw [hown, hs], fun hp => (hg hp).mono hh, fun hp => by rw [hpr, hr hp]⟩
  · obtain ⟨hb, hc, hr, ht, hs⟩ := h
    refine ⟨hb, hc, by rw [hpr, hr], ?_, fun hp => by rw [hown, hs hp]⟩
    obtain ⟨t, ht'⟩ := hps x.fd
    have hle := hread x.fd
    rw [← ht', List.take_append_of_le_length (by omega), ht]
  · exact ⟨h.1, h.2.1, h.2.2.mono hh⟩
  · exact ⟨h.1, h.2.1, h.2.2.mono hh⟩
  · trivial

end Frame

/-! ## Preservation -/

section Step

variable {e : Party → Endpoint} {s s' : State} {p : Party} {x : Side}

@[simp] theorem State.setSide_self : (s.setSide p x).sides p = x := Function.update_self ..

@[simp] theorem State.setSide_peer : (s.setSide p x).sides p.peer = s.sides p.peer :=
  Function.update_of_ne p.peer_ne _ _

@[simp] theorem State.setSide_conns : (s.setSide p x).conns = s.conns := rfl

@[simp] theorem State.setStream_sides {k st} : (s.setStream k p st).sides = s.sides := rfl

theorem State.setStream_conns {k st} (j : Nat) (q : Party) :
    (s.setStream k p st).conns j q = if j = k ∧ q = p then st else s.conns j q := by
  simp only [State.setStream, Function.update_apply]
  by_cases hj : j = k
  · subst hj; simp [Function.update_apply]
  · simp [hj]

/-- From the stepping side and its peer to every side. -/
theorem forall_party {P : Party → Prop} (p : Party) (h1 : P p) (h2 : P p.peer) : ∀ q, P q := by
  intro q
  obtain rfl | rfl := p.eq_or_peer q
  · exact h1
  · exact h2

/-- A step that changes only a side, and no history. -/
theorem Inv.setSide (hI : Inv e s) (hheld : x.held = (s.sides p).held)
    (hat : At e p x (s.sides p.peer).held s.conns) (hattr : ∀ a, x.attr = some a → a.Reaches (e p) (e p.peer))
    (hlen : x.remote.length = ConnInfo.size) : Inv e (s.setSide p x) := by
  have hall : ∀ q, ((s.setSide p x).sides q).held = (s.sides q).held :=
    forall_party p (by simp [hheld]) (by simp)
  refine ⟨forall_party p (by simpa using hat) ?_, ?_, forall_party p (by simpa using hattr) (by simpa using hI.attr p.peer),
    forall_party p (by simpa using hlen) (by simpa using hI.length p.peer), ?_, hI.read, ?_, ?_, ?_, ?_, hI.ep⟩
  · simpa [hheld] using hI.side p.peer
  · intro q; rw [hall]; exact hI.held q
  · intro k q; rw [hall]; exact hI.sent k q
  · intro k q; rw [hall]; exact hI.unread k q
  · rw [hall]; exact hI.next
  · rw [hall, hall]; exact hI.accepted
  · rw [hall, hall]; exact hI.pending

theorem Inv.fail (hI : Inv e s) (p : Party) : Inv e (s.setSide p (s.sides p).fail) :=
  hI.setSide rfl trivial (fun _ h => by simp [Side.fail] at h) (by simp [Side.fail])

theorem Got.describes {held : List ConnInfo} {e : Endpoint} (h : Got e x held) (hd : ∀ c ∈ held, e.Describes c) :
    e.Describes x.remoteInfo := by
  obtain ⟨-, c, hc, hr⟩ := h
  rw [Side.remoteInfo, hr, ConnInfo.ofBytes_bytes]
  exact hd c (List.mem_of_getElem? hc)

theorem Inv.buildQp (hI : Inv e s) (hpc : (s.sides p).pc = .build) :
    Inv e (s.setSide p ((s.sides p).buildQp (e p))) := by
  have hat := hI.side p
  simp only [At, hpc] at hat
  rw [Side.buildQp]
  split
  · exact hI.fail p
  next gid hg =>
    refine hI.setSide rfl ⟨⟨⟨rfl, rfl, hg⟩, rfl⟩, .inl ⟨hat.2, hat.1⟩⟩ ?_ (hI.length p)
    intro a ha
    simp [hat.2] at ha

theorem Inv.qpToRts (hI : Inv e s) (hpc : (s.sides p).pc = .toRts) : Inv e (s.setSide p (s.sides p).qpToRts) := by
  have hat := hI.side p
  simp only [At, hpc] at hat
  obtain ⟨hb, -, hg⟩ := hat
  have hd := hg.describes (hI.held p.peer)
  refine hI.setSide rfl ⟨⟨hb.describes, hb.gidIndex⟩, by simp [Side.qpToRts], ⟨hg.begun, hg.remote⟩⟩ ?_ (hI.length p)
  intro a ha
  simp only [Side.qpToRts, Option.some.injEq] at ha
  subst ha
  exact ⟨hd.1, hd.2.1, hd.2.2, hb.gidIndex, hb.describes.2.1⟩

/-- An unused connection is empty on this side. -/
theorem Inv.fresh (hI : Inv e s) {k} (hk : (s.sides p).held.length ≤ k) : (s.conns k p).sent = [] := by
  have h := hI.sent k p
  rwa [image_of_le hk, List.prefix_nil] at h

/-- An exchange begins, on the connection of its number. -/
theorem Inv.begin (hI : Inv e s) (hpc : (s.sides p).pc = .join) {pc} (hp : p = .server ∧ pc = .send ∨ p = .client ∧ pc = .recv)
    (hs : s'.sides = (s.setSide p ((s.sides p).begin pc (s.sides p).held.length)).sides) (hc : s'.conns = s.conns)
    (hnext : s'.next = (s'.sides .client).held.length)
    (hle : (s'.sides .server).held.length ≤ (s'.sides .client).held.length)
    (hpend : s'.ep ++ s'.mr = span (s'.sides .server).held.length (s'.sides .client).held.length)
    (hep : ∀ k ∈ s'.ep, k = 0) : Inv e s' := by
  have hat := hI.side p
  simp only [At, hpc] at hat
  obtain ⟨hb, -⟩ := hat
  have hself : s'.sides p = (s.sides p).begin pc (s.sides p).held.length := by rw [hs, State.setSide_self]
  have hpeer : s'.sides p.peer = s.sides p.peer := by rw [hs, State.setSide_peer]
  have hcur : Current ((s.sides p).begin pc (s.sides p).held.length) := ⟨by simp [Side.begin], by simp [Side.begin]⟩
  have hfresh := hI.fresh (p := p) le_rfl
  have hunread := hI.unread (s.sides p).held.length p le_rfl
  refine ⟨forall_party p ?_ ?_, forall_party p ?_ ?_, forall_party p ?_ ?_, forall_party p ?_ ?_, fun k => forall_party p ?_ ?_,
    by rw [hc]; exact hI.read, fun k => forall_party p ?_ ?_, hnext, hle, hpend, hep⟩
  · rw [hself, hpeer, hc]
    obtain ⟨rfl, rfl⟩ | ⟨rfl, rfl⟩ := hp
    · exact ⟨⟨hb.describes, hb.gidIndex⟩, hcur, by simp [Side.begin, hfresh], by simp, fun _ => hunread⟩
    · exact ⟨⟨hb.describes, hb.gidIndex⟩, hcur, hunread, rfl, fun _ => hfresh⟩
  · rw [Party.peer_peer, hself, hpeer, hc]
    refine (hI.side p.peer).frame (fun k => hI.read k _) ?_ (fun _ => rfl) (fun _ => rfl) (fun _ => List.prefix_rfl)
    rw [Party.peer_peer]
    exact List.prefix_append ..
  · rw [hself]
    intro c hc'
    simp only [Side.begin, List.mem_append, List.mem_singleton] at hc'
    rcases hc' with hc' | rfl
    · exact hI.held p c hc'
    · exact hb.describes
  · rw [hpeer]; exact hI.held _
  · rw [hself]; exact hI.attr p
  · rw [hpeer]; exact hI.attr _
  · rw [hself]; exact hI.length p
  · rw [hpeer]; exact hI.length _
  · rw [hself, hc]
    by_cases hk : k < (s.sides p).held.length
    · simp only [Side.begin, image_append hk]; exact hI.sent k p
    · rw [hI.fresh (by omega)]; exact List.nil_prefix
  · rw [hpeer, hc]; exact hI.sent k _
  · rw [hself, hc]
    intro hk
    simp only [Side.begin, List.length_append] at hk
    exact hI.unread k p (by omega)
  · rw [hpeer, hc]; exact hI.unread k _

theorem Inv.accept (hI : Inv e s) (hpc : (s.sides .server).pc = .join) (h : s.accept = some s') : Inv e s' := by
  have hat := hI.side .server
  simp only [At, hpc] at hat
  have hpend := hI.pending
  simp only [State.accept] at h
  split at h
  next ha =>
    split at h
    · cases h
    next k ks hep =>
      cases h
      rw [hep, List.cons_append] at hpend
      obtain ⟨hlt, rfl, hrest⟩ := span_cons hpend
      refine hI.begin hpc (.inl ⟨rfl, rfl⟩) rfl rfl hI.next ?_ ?_ fun j hj => hI.ep j ?_
      · simpa [State.setSide, Side.begin] using Nat.succ_le_of_lt hlt
      · simpa [State.setSide, Side.begin] using hrest
      · rw [hep]; exact List.mem_cons_of_mem _ hj
  next ha =>
    split at h
    · cases h
    next k ks hmr =>
      cases h
      -- The first exchange is over, so nothing waits on `port`.
      have hne : (s.sides .server).held ≠ [] := by
        rcases hat.2 with ⟨hn, -⟩ | ⟨-, hg⟩
        · simp [hn] at ha
        · exact hg.begun
      have hep : s.ep = [] := by
        cases hep : s.ep with
        | nil => rfl
        | cons j js =>
          rw [hep, List.cons_append] at hpend
          have hj := (span_cons hpend).2.1
          have hz := hI.ep j (by simp [hep])
          rw [hz] at hj
          exact absurd (List.length_eq_zero_iff.mp hj.symm) hne
      rw [hep, List.nil_append, hmr] at hpend
      obtain ⟨hlt, rfl, hrest⟩ := span_cons hpend
      refine hI.begin hpc (.inl ⟨rfl, rfl⟩) rfl rfl hI.next ?_ ?_ hI.ep
      · simpa [State.setSide, Side.begin] using Nat.succ_le_of_lt hlt
      · simpa [State.setSide, Side.begin, hep] using hrest

theorem Inv.connect (hI : Inv e s) (hpc : (s.sides .client).pc = .join) (h : s.connect = some s') : Inv e s' := by
  have hat := hI.side .client
  simp only [At, hpc] at hat
  have hnext := hI.next
  have hle := hI.accepted
  have hpush := span_push hle
  rw [← hI.pending, ← hnext] at hpush
  simp only [State.connect] at h
  rw [hnext] at h
  split at h
  next ha =>
    split at h <;> cases h
    have hnil : (s.sides .client).held = [] := by
      rcases hat.2 with ⟨-, hn⟩ | ⟨hn, -⟩
      · exact hn
      · exact absurd (Option.isNone_iff_eq_none.mp ha) hn
    have hempty : s.ep = [] ∧ s.mr = [] := by
      have hpend := hI.pending
      rwa [span_eq_nil.mpr (by rw [hnil]; exact Nat.zero_le _), List.append_eq_nil_iff] at hpend
    refine hI.begin hpc (.inr ⟨rfl, rfl⟩) rfl rfl ?_ ?_ ?_ ?_
    · simp [State.setSide, Side.begin]
    · simpa [State.setSide, Side.begin] using Nat.le_succ_of_le hle
    · simpa [State.setSide, Side.begin, hempty.1, hempty.2, hnext] using hpush
    · simp [hempty.1, hnil]
  next ha =>
    split at h <;> cases h
    refine hI.begin hpc (.inr ⟨rfl, rfl⟩) rfl rfl ?_ ?_ ?_ hI.ep
    · simp [State.setSide, Side.begin]
    · simpa [State.setSide, Side.begin] using Nat.le_succ_of_le hle
    · simpa [State.setSide, Side.begin, hnext] using hpush

/-- A step that changes a side and the streams it uses, and no history. -/
theorem Inv.transfer (hI : Inv e s) (hs : s'.sides = (s.setSide p x).sides) (hheld : x.held = (s.sides p).held)
    (hattr : x.attr = (s.sides p).attr) (hlen : x.remote.length = ConnInfo.size)
    (hat : At e p x (s.sides p.peer).held s'.conns)
    (hsent : ∀ k, (s.conns k p).sent <+: (s'.conns k p).sent ∧ (s'.conns k p).sent <+: image (e p) (s.sides p).held k)
    (hsent' : ∀ k, (s'.conns k p.peer).sent = (s.conns k p.peer).sent)
    (hread : ∀ k, (s'.conns k p).read = (s.conns k p).read)
    (hread' : ∀ k, (s'.conns k p.peer).read ≤ (s'.conns k p.peer).sent.length ∧
      ((s.sides p).held.length ≤ k → (s'.conns k p.peer).read = 0))
    (hnet : s'.ep = s.ep ∧ s'.mr = s.mr ∧ s'.next = s.next) : Inv e s' := by
  have hself : s'.sides p = x := by rw [hs, State.setSide_self]
  have hpeer : s'.sides p.peer = s.sides p.peer := by rw [hs, State.setSide_peer]
  have hall : ∀ q, (s'.sides q).held = (s.sides q).held := forall_party p (by rw [hself, hheld]) (by rw [hpeer])
  obtain ⟨hep, hmr, hnx⟩ := hnet
  refine ⟨forall_party p ?_ ?_, ?_, forall_party p ?_ ?_, forall_party p ?_ ?_, fun k => forall_party p ?_ ?_,
    fun k => forall_party p ?_ ?_, fun k => forall_party p ?_ ?_, ?_, ?_, ?_, ?_⟩
  · rw [hself, hpeer]; exact hat
  · rw [hpeer, hall]
    refine (hI.side p.peer).frame (fun k => hI.read k _) List.prefix_rfl hsent' ?_ ?_
    · rw [Party.peer_peer]; exact hread
    · rw [Party.peer_peer]; exact fun k => (hsent k).1
  · intro q; rw [hall]; exact hI.held q
  · rw [hself, hattr]; exact hI.attr p
  · rw [hpeer]; exact hI.attr _
  · rw [hself]; exact hlen
  · rw [hpeer]; exact hI.length _
  · rw [hall]; exact (hsent k).2
  · rw [hall, hsent']; exact hI.sent k _
  · rw [hread]; exact (hI.read k p).trans (hsent k).1.length_le
  · exact (hread' k).1
  · rw [hall]; exact (hread' k).2
  · rw [hall, Party.peer_peer, hread]
    have := hI.unread k p.peer
    rwa [Party.peer_peer] at this
  · rw [hnx, hall]; exact hI.next
  · rw [hall, hall]; exact hI.accepted
  · rw [hep, hmr, hall, hall]; exact hI.pending
  · rw [hep]; exact hI.ep

/-- Back from an exchange with `remote` received. -/
theorem At.done {held : List ConnInfo} {conns : Nat → Party → Stream} {y : Side} (hpc : y.pc = x.done)
    (hattr : y.attr = x.attr) (hb : Built (e p) y) (hg : Got (e p.peer) y held) : At e p y held conns := by
  by_cases hn : x.attr = none
  · simp only [At, hpc, Side.done, hn, Option.isNone_none, if_true]
    exact ⟨hb, hattr.trans hn, hg⟩
  · simp only [At, hpc, Side.done, Option.isNone_iff_eq_none, hn, if_false]
    exact ⟨hb, by rwa [hattr], hg⟩

/-- The bytes `send_all` goes on with. -/
theorem take_append_slice {α} {l l' : List α} (h : l <+: l') (n : Nat) :
    l ++ (l'.drop l.length).take n = l'.take (l.length + n) := by
  rw [List.take_add, ← List.prefix_iff_eq_take.mp h]

/-- The bytes `recv_all` has after the next of `l` came in. -/
theorem take_overwrite {α} {r l : List α} {pos n : Nat} (h : r.take pos = l.take pos) (hn : pos + n ≤ l.length) :
    (r.take pos ++ (l.drop pos).take n ++ r.drop (pos + n)).take (pos + n) = l.take (pos + n) := by
  rw [h, ← List.take_add, List.take_left' (by rw [List.length_take]; omega)]

section Transfer

variable {held : List ConnInfo} {conns conns' : Nat → Party → Stream} {n : Nat} {bs : List UInt8}

theorem Side.sendSome_keeps : (x.sendSome p n).held = x.held ∧ (x.sendSome p n).attr = x.attr ∧
    (x.sendSome p n).remote = x.remote := by
  rw [Side.sendSome]
  split <;> exact ⟨rfl, rfl, rfl⟩

theorem Side.recvSome_keeps (hr : x.remote.length = ConnInfo.size) (hn : x.pos + bs.length ≤ ConnInfo.size) :
    (x.recvSome p bs).held = x.held ∧ (x.recvSome p bs).attr = x.attr ∧
    (x.recvSome p bs).remote.length = ConnInfo.size := by
  rw [Side.recvSome]
  split <;> refine ⟨rfl, rfl, ?_⟩ <;> simp <;> omega

/-- After `send` took `n` more bytes. -/
theorem At.sendSome (h : At e p x held conns) (hpc : x.pc = .send) (hsent : (conns' x.fd p).sent.length = x.pos + n)
    (hread : (conns' x.fd p.peer).read = (conns x.fd p.peer).read) : At e p (x.sendSome p n) held conns' := by
  simp only [At, hpc] at h
  obtain ⟨hb, hcur, -, hg, hr⟩ := h
  rw [Side.sendSome]
  split
  · cases p with
    | server => exact ⟨⟨hb.describes, hb.gidIndex⟩, ⟨hcur.fd, hcur.held⟩, hread.trans (hr rfl), rfl, by simp⟩
    | client => exact At.done rfl rfl ⟨hb.describes, hb.gidIndex⟩ ⟨(hg rfl).begun, (hg rfl).remote⟩
  · simp only [At, hpc]
    exact ⟨⟨hb.describes, hb.gidIndex⟩, ⟨hcur.fd, hcur.held⟩, hsent, fun hp => ⟨(hg hp).begun, (hg hp).remote⟩,
      fun hp => hread.trans (hr hp)⟩

/-- After `recv` returned the next `n` bytes. -/
theorem At.recvSome (h : At e p x held conns) (hpc : x.pc = .recv) (hrl : x.remote.length = ConnInfo.size)
    (hpre : (conns x.fd p.peer).sent <+: image (e p.peer) held x.fd) (hn : x.pos + n ≤ (conns x.fd p.peer).sent.length)
    (hsent : ∀ q, (conns' x.fd q).sent = (conns x.fd q).sent) (hread : (conns' x.fd p.peer).read = x.pos + n) :
    At e p (x.recvSome p (((conns x.fd p.peer).sent.drop x.pos).take n)) held conns' := by
  simp only [At, hpc] at h
  obtain ⟨hb, hcur, -, ht, hs⟩ := h
  have hbl : (((conns x.fd p.peer).sent.drop x.pos).take n).length = n := by simp; omega
  rw [Side.recvSome, hbl]
  split
  next hall =>
    -- The whole image is in.
    simp only at hall
    obtain ⟨c, hc, hfull⟩ := eq_of_full hpre (by omega)
    have hnil : x.remote.drop (x.pos + n) = [] := List.drop_eq_nil_of_le (by omega)
    have hremote : x.remote.take x.pos ++ ((conns x.fd p.peer).sent.drop x.pos).take n ++ x.remote.drop (x.pos + n) =
        c.bytes (e p.peer).pad := by
      rw [hnil, List.append_nil, ht, ← List.take_add, hfull, List.take_of_length_le (by simp [hall])]
    have hlast : x.held.length - 1 = x.fd := by have := hcur.fd; omega
    have hne : x.held ≠ [] := by
      intro hne
      have := hcur.fd
      simp [hne] at this
    have hgot : ∀ y : Side, y.held = x.held → y.remote = c.bytes (e p.peer).pad → Got (e p.peer) y held :=
      fun y hy hy' => ⟨by rwa [hy], c, by rw [hy, hlast, hc], hy'⟩
    cases p with
    | server => exact At.done rfl rfl ⟨hb.describes, hb.gidIndex⟩ (hgot _ rfl hremote)
    | client =>
      refine ⟨⟨hb.describes, hb.gidIndex⟩, ⟨hcur.fd, hcur.held⟩, ?_, fun _ => hgot _ rfl hremote, by simp⟩
      rw [hsent, hs rfl]; rfl
  next =>
    simp only [At, hpc]
    refine ⟨⟨hb.describes, hb.gidIndex⟩, ⟨hcur.fd, hcur.held⟩, hread, ?_, fun hp => by rw [hsent, hs hp]⟩
    rw [take_overwrite ht hn, hsent]

end Transfer

theorem Inv.send (hI : Inv e s) {n} (h : step e (.send p n) s = some s') : Inv e s' := by
  simp only [step] at h
  split at h
  swap
  · cases h
  next hn =>
  cases h
  obtain ⟨hpc, hn0, hn⟩ := hn
  have hat := hI.side p
  have hat' := hat
  simp only [At, hpc] at hat'
  obtain ⟨-, hcur, hs, -⟩ := hat'
  have himg : image (e p) (s.sides p).held (s.sides p).fd = (s.sides p).localInfo.bytes (e p).pad := by
    simp only [image, hcur.held]
  have hslice := take_append_slice (himg ▸ hI.sent (s.sides p).fd p) n
  rw [hs] at hslice
  obtain ⟨hk1, hk2, hk3⟩ := Side.sendSome_keeps (x := s.sides p) (p := p) (n := n)
  refine hI.transfer (p := p) rfl hk1 hk2 (hk3 ▸ hI.length p) (hat.sendSome hpc ?_ ?_) (fun k => ?_) (fun k => ?_)
    (fun k => ?_) (fun k => ?_) ⟨rfl, rfl, rfl⟩ <;>
    rw [State.setSide_conns, State.setStream_conns]
  · rw [if_pos ⟨rfl, rfl⟩, Stream.send, hslice, List.length_take, ConnInfo.length_bytes, Nat.min_eq_left hn]
  · rw [if_neg (by simp [p.peer_ne])]
  · split
    next hk =>
      rw [hk.1]
      refine ⟨List.prefix_append _ _, ?_⟩
      rw [Stream.send, hslice, himg]
      exact List.take_prefix _ _
    next => exact ⟨List.prefix_rfl, hI.sent k p⟩
  · rw [if_neg (by simp [p.peer_ne])]
  · split
    next hk => rw [hk.1]; rfl
    next => rfl
  · rw [if_neg (by simp [p.peer_ne])]
    exact ⟨hI.read k _, hI.unread k p⟩

theorem Inv.recv (hI : Inv e s) {n} (h : step e (.recv p n) s = some s') : Inv e s' := by
  simp only [step] at h
  split at h
  swap
  · cases h
  next hn =>
  obtain ⟨hpc, hn⟩ := hn
  obtain ⟨⟨bs, st⟩, hrecv, rfl⟩ := Option.map_eq_some_iff.mp h
  simp only [Stream.recv] at hrecv
  split at hrecv
  swap
  · cases hrecv
  next hav =>
  have hat := hI.side p
  have hat' := hat
  simp only [At, hpc] at hat'
  obtain ⟨-, hcur, hr, -⟩ := hat'
  have hfd := hcur.fd
  rw [hr] at hrecv hav
  cases hrecv
  have hbl : (((s.conns (s.sides p).fd p.peer).sent.drop (s.sides p).pos).take n).length = n := by simp; omega
  obtain ⟨hk1, hk2, hk3⟩ := Side.recvSome_keeps (p := p) (hI.length p) (hbl.symm ▸ hn)
  refine hI.transfer (p := p) rfl hk1 hk2 hk3
    (hat.recvSome hpc (hI.length p) (hI.sent _ _) hav.2 (fun q => ?_) ?_) (fun k => ?_) (fun k => ?_)
    (fun k => ?_) (fun k => ?_) ⟨rfl, rfl, rfl⟩ <;>
    rw [State.setSide_conns, State.setStream_conns]
  · split
    next hq => rw [hq.2]
    next => rfl
  · rw [if_pos ⟨rfl, rfl⟩]
  · rw [if_neg (by simp [p.peer_ne.symm])]
    exact ⟨List.prefix_rfl, hI.sent k p⟩
  · split
    next hk => rw [hk.1]
    next => rfl
  · rw [if_neg (by simp [p.peer_ne.symm])]
  · split
    next hk => exact ⟨hav.2, fun hle => by omega⟩
    next => exact ⟨hI.read k _, hI.unread k p⟩

theorem step_inv {a} (hI : Inv e s) (h : step e a s = some s') : Inv e s' := by
  cases a with
  | run p =>
    have hat := hI.side p
    simp only [step, run] at h
    split at h <;> rename_i hpc <;> simp only [At, hpc] at hat
    · cases h; exact hI.setSide rfl hat (hI.attr p) (hI.length p)
    · cases h; exact hI.buildQp hpc
    · cases p with
      | server => exact hI.accept hpc h
      | client => exact hI.connect hpc h
    · cases h; exact hI.qpToRts hpc
    · cases h
      obtain ⟨hb, ha, hg⟩ := hat
      exact hI.setSide rfl ⟨⟨hb.describes, hb.gidIndex⟩, .inr ⟨ha, ⟨hg.begun, hg.remote⟩⟩⟩ (hI.attr p) (hI.length p)
    all_goals cases h
  | send p n => exact hI.send h
  | recv p n => exact hI.recv h
  | setMr p addr rkey =>
    have hat := hI.side p
    simp only [step] at h
    split at h
    swap
    · cases h
    next hpc =>
    cases h
    refine hI.setSide rfl ?_ (hI.attr p) (hI.length p)
    rcases hpc with hpc | ⟨hpc, -⟩ <;> simp only [At, hpc] at hat ⊢ <;> obtain ⟨hb, ha, hg⟩ := hat <;>
      exact ⟨⟨hb.describes, hb.gidIndex⟩, ha, ⟨hg.begun, hg.remote⟩⟩
  | fail p =>
    simp only [step] at h
    split at h <;> cases h
    exact hI.fail p

theorem init_inv (h : Init s) : Inv e s := by
  have hheld : ∀ p, (s.sides p).held = [] := fun p => (h.side p).2.1
  obtain ⟨hep, hmr, hnx, hconn⟩ := h.net
  refine ⟨?_, ?_, ?_, fun p => (h.side p).2.2, ?_, ?_, ?_, ?_, ?_, ?_, ?_⟩
  · intro p
    cases p with
    | server => simp only [At, h.server]; exact ⟨hheld _, (h.side _).1⟩
    | client => simp only [At, h.client]; exact ⟨hheld _, (h.side _).1⟩
  · intro p c hc
    simp [hheld] at hc
  · intro p a ha
    simp [(h.side p).1] at ha
  · intro k p; rw [hconn]; exact List.nil_prefix
  · intro k p; rw [hconn]; exact le_rfl
  · intro k p _; rw [hconn]; rfl
  · rw [hheld, hnx]; rfl
  · rw [hheld, hheld]
  · rw [hheld, hheld, hep, hmr]; rfl
  · simp [hep]

theorem reach_inv (h : (system e).Reach s) : Inv e s := by
  refine Lts.Reach.inv (I := Inv e) (fun _ => init_inv) ?_ h
  intro s a s' _ hI hst
  exact step_inv hI hst

end Step

/-! ## What follows -/

/-- The same queue pair: equal in `qpn`, `psn` and `gid`. -/
structure SameQp (c d : ConnInfo) : Prop where
  qpn : c.qpn = d.qpn
  psn : c.psn = d.psn
  gid : c.gid = d.gid

theorem Endpoint.Describes.same {e : Endpoint} {c d : ConnInfo} (hc : e.Describes c) (hd : e.Describes d) :
    SameQp c d := by
  obtain ⟨c1, c2, c3⟩ := hc
  obtain ⟨d1, d2, d3⟩ := hd
  exact ⟨c1.trans d1.symm, c2.trans d2.symm, Option.some.inj (c3.symm.trans d3)⟩

section Agreement

variable {e : Party → Endpoint} {s : State} {p : Party}

/-- A side that has begun an exchange has built its queue pair. -/
theorem Inv.built (hI : Inv e s) (hh : (s.sides p).held ≠ []) (hf : (s.sides p).pc ≠ .failed) :
    Built (e p) (s.sides p) := by
  have hat := hI.side p
  simp only [At] at hat
  split at hat
  · exact absurd hat.1 hh
  · exact absurd hat.1 hh
  · exact hat.1
  · exact hat.1
  · exact hat.1
  · exact hat.1
  · exact hat.1
  · exact absurd ‹_› hf

theorem Inv.got (hI : Inv e s) (hpc : (s.sides p).pc = .toRts ∨ (s.sides p).pc = .ready) :
    Got (e p.peer) (s.sides p) (s.sides p.peer).held := by
  have hat := hI.side p
  rcases hpc with hpc | hpc <;> simp only [At, hpc] at hat <;> exact hat.2.2

end Agreement

/-- However `send` and `recv` cut the streams and whatever fails: the queue
pair goes to RTS with the peer's number, packet sequence number and GID, those
the peer's own `local` has as long as it is not destroyed; and after every
exchange `remote` is, field for field, the `local` the peer held in it, which
never changes in `qpn`, `psn` and `gid`. -/
theorem handshake_agreement (e : Party → Endpoint) (s : State) (h : (system e).Reach s) (p : Party) :
    ((s.sides p).pc = .send ∨ (s.sides p).pc = .recv → (s.sides p).held.getLast? = some (s.sides p).localInfo) ∧
    (∀ s', (s.sides p).pc = .toRts → (system e).step (.run p) s = some s' →
      ∃ a, (s'.sides p).attr = some a ∧ a.Reaches (e p) (e p.peer) ∧
        ((s.sides p.peer).pc ≠ .failed → SameQp (s.sides p).remoteInfo (s.sides p.peer).localInfo ∧
          a.rqPsn = (s.sides p.peer).localInfo.psn ∧
          (e p.peer).gids.gid? (s.sides p.peer).gidIndex = some a.dgid)) ∧
    (∀ a b, (s.sides p).attr = some a → (s.sides p.peer).attr = some b →
      a.destQpNum = (e p.peer).qpNum ∧ a.rqPsn = b.sqPsn ∧ (e p.peer).gids.gid? b.sgidIndex = some a.dgid) ∧
    (∀ k, (s.sides p).pc = .toRts ∨ (s.sides p).pc = .ready → (s.sides p).held.length = k + 1 →
      ∃ c, (s.sides p.peer).held[k]? = some c ∧ (s.sides p).remoteInfo = c ∧
        ∀ d ∈ (s.sides p.peer).held, SameQp c d) := by
  have hI := reach_inv h
  refine ⟨?_, ?_, ?_, ?_⟩
  · have hat := hI.side p
    intro hpc
    have hcur : Current (s.sides p) := by
      rcases hpc with hpc | hpc <;> simp only [At, hpc] at hat <;> exact hat.2.1
    rw [List.getLast?_eq_getElem?, show (s.sides p).held.length - 1 = (s.sides p).fd by have := hcur.fd; omega]
    exact hcur.held
  · intro s' hpc hst
    have hI' : Inv e s' := step_inv (a := .run p) hI hst
    simp only [system, step, run, hpc, Option.some.injEq] at hst
    subst hst
    have hattr : ((s.setSide p (s.sides p).qpToRts).sides p).attr = (s.sides p).qpToRts.attr := by
      rw [State.setSide_self]
    refine ⟨_, hattr, hI'.attr p _ hattr, fun hf => ?_⟩
    have hg := hI.got (.inl hpc)
    have hd := hg.describes (hI.held p.peer)
    obtain ⟨c, hc, -⟩ := hg.remote
    have hb := hI.built (List.ne_nil_of_mem (List.mem_of_getElem? hc)) hf
    have hsame := hd.same hb.describes
    exact ⟨hsame, hsame.psn, by rw [hb.gidIndex]; exact hd.2.2⟩
  · intro a b ha hb
    have hra := hI.attr p a ha
    have hrb := hI.attr p.peer b hb
    exact ⟨hra.destQpNum, hra.rqPsn.trans hrb.sqPsn.symm, by rw [hrb.sgidIndex]; exact hra.dgid⟩
  · intro k hpc hk
    obtain ⟨-, c, hc, hr⟩ := hI.got hpc
    rw [hk, Nat.add_sub_cancel] at hc
    refine ⟨c, hc, by rw [Side.remoteInfo, hr, ConnInfo.ofBytes_bytes], fun d hd => ?_⟩
    exact (hI.held _ c (List.mem_of_getElem? hc)).same (hI.held _ d hd)

/-- Two endpoints, with a link-local GID before the IPv4-mapped one. -/
def twoEndpoints (p : Party) : Endpoint where
  qpNum := if p = .server then 7 else 9
  gids := [some ⟨⟨fun i => if i = 0 then 0xfe else if i = 1 then 0x80 else 0⟩, .roceV2⟩,
    some ⟨⟨fun i => if i = 10 ∨ i = 11 then 0xff else if i = 15 then (if p = .server then 1 else 2) else 0⟩, .roceV2⟩]
  pad := fun _ => 0

def twoIdle : State where
  sides p := ⟨if p = .server then .listen else .build, 0, .zero, List.replicate ConnInfo.size 0, none, 0, 0, []⟩
  ep := []
  mr := []
  conns _ _ := .empty
  next := 0

/-- The handshake in pieces and an exchange of the client's region, which the
client begins before the server has gone to RTS. -/
theorem handshake_two_exchanges :
    ∃ s c, (system twoEndpoints).Reach s ∧ (s.sides .server).pc = .ready ∧ (s.sides .client).pc = .ready ∧
      (s.sides .client).held[1]? = some c ∧ c.addr = 4096 ∧ c.rkey = 5 ∧ c.qpn = 9 ∧ (s.sides .server).remoteInfo = c := by
  let acts : List Action := [.run .server, .run .server, .run .client, .run .client, .run .server,
    .send .server 10, .recv .client 7, .send .server 30, .recv .client 33, .send .client 40, .recv .server 40,
    .run .client, .setMr .client 4096 5, .run .client, .run .client, .run .server, .run .server, .run .server,
    .send .server 40, .recv .client 40, .send .client 40, .recv .server 40]
  have he : ∃ s, (system twoEndpoints).exec acts twoIdle = some s ∧ (s.sides .server).pc = .ready ∧
      (s.sides .client).pc = .ready ∧ (s.sides .server).held.length = 2 ∧
      ∃ c, (s.sides .client).held[1]? = some c ∧ c.addr = 4096 ∧ c.rkey = 5 ∧ c.qpn = 9 :=
    ⟨_, rfl, rfl, rfl, rfl, _, rfl, rfl, rfl, rfl⟩
  obtain ⟨s, hs, hv, hc, hl, c, hh, hca, hcr, hcq⟩ := he
  have hinit : Init twoIdle := ⟨rfl, rfl, fun _ => ⟨rfl, rfl, rfl⟩, rfl, rfl, rfl, fun _ _ => rfl⟩
  have hr : (system twoEndpoints).Reach s := Lts.Reach.exec (Lts.Reach.init hinit) hs
  obtain ⟨-, -, -, hx⟩ := handshake_agreement twoEndpoints s hr .server
  obtain ⟨c', hc', hrem, -⟩ := hx 1 (.inr hv) hl
  obtain rfl : c' = c := Option.some.inj (hc'.symm.trans hh)
  exact ⟨s, c', hr, hv, hc, hh, hca, hcr, hcq, hrem⟩

end RdmaInfra.Verbs.Handshake
