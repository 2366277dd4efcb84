/-
`world_init`: the ranks dial each other into a ring, each from two threads.

A rank's thread listens and accepts its left neighbour while the rank itself
dials its right one, 600 times at most, and then joins the thread. The ranks
start in any order and take turns in any order, and every system call may fail.

A listener and the connector that dials it are a link. Ports tell the links
apart, so nothing but its own link can hold a rank up: what becomes of a rank
is read off its two links (`Link`).
-/
import RdmaInfra.Lts
import RdmaInfra.Collective.Chunks

namespace RdmaInfra.Collective.WorldInit

inductive Backend
  | tcp
  | rdma
  deriving DecidableEq, Repr

/-- The thread. `up`: in `accept` (TCP), or in `listen` until a request comes
(RDMA). `taken` and `accepting`: in RDMA's `accept`, before and after
`rdma_accept`. `ended`: returned, with the left connection if `listen_ret` is 0;
`bound` is whether the listening socket is still open. -/
inductive Listener (N : Nat)
  | start
  | up
  | taken (q : Fin N)
  | accepting (q : Fin N)
  | ended (left : Option (Fin N)) (bound : Bool)
  deriving DecidableEq, Repr

/-- The retry loop, before attempt `i` or (RDMA) inside it until the answer
comes; `ended`: left, with the right connection if `connect_ret` is 0. -/
inductive Connector (N : Nat)
  | tries (i : Nat)
  | asked (i : Nat) (p : Fin N)
  | ended (right : Option (Fin N))
  deriving DecidableEq, Repr

/-- One rank in `world_init`; `ret` is what it returned. -/
structure Node (N : Nat) where
  listener : Listener N
  connector : Connector N
  ret : Option Int
  deriving DecidableEq, Repr

def attempts : Nat := 600

variable {N : Nat} {M : Type}

/-- Attempt `i` failed. -/
def Connector.retry (i : Nat) : Connector N := if i + 1 < attempts then .tries (i + 1) else .ended none

/-- A dial to the address gets an answer. -/
def Listener.isBound : Listener N → Bool
  | .up => true
  | .ended _ bound => bound
  | _ => false

/-- Where the ranks run: `machine q` is the machine that `host_list[q]` names. -/
structure Net (N : Nat) (M : Type) where
  machine : Fin N → M
  basePort : Int

/-- `htons(base_port + rank)`. -/
def Net.port (net : Net N M) (q : Fin N) : Nat := ((net.basePort + q.val) % 2 ^ 16).toNat

def Net.addr (net : Net N M) (q : Fin N) : M × Nat := (net.machine q, net.port q)

/-- The outcomes of the system calls are part of an action: `listen` and
`cmAccept` may fail, and so may a dial (`connect r none`), a wait for a
connection (`accept r none`, `request r none`) and a wait for the answer
(`rejected`, `confirm r false`). -/
inductive Action (N : Nat)
  | listen (r : Fin N) (ok : Bool)
  | connect (r : Fin N) (p : Option (Fin N))
  | accept (r : Fin N) (q : Option (Fin N))
  | request (r : Fin N) (q : Option (Fin N))
  | cmAccept (r : Fin N) (ok : Bool)
  | established (r : Fin N)
  | rejected (r : Fin N)
  | confirm (r : Fin N) (ok : Bool)
  | join (r : Fin N)
  deriving DecidableEq, Repr

abbrev State (N : Nat) := Fin N → Node N

def State.setListener (s : State N) (r : Fin N) (l : Listener N) : State N :=
  Function.update s r { s r with listener := l }

def State.setConnector (s : State N) (r : Fin N) (c : Connector N) : State N :=
  Function.update s r { s r with connector := c }

/-- The listener of `p` answers where `r` dials. Port 0 is nobody's: `bind`
takes it for any free port. -/
def Hears (net : Net N M) (s : State N) (r p : Fin N) : Prop :=
  net.addr p = net.addr (right r) ∧ net.port p ≠ 0 ∧ (s p).listener.isBound = true

instance [DecidableEq M] {net : Net N M} {s : State N} {r p : Fin N} : Decidable (Hears net s r p) :=
  inferInstanceAs (Decidable (_ ∧ _ ∧ _))

variable (b : Backend) (net : Net N M)

section Step

variable [DecidableEq M]

/-- A TCP dial succeeds once its address listens: the kernel queues the
connection. An RDMA dial waits for the listener's thread. -/
def dial (r : Fin N) (p : Option (Fin N)) (s : State N) : Option (State N) :=
  match (s r).connector, p with
  | .tries i, none => some (s.setConnector r (.retry i))
  | .tries i, some p =>
    if Hears net s r p then
      some (s.setConnector r (match b with | .tcp => .ended (some p) | .rdma => .asked i p))
    else none
  | _, _ => none

/-- `t.join()` and the two checks after it. -/
def join (r : Fin N) (s : State N) : Option (State N) :=
  match (s r).listener, (s r).connector, (s r).ret with
  | .ended left _, .ended right, none =>
    some (Function.update s r { s r with ret := some (if left.isNone || right.isNone then -1 else 0) })
  | _, _, _ => none

def step : Action N → State N → Option (State N)
  | .listen r ok, s =>
    match (s r).listener with
    | .start => some (s.setListener r (if ok then .up else .ended none false))
    | _ => none
  | .connect r p, s => dial b net r p s
  | .accept r q, s =>
    match b, (s r).listener, q with
    | .tcp, .up, none => some (s.setListener r (.ended none true))
    | .tcp, .up, some q =>
      if (s q).connector = .ended (some r) then some (s.setListener r (.ended (some q) true)) else none
    | _, _, _ => none
  | .request r q, s =>
    match b, (s r).listener, q with
    | .rdma, .up, none => some (s.setListener r (.ended none false))
    | .rdma, .up, some q =>
      match (s q).connector with
      | .asked _ p => if p = r then some (s.setListener r (.taken q)) else none
      | _ => none
    | _, _, _ => none
  | .cmAccept r ok, s =>
    match (s r).listener with
    | .taken q => some (s.setListener r (if ok then .accepting q else .ended none false))
    | _ => none
  | .established r, s =>
    match (s r).connector with
    | .asked _ p =>
      if (s p).listener = .accepting r then some (s.setConnector r (.ended (some p))) else none
    | _ => none
  | .rejected r, s =>
    match (s r).connector with
    | .asked i _ => some (s.setConnector r (.retry i))
    | _ => none
  | .confirm r ok, s =>
    match (s r).listener with
    | .accepting q =>
      if ok then
        if (s q).connector = .ended (some r) then some (s.setListener r (.ended (some q) false)) else none
      else some (s.setListener r (.ended none false))
    | _ => none
  | .join r, s => join r s

/-- Every rank at the start of `world_init`. -/
def initState : State N := fun _ => ⟨.start, .tries 0, none⟩

def system : Lts (State N) (Action N) where
  init s := s = initState
  step := step b net

end Step

/-! ## What one step does -/

/-- Every way a step goes, with what it found. -/
inductive Moves (s : State N) : Action N → State N → Prop
  | up {r} : (s r).listener = .start → Moves s (.listen r true) (s.setListener r .up)
  | unbound {r} : (s r).listener = .start → Moves s (.listen r false) (s.setListener r (.ended none false))
  | failed {r i} : (s r).connector = .tries i → Moves s (.connect r none) (s.setConnector r (.retry i))
  | queued {r i p} : b = .tcp → (s r).connector = .tries i → Hears net s r p →
      Moves s (.connect r (some p)) (s.setConnector r (.ended (some p)))
  | asked {r i p} : b = .rdma → (s r).connector = .tries i → Hears net s r p →
      Moves s (.connect r (some p)) (s.setConnector r (.asked i p))
  | acceptFailed {r} : b = .tcp → (s r).listener = .up →
      Moves s (.accept r none) (s.setListener r (.ended none true))
  | accepted {r q} : b = .tcp → (s r).listener = .up → (s q).connector = .ended (some r) →
      Moves s (.accept r (some q)) (s.setListener r (.ended (some q) true))
  | requestFailed {r} : b = .rdma → (s r).listener = .up →
      Moves s (.request r none) (s.setListener r (.ended none false))
  | taken {r q i} : b = .rdma → (s r).listener = .up → (s q).connector = .asked i r →
      Moves s (.request r (some q)) (s.setListener r (.taken q))
  | accepting {r q} : (s r).listener = .taken q → Moves s (.cmAccept r true) (s.setListener r (.accepting q))
  | notAccepted {r q} : (s r).listener = .taken q →
      Moves s (.cmAccept r false) (s.setListener r (.ended none false))
  | established {r i p} : (s r).connector = .asked i p → (s p).listener = .accepting r →
      Moves s (.established r) (s.setConnector r (.ended (some p)))
  | rejected {r i p} : (s r).connector = .asked i p → Moves s (.rejected r) (s.setConnector r (.retry i))
  | confirmed {r q} : (s r).listener = .accepting q → (s q).connector = .ended (some r) →
      Moves s (.confirm r true) (s.setListener r (.ended (some q) false))
  | unconfirmed {r q} : (s r).listener = .accepting q →
      Moves s (.confirm r false) (s.setListener r (.ended none false))
  | joined {r left right bound} : (s r).listener = .ended left bound → (s r).connector = .ended right →
      (s r).ret = none → Moves s (.join r)
        (Function.update s r { s r with ret := some (if left.isNone || right.isNone then -1 else 0) })

variable {b net} {s s' : State N} {a : Action N} {r q : Fin N}

theorem dial_moves [DecidableEq M] {p : Option (Fin N)} (h : dial b net r p s = some s') : Moves b net s (.connect r p) s' := by
  unfold dial at h
  split at h
  next i hc =>
    cases h
    exact .failed hc
  next i p hc =>
    split at h
    next hp =>
      cases h
      cases b with
      | tcp => exact .queued rfl hc hp
      | rdma => exact .asked rfl hc hp
    · cases h
  · cases h

theorem join_moves (h : join r s = some s') : Moves b net s (.join r) s' := by
  unfold join at h
  split at h
  next hl hc hr =>
    cases h
    exact .joined hl hc hr
  · cases h

theorem step_moves [DecidableEq M] (h : step b net a s = some s') : Moves b net s a s' := by
  cases a with
  | listen r ok =>
    simp only [step] at h
    split at h
    next hl =>
      cases h
      cases ok with
      | true => exact .up hl
      | false => exact .unbound hl
    · cases h
  | connect r p => exact dial_moves h
  | accept r q =>
    simp only [step] at h
    split at h
    next hl =>
      cases h
      exact .acceptFailed rfl hl
    next hl =>
      split at h
      next hc =>
        cases h
        exact .accepted rfl hl hc
      · cases h
    · cases h
  | request r q =>
    simp only [step] at h
    split at h
    next hl =>
      cases h
      exact .requestFailed rfl hl
    next hl =>
      split at h
      next hc =>
        split at h
        next hp =>
          cases h
          exact .taken rfl hl (hp ▸ hc)
        · cases h
      · cases h
    · cases h
  | cmAccept r ok =>
    simp only [step] at h
    split at h
    next hl =>
      cases h
      cases ok with
      | true => exact .accepting hl
      | false => exact .notAccepted hl
    · cases h
  | established r =>
    simp only [step] at h
    split at h
    next hc =>
      split at h
      next hl =>
        cases h
        exact .established hc hl
      · cases h
    · cases h
  | rejected r =>
    simp only [step] at h
    split at h
    next hc =>
      cases h
      exact .rejected hc
    · cases h
  | confirm r ok =>
    simp only [step] at h
    split at h
    next hl =>
      cases ok with
      | true =>
        simp only [if_true] at h
        split at h
        next hc =>
          cases h
          exact .confirmed hl hc
        · cases h
      | false =>
        cases h
        exact .unconfirmed hl
    · cases h
  | join r => exact join_moves h

/-! ## The links -/

section Links

variable {l : Listener N} {c : Connector N}

@[simp] theorem listener_setListener : (s.setListener r l q).listener = if q = r then l else (s q).listener := by
  unfold State.setListener
  by_cases h : q = r
  · subst h
    simp
  · simp [h]

@[simp] theorem connector_setListener : (s.setListener r l q).connector = (s q).connector := by
  unfold State.setListener
  by_cases h : q = r
  · subst h
    simp
  · simp [h]

@[simp] theorem connector_setConnector : (s.setConnector r c q).connector = if q = r then c else (s q).connector := by
  unfold State.setConnector
  by_cases h : q = r
  · subst h
    simp
  · simp [h]

@[simp] theorem listener_setConnector : (s.setConnector r c q).listener = (s q).listener := by
  unfold State.setConnector
  by_cases h : q = r
  · subst h
    simp
  · simp [h]

theorem update_links {P : Fin N → Connector N → Listener N → Prop} {n : Node N}
    (h : ∀ q, P q (s q).connector (s (right q)).listener) (hc : n.connector = (s r).connector)
    (hl : n.listener = (s r).listener) (q : Fin N) :
    P q (Function.update s r n q).connector (Function.update s r n (right q)).listener := by
  have hconn : (Function.update s r n q).connector = (s q).connector := by
    by_cases hq : q = r
    · subst hq
      simpa using hc
    · simp [hq]
  have hlist : (Function.update s r n (right q)).listener = (s (right q)).listener := by
    by_cases hq : right q = r
    · subst hq
      simpa using hl
    · simp [hq]
  rw [hconn, hlist]
  exact h q

/-- A listener is the end of one link, its left one. -/
theorem setListener_links {P : Fin N → Connector N → Listener N → Prop}
    (h : ∀ q, P q (s q).connector (s (right q)).listener) (hl : P (left r) (s (left r)).connector l) (q : Fin N) :
    P q (s.setListener r l q).connector (s.setListener r l (right q)).listener := by
  rw [connector_setListener, listener_setListener]
  split
  next hq =>
    rw [← hq, left_right] at hl
    exact hl
  · exact h q

/-- A connector is the end of one link, its right one. -/
theorem setConnector_links {P : Fin N → Connector N → Listener N → Prop}
    (h : ∀ q, P q (s q).connector (s (right q)).listener) (hc : P r c (s (right r)).listener) (q : Fin N) :
    P q (s.setConnector r c q).connector (s.setConnector r c (right q)).listener := by
  rw [connector_setConnector, listener_setConnector]
  split
  next hq =>
    subst hq
    exact hc
  · exact h q

end Links

/-! ## Whom a rank is connected to -/

/-- Ports follow the ranks, so no two ranks have one address, whatever
machines they share. -/
theorem addr_inj (hN : N ≤ 2 ^ 16) {p q : Fin N} (h : net.addr p = net.addr q) : p = q := by
  have hport : net.port p = net.port q := congrArg Prod.snd h
  have hp := p.isLt
  have hq := q.isLt
  unfold Net.port at hport
  apply Fin.ext
  omega

theorem Hears.eq (hN : N ≤ 2 ^ 16) {p : Fin N} (h : Hears net s r p) : p = right r := addr_inj hN h.1

def Listener.peer : Listener N → Option (Fin N)
  | .taken q | .accepting q => some q
  | .ended left _ => left
  | _ => none

def Connector.peer : Connector N → Option (Fin N)
  | .asked _ p => some p
  | .ended right => right
  | _ => none

@[simp] theorem peer_retry {i : Nat} : (Connector.retry i : Connector N).peer = none := by
  unfold Connector.retry
  split <;> rfl

/-- The two ends of the link from `r` know no rank but each other, and the
listener's end is not done before the connector's. -/
structure Wired (r : Fin N) (c : Connector N) (l : Listener N) : Prop where
  conn : ∀ p, c.peer = some p → p = right r
  list : ∀ q, l.peer = some q → q = r
  made : ∀ q bound, l = .ended (some q) bound → c = .ended (some (right r))

theorem Wired.idle {c : Connector N} {l : Listener N} (h : Wired r c l) {l' : Listener N} (hp : l'.peer = none) :
    Wired r c l' := by
  refine ⟨h.conn, fun q hq => ?_, fun q bound hl => ?_⟩
  · rw [hp] at hq
    cases hq
  · subst hl
    cases hp

theorem Wired.retry {c : Connector N} {l : Listener N} (h : Wired r c l) {c' : Connector N}
    (hne : c ≠ .ended (some (right r))) (hp : ∀ p, c'.peer = some p → p = right r) : Wired r c' l :=
  ⟨hp, h.list, fun q bound hl => absurd (h.made q bound hl) hne⟩

/-- A rank has returned only where its thread and its loop are over. -/
def Joined (n : Node N) : Prop :=
  ∀ v, n.ret = some v → ∃ left bound right, n.listener = .ended left bound ∧ n.connector = .ended right ∧
    v = if left.isNone || right.isNone then -1 else 0

structure Inv (s : State N) : Prop where
  wired : ∀ r, Wired r (s r).connector (s (right r)).listener
  joined : ∀ r, Joined (s r)

theorem Inv.setListener (h : Inv s) {l : Listener N} (hne : ∀ left bound, (s r).listener ≠ .ended left bound)
    (hl : Wired (left r) (s (left r)).connector l) : Inv (s.setListener r l) := by
  refine ⟨setListener_links h.wired hl, fun q => ?_⟩
  by_cases hq : q = r
  · subst hq
    intro v hv
    rw [State.setListener, Function.update_self] at hv
    obtain ⟨left, bound, _, hover, -⟩ := h.joined q v hv
    exact absurd hover (hne left bound)
  · rw [State.setListener, Function.update_of_ne hq]
    exact h.joined q

theorem Inv.setConnector (h : Inv s) {c : Connector N} (hne : ∀ right, (s r).connector ≠ .ended right)
    (hc : Wired r c (s (right r)).listener) : Inv (s.setConnector r c) := by
  refine ⟨setConnector_links h.wired hc, fun q => ?_⟩
  by_cases hq : q = r
  · subst hq
    intro v hv
    rw [State.setConnector, Function.update_self] at hv
    obtain ⟨_, _, right, _, hover, -⟩ := h.joined q v hv
    exact absurd hover (hne right)
  · rw [State.setConnector, Function.update_of_ne hq]
    exact h.joined q

/-- The thread of `r` gives up. -/
theorem Inv.listenerFails (h : Inv s) {bound : Bool} (hne : ∀ left bound, (s r).listener ≠ .ended left bound) :
    Inv (s.setListener r (.ended none bound)) := by
  have hw := h.wired (left r)
  exact h.setListener hne (hw.idle rfl)

/-- The loop of `r` makes another attempt, or none. -/
theorem Inv.connectorFails (h : Inv s) {i : Nat} (hne : ∀ right, (s r).connector ≠ .ended right) :
    Inv (s.setConnector r (.retry i)) := by
  refine h.setConnector hne ((h.wired r).retry (hne _) fun p hp => ?_)
  rw [peer_retry] at hp
  cases hp

theorem Inv.moves (hN : N ≤ 2 ^ 16) (h : Inv s) (hm : Moves b net s a s') : Inv s' := by
  cases hm with
  | @up r hl =>
    have hw := h.wired (left r)
    exact h.setListener (by simp [hl]) (hw.idle rfl)
  | unbound hl => exact h.listenerFails (by simp [hl])
  | failed hc => exact h.connectorFails (by simp [hc])
  | @queued r i p _ hc hp =>
    refine h.setConnector (by simp [hc]) ((h.wired r).retry (by simp [hc]) fun q hq => ?_)
    cases hq
    exact hp.eq hN
  | @asked r i p _ hc hp =>
    refine h.setConnector (by simp [hc]) ((h.wired r).retry (by simp [hc]) fun q hq => ?_)
    cases hq
    exact hp.eq hN
  | acceptFailed _ hl => exact h.listenerFails (by simp [hl])
  | @accepted r q _ hl hc =>
    -- The connection is to this rank, so its left neighbour made it.
    have hq : right q = r := ((h.wired q).conn r (by rw [hc]; rfl)).symm
    subst hq
    refine h.setListener (by simp [hl]) ?_
    rw [left_right, hc]
    refine ⟨fun p hp => (Option.some.inj hp).symm, fun q' hq' => (Option.some.inj hq').symm, fun _ _ _ => rfl⟩
  | requestFailed _ hl => exact h.listenerFails (by simp [hl])
  | @taken r q i _ hl hc =>
    have hq : right q = r := ((h.wired q).conn r (by rw [hc]; rfl)).symm
    subst hq
    refine h.setListener (by simp [hl]) ?_
    rw [left_right]
    exact ⟨(h.wired q).conn, fun q' hq' => (Option.some.inj hq').symm, fun _ _ ho => nomatch ho⟩
  | @accepting r q hl =>
    have hw := h.wired (left r)
    rw [right_left] at hw
    exact h.setListener (by simp [hl]) ⟨hw.conn, fun q' hq' => hw.list q' (by rw [hl]; exact hq'),
      fun _ _ ho => nomatch ho⟩
  | notAccepted hl => exact h.listenerFails (by simp [hl])
  | @established r i p hc hl =>
    refine h.setConnector (by simp [hc]) ((h.wired r).retry (by simp [hc]) fun q hq => ?_)
    cases hq
    exact (h.wired r).conn p (by rw [hc]; rfl)
  | rejected hc => exact h.connectorFails (by simp [hc])
  | @confirmed r q hl hc =>
    have hq : right q = r := ((h.wired q).conn r (by rw [hc]; rfl)).symm
    subst hq
    refine h.setListener (by simp [hl]) ?_
    rw [left_right, hc]
    refine ⟨fun p hp => (Option.some.inj hp).symm, fun q' hq' => (Option.some.inj hq').symm, fun _ _ _ => rfl⟩
  | unconfirmed hl => exact h.listenerFails (by simp [hl])
  | @joined r left right bound hl hc hr =>
    refine ⟨update_links h.wired rfl rfl, fun q => ?_⟩
    by_cases hq : q = r
    · subst hq
      rw [Function.update_self]
      intro v hv
      cases hv
      exact ⟨left, bound, right, hl, hc, rfl⟩
    · rw [Function.update_of_ne hq]
      exact h.joined q

theorem init_inv : Inv (initState : State N) where
  wired _ := ⟨fun _ hp => (nomatch hp), fun _ hq => (nomatch hq), fun _ _ ho => (nomatch ho)⟩
  joined _ _ hv := nomatch hv

/-- Whatever order the ranks start in, whichever system calls fail and
whichever machines the ranks share: a rank whose `world_init` returned 0 is
connected to its two neighbours, its left connection being the one its left
neighbour made. -/
theorem world_init_ring [DecidableEq M] (hN : N ≤ 2 ^ 16) (h : (system b net).Reach s) (r : Fin N)
    (hr : (s r).ret = some 0) :
    (s r).connector = .ended (some (right r)) ∧ (∃ bound, (s r).listener = .ended (some (left r)) bound) ∧
      (s (left r)).connector = .ended (some r) := by
  have hi : Inv s := h.inv (fun s h0 => h0 ▸ init_inv) fun s a s' _ hi hs => hi.moves hN (step_moves hs)
  obtain ⟨l, bound, c, hl, hc, hv⟩ := hi.joined r 0 hr
  cases l with
  | none => simp at hv
  | some q =>
    cases c with
    | none => simp at hv
    | some p =>
      have hw := hi.wired (left r)
      rw [right_left] at hw
      have hp : p = right r := (hi.wired r).conn p (by rw [hc]; rfl)
      have hq : q = left r := hw.list q (by rw [hl]; rfl)
      have hmade := hw.made q bound hl
      rw [right_left] at hmade
      exact ⟨hp ▸ hc, ⟨bound, hq ▸ hl⟩, hmade⟩

/-- Two ranks of one machine. -/
def twoRanks : Net 2 Unit := ⟨fun _ => (), 12345⟩

/-- Rank 0 dials before rank 1 listens, and again after. -/
def twoRanksRun : List (Action 2) :=
  [.listen 0 true, .connect 0 none, .listen 1 true, .connect 0 (some 1), .connect 1 (some 0), .accept 0 (some 1),
    .accept 1 (some 0), .join 1, .join 0]

theorem twoRanks_returns : ∃ s, (system .tcp twoRanks).exec twoRanksRun initState = some s ∧ ∀ r, (s r).ret = some 0 := by
  obtain ⟨s, hs⟩ : ∃ s, (system .tcp twoRanks).exec twoRanksRun initState = some s :=
    Option.isSome_iff_exists.mp (by decide)
  refine ⟨s, hs, fun r => ?_⟩
  have hret : ((system .tcp twoRanks).exec twoRanksRun initState).map (fun s => (s r).ret) = some (some 0) := by
    revert r
    decide
  rw [hs] at hret
  exact Option.some.inj hret

theorem world_init_ring_two_ranks :
    ∃ s, (system .tcp twoRanks).Reach s ∧ (s 0).ret = some 0 ∧ (s 0).connector = .ended (some 1) ∧
      (s 1).connector = .ended (some 0) := by
  obtain ⟨s, hs, hret⟩ := twoRanks_returns
  have hreach : (system .tcp twoRanks).Reach s := (Lts.Reach.init rfl).exec hs
  obtain ⟨hright, -, hleft⟩ := world_init_ring (by decide) hreach 0 (hret 0)
  exact ⟨s, hreach, hret 0, hright, hleft⟩

/-! ## How it ends -/

/-- A step in which nothing breaks: the system calls succeed, and a dial fails
only where nobody listens. -/
def Faultless (net : Net N M) (s : State N) : Action N → Prop
  | .listen _ ok => ok = true
  | .connect r none => ∀ p, ¬Hears net s r p
  | .connect _ (some _) => True
  | .accept _ q => q.isSome
  | .request _ q => q.isSome
  | .cmAccept _ ok => ok = true
  | .established _ => True
  | .rejected _ => False
  | .confirm _ ok => ok = true
  | .join _ => True

/-- Nothing is left to happen but a fault. -/
def Quiet [DecidableEq M] (b : Backend) (net : Net N M) (s : State N) : Prop :=
  ∀ a, Faultless net s a → step b net a s = none

/-- All attempts of the loop failed. -/
def GaveUp (n : Node N) : Prop := n.connector = .ended none

instance {n : Node N} : Decidable (GaveUp n) := inferInstanceAs (Decidable (_ = _))

/-- The states of the link from `r` in a run without faults. -/
inductive Link (b : Backend) (r : Fin N) : Connector N → Listener N → Prop
  | dialing {i l} : l = .start ∨ l = .up → Link b r (.tries i) l
  | gaveUp {l} : l = .start ∨ l = .up → Link b r (.ended none) l
  | queued : b = .tcp → Link b r (.ended (some (right r))) .up
  | accepted : b = .tcp → Link b r (.ended (some (right r))) (.ended (some r) true)
  | asked {i} : b = .rdma → Link b r (.asked i (right r)) .up
  | taken {i} : b = .rdma → Link b r (.asked i (right r)) (.taken r)
  | accepting {i} : b = .rdma → Link b r (.asked i (right r)) (.accepting r)
  | established : b = .rdma → Link b r (.ended (some (right r))) (.accepting r)
  | confirmed : b = .rdma → Link b r (.ended (some (right r))) (.ended (some r) false)

/-- A dial only ever finds a listener that is still waiting. -/
theorem Link.dialed {i : Nat} {l : Listener N} (h : Link b r (.tries i) l) (hb : l.isBound = true) : l = .up := by
  cases h with
  | dialing hl =>
    obtain rfl | rfl := hl
    · cases hb
    · rfl

theorem Link.retry {i j : Nat} {l : Listener N} (h : Link b r (.tries i) l) : Link b r (.retry j) l := by
  cases h with
  | dialing hl =>
    unfold Connector.retry
    split
    · exact .dialing hl
    · exact .gaveUp hl

theorem Link.moves (hN : N ≤ 2 ^ 16) (hi : Inv s) (h : ∀ q, Link b q (s q).connector (s (right q)).listener)
    (hf : Faultless net s a) (hm : Moves b net s a s') (q : Fin N) :
    Link b q (s' q).connector (s' (right q)).listener := by
  cases hm with
  | @up r hl =>
    refine setListener_links h ?_ q
    have hr := h (left r)
    rw [right_left, hl] at hr
    generalize (s (left r)).connector = c at hr
    cases hr with
    | dialing => exact .dialing (.inr rfl)
    | gaveUp => exact .gaveUp (.inr rfl)
  | unbound => cases hf
  | @failed r i hc =>
    refine setConnector_links h ?_ q
    have hr := h r
    rw [hc] at hr
    exact hr.retry
  | @queued r i p hb hc hp =>
    refine setConnector_links h ?_ q
    have hr := h r
    obtain rfl := hp.eq hN
    rw [hc] at hr
    rw [hr.dialed hp.2.2]
    exact .queued hb
  | @asked r i p hb hc hp =>
    refine setConnector_links h ?_ q
    have hr := h r
    obtain rfl := hp.eq hN
    rw [hc] at hr
    rw [hr.dialed hp.2.2]
    exact .asked hb
  | acceptFailed => cases hf
  | @accepted r q' hb hl hc =>
    obtain rfl : r = right q' := (hi.wired q').conn r (by rw [hc]; rfl)
    refine setListener_links h ?_ q
    rw [left_right, hc]
    exact .accepted hb
  | requestFailed => cases hf
  | @taken r q' i hb hl hc =>
    obtain rfl : r = right q' := (hi.wired q').conn r (by rw [hc]; rfl)
    refine setListener_links h ?_ q
    rw [left_right, hc]
    exact .taken hb
  | @accepting r q' hl =>
    refine setListener_links h ?_ q
    have hr := h (left r)
    rw [right_left, hl] at hr
    generalize (s (left r)).connector = c at hr
    cases hr with
    | dialing hd => simp at hd
    | gaveUp hd => simp at hd
    | taken hb => exact .accepting hb
  | notAccepted => cases hf
  | @established r i p hc hl =>
    refine setConnector_links h ?_ q
    have hr := h r
    obtain rfl := (hi.wired r).conn p (by rw [hc]; rfl)
    rw [hc, hl] at hr
    rw [hl]
    cases hr with
    | accepting hb => exact .established hb
  | rejected => cases hf
  | @confirmed r q' hl hc =>
    obtain rfl : r = right q' := (hi.wired q').conn r (by rw [hc]; rfl)
    refine setListener_links h ?_ q
    have hr := h q'
    rw [hc, hl] at hr
    rw [left_right, hc]
    cases hr with
    | established hb => exact .confirmed hb
  | unconfirmed => cases hf
  | joined =>
    revert q
    exact update_links h rfl rfl

/-- Where nothing is left to happen, every loop is over. -/
theorem Quiet.connector [DecidableEq M] (hq : Quiet b net s) (hi : Inv s)
    (h : ∀ q, Link b q (s q).connector (s (right q)).listener) (r : Fin N) : ∃ right, (s r).connector = .ended right := by
  cases hc : (s r).connector with
  | ended right => exact ⟨right, rfl⟩
  | tries i =>
    exfalso
    by_cases hp : ∃ p, Hears net s r p
    · obtain ⟨p, hp⟩ := hp
      have hn := hq (.connect r (some p)) trivial
      simp [step, dial, hc, hp] at hn
    · have hn := hq (.connect r none) fun p hh => hp ⟨p, hh⟩
      simp [step, dial, hc] at hn
  | asked i p =>
    exfalso
    obtain rfl := (hi.wired r).conn p (by rw [hc]; rfl)
    have hr := h r
    rw [hc] at hr
    generalize hl : (s (right r)).listener = l at hr
    cases hr with
    | asked hb =>
      subst hb
      have hn := hq (.request (right r) (some r)) rfl
      simp [step, hl, hc] at hn
    | taken =>
      have hn := hq (.cmAccept (right r) true) rfl
      simp [step, hl] at hn
    | accepting =>
      have hn := hq (.established r) trivial
      simp [step, hc, hl] at hn

/-- Where nothing is left to happen, a thread that is not over waits for a
neighbour that gave up. -/
theorem Quiet.listener [DecidableEq M] (hq : Quiet b net s) (hi : Inv s)
    (h : ∀ q, Link b q (s q).connector (s (right q)).listener) (r : Fin N) :
    (GaveUp (s (left r)) ∧ (s r).listener = .up) ∨
      (¬GaveUp (s (left r)) ∧ ∃ bound, (s r).listener = .ended (some (left r)) bound) := by
  have hr := h (left r)
  rw [right_left] at hr
  obtain ⟨o, hc⟩ := hq.connector hi h (left r)
  unfold GaveUp
  rw [hc] at hr ⊢
  generalize hl : (s r).listener = l at hr
  cases hr with
  | gaveUp hs =>
    obtain rfl | rfl := hs
    · have hn := hq (.listen r true) rfl
      simp [step, hl] at hn
    · exact .inl ⟨rfl, rfl⟩
  | queued hb =>
    subst hb
    rw [right_left] at hc
    have hn := hq (.accept r (some (left r))) rfl
    simp [step, hl, hc] at hn
  | accepted => exact .inr ⟨by simp, _, rfl⟩
  | established =>
    rw [right_left] at hc
    have hn := hq (.confirm r true) rfl
    simp [step, hl, hc] at hn
  | confirmed => exact .inr ⟨by simp, _, rfl⟩

/-- Where nothing is left to happen, a rank whose two threads are over has
returned. -/
theorem Quiet.ret [DecidableEq M] (hq : Quiet b net s) (hi : Inv s) {left right : Option (Fin N)} {bound : Bool}
    (hl : (s r).listener = .ended left bound) (hc : (s r).connector = .ended right) :
    (s r).ret = some (if left.isNone || right.isNone then -1 else 0) := by
  cases hr : (s r).ret with
  | none =>
    have hn := hq (.join r) trivial
    simp [step, join, hl, hc, hr] at hn
  | some v =>
    obtain ⟨left', bound', right', hl', hc', hv⟩ := hi.joined r v hr
    rw [hl] at hl'
    rw [hc] at hc'
    cases hl'
    cases hc'
    rw [hv]

/-! ## How long it takes -/

def Listener.work : Listener N → Nat
  | .start => 4
  | .up => 3
  | .taken _ => 2
  | .accepting _ => 1
  | .ended _ _ => 0

def Connector.work : Connector N → Nat
  | .tries i => 2 * (attempts - i) + 2
  | .asked i _ => 2 * (attempts - i) + 1
  | .ended _ => 0

/-- The steps a rank has left at most. -/
def work (n : Node N) : Nat := n.listener.work + n.connector.work + if n.ret.isSome then 0 else 1

theorem setListener_work {l : Listener N} (h : l.work < (s r).listener.work) :
    ∑ q, work (s.setListener r l q) < ∑ q, work (s q) := sum_update_lt (fun _ => work) (by simp only [work]; omega)

theorem setConnector_work {c : Connector N} (h : c.work < (s r).connector.work) :
    ∑ q, work (s.setConnector r c q) < ∑ q, work (s q) := sum_update_lt (fun _ => work) (by simp only [work]; omega)

/-- An attempt that fails is one attempt fewer. -/
theorem retry_work (i : Nat) : (Connector.retry i : Connector N).work < 2 * (attempts - i) + 1 := by
  unfold Connector.retry
  split
  · simp only [Connector.work]
    omega
  · simp only [Connector.work]
    omega

theorem moves_work (h : Moves b net s a s') : ∑ q, work (s' q) < ∑ q, work (s q) := by
  cases h with
  | up hl => exact setListener_work (by simp [Listener.work, hl])
  | unbound hl => exact setListener_work (by simp [Listener.work, hl])
  | @failed r i hc =>
    have hlt := retry_work (N := N) i
    exact setConnector_work (by rw [hc, Connector.work]; omega)
  | queued _ hc _ => exact setConnector_work (by simp [Connector.work, hc])
  | asked _ hc _ => exact setConnector_work (by simp [Connector.work, hc])
  | acceptFailed _ hl => exact setListener_work (by simp [Listener.work, hl])
  | accepted _ hl _ => exact setListener_work (by simp [Listener.work, hl])
  | requestFailed _ hl => exact setListener_work (by simp [Listener.work, hl])
  | taken _ hl _ => exact setListener_work (by simp [Listener.work, hl])
  | accepting hl => exact setListener_work (by simp [Listener.work, hl])
  | notAccepted hl => exact setListener_work (by simp [Listener.work, hl])
  | established hc _ => exact setConnector_work (by simp [Connector.work, hc])
  | @rejected r i p hc => exact setConnector_work (by rw [hc]; exact retry_work i)
  | confirmed hl _ => exact setListener_work (by simp [Listener.work, hl])
  | unconfirmed hl => exact setListener_work (by simp [Listener.work, hl])
  | joined _ _ hr => exact sum_update_lt (fun _ => work) (by simp [work, hr])

/-! ## The outcome -/

section Outcome

variable [DecidableEq M]

/-- What a run without faults keeps. -/
theorem faultless_inv (hN : N ≤ 2 ^ 16) (h : (system b net).ReachBy (Faultless net) s) :
    Inv s ∧ ∀ q, Link b q (s q).connector (s (right q)).listener := by
  refine Lts.ReachBy.inv (I := fun s => Inv s ∧ ∀ q, Link b q (s q).connector (s (right q)).listener) ?_ ?_ h
  · intro s h0
    cases h0
    exact ⟨init_inv, fun q => .dialing (.inl rfl)⟩
  intro s a s' _ hf hi hs
  have hm := step_moves hs
  exact ⟨hi.1.moves hN hm, Link.moves hN hi.1 hi.2 hf hm⟩

theorem faultless_ret (hN : N ≤ 2 ^ 16) (h : (system b net).ReachBy (Faultless net) s) (hq : Quiet b net s) (r : Fin N) :
    (s r).ret = if GaveUp (s (left r)) then none else some (if GaveUp (s r) then -1 else 0) := by
  obtain ⟨hi, hlink⟩ := faultless_inv hN h
  obtain ⟨o, hc⟩ := hq.connector hi hlink r
  obtain ⟨hg, hl⟩ | ⟨hg, bound, hl⟩ := hq.listener hi hlink r
  · rw [if_pos hg]
    cases hr : (s r).ret with
    | none => rfl
    | some v =>
      obtain ⟨_, _, _, hl', -⟩ := hi.joined r v hr
      rw [hl] at hl'
      cases hl'
  · rw [if_neg hg, hq.ret hi hl hc]
    cases o with
    | none => simp [GaveUp, hc]
    | some p => simp [GaveUp, hc]

/-- A world in which nothing breaks: its run is bounded, and where it ends a
rank hangs in the join if its left neighbour's 600 attempts were over before it
listened, else returns -1 if its own were, and 0 otherwise. -/
theorem world_init_outcome (hN : N ≤ 2 ^ 16) (as : List (Action N)) (h : (system b net).exec as initState = some s)
    (hf : (system b net).Along (Faultless net) as initState) (hq : Quiet b net s) :
    as.length ≤ N * 1207 ∧
      ∀ r, (s r).ret = if GaveUp (s (left r)) then none else some (if GaveUp (s r) then -1 else 0) := by
  refine ⟨?_, faultless_ret hN ((Lts.ReachBy.init rfl).along hf h) hq⟩
  have hlen := Lts.exec_length_le (L := system b net) (fun s a s' hs => moves_work (step_moves hs)) h
  have hinit : ∑ q, work (initState q : Node N) = N * 1207 := by
    simp [initState, work, Listener.work, Connector.work, attempts]
  omega

/-- Once every rank has returned nothing is left to happen. -/
theorem quiet_of_returned (hi : Inv s) (h : ∀ r, (s r).ret ≠ none) : Quiet b net s := by
  have hover : ∀ r, ∃ left bound right, (s r).listener = .ended left bound ∧ (s r).connector = .ended right := by
    intro r
    obtain ⟨v, hv⟩ := Option.ne_none_iff_exists'.mp (h r)
    obtain ⟨left, bound, right, hl, hc, -⟩ := hi.joined r v hv
    exact ⟨left, bound, right, hl, hc⟩
  intro a _
  by_contra hs
  obtain ⟨s', hs⟩ := Option.ne_none_iff_exists'.mp hs
  cases step_moves hs with
  | failed hc | queued _ hc _ | asked _ hc _ | established hc _ | rejected hc =>
    obtain ⟨_, _, _, -, hc'⟩ := hover _
    rw [hc] at hc'
    cases hc'
  | joined _ _ hr => exact h _ hr
  | up hl | unbound hl | acceptFailed _ hl | accepted _ hl _ | requestFailed _ hl | taken _ hl _ | accepting hl
  | notAccepted hl | confirmed hl _ | unconfirmed hl =>
    obtain ⟨_, _, _, hl', -⟩ := hover _
    rw [hl] at hl'
    cases hl'

theorem twoRanks_faultless : (system .tcp twoRanks).Along (Faultless twoRanks) twoRanksRun initState := by
  refine ⟨rfl, fun s hs => ⟨?_, fun _ _ => ⟨rfl, fun _ _ => ⟨trivial, fun _ _ => ⟨trivial, fun _ _ => ⟨rfl, fun _ _ =>
    ⟨rfl, fun _ _ => ⟨trivial, fun _ _ => ⟨trivial, fun _ _ => trivial⟩⟩⟩⟩⟩⟩⟩⟩⟩
  cases hs
  intro p
  revert p
  decide

theorem world_init_outcome_two_ranks :
    ∃ s, (system .tcp twoRanks).exec twoRanksRun initState = some s ∧ twoRanksRun.length ≤ 2 * 1207 ∧
      ∀ r, (s r).ret = if GaveUp (s (left r)) then none else some (if GaveUp (s r) then -1 else 0) := by
  obtain ⟨s, hs, hret⟩ := twoRanks_returns
  have hby := (Lts.ReachBy.init rfl).along twoRanks_faultless hs
  have hq : Quiet .tcp twoRanks s := quiet_of_returned (faultless_inv (by decide) hby).1 fun r => by simp [hret r]
  obtain ⟨hlen, hout⟩ := world_init_outcome (by decide) twoRanksRun hs twoRanks_faultless hq
  exact ⟨s, hs, hlen, hout⟩

omit [DecidableEq M] in
/-- Where every listener has started, a dial finds it. -/
theorem faultless_dial (hport : ∀ q, net.port q ≠ 0) (h : ∀ q, Link b q (s q).connector (s (right q)).listener)
    (hup : ∀ q, (s q).listener ≠ .start) {i : Nat} (hc : (s r).connector = .tries i) : Hears net s r (right r) := by
  have hr := h r
  rw [hc] at hr
  generalize hl : (s (right r)).listener = l at hr
  cases hr with
  | dialing hs =>
    obtain rfl | rfl := hs
    · exact absurd hl (hup _)
    · exact ⟨rfl, hport _, by rw [hl]; rfl⟩

/-- A step that loses no attempt: a rank listens, or no rank has yet to. -/
theorem exists_faultless_step (hN : N ≤ 2 ^ 16) (hport : ∀ q, net.port q ≠ 0)
    (h : (system b net).ReachBy (Faultless net) s) (hg : ∀ q, ¬GaveUp (s q)) (hr : ∃ r, (s r).ret ≠ some 0) :
    ∃ a s', Faultless net s a ∧ step b net a s = some s' ∧ ∀ q, ¬GaveUp (s' q) := by
  obtain ⟨hi, hlink⟩ := faultless_inv hN h
  by_cases hup : ∃ q, (s q).listener = .start
  · obtain ⟨q, hq⟩ := hup
    refine ⟨.listen q true, s.setListener q .up, rfl, by simp [step, hq], fun p => ?_⟩
    rw [GaveUp, connector_setListener]
    exact hg p
  have hstarted : ∀ q, (s q).listener ≠ .start := fun q hq => hup ⟨q, hq⟩
  have hq : ¬Quiet b net s := by
    intro hq
    obtain ⟨r, hr⟩ := hr
    rw [faultless_ret hN h hq r, if_neg (hg _), if_neg (hg _)] at hr
    exact hr rfl
  obtain ⟨a, hq⟩ := Classical.not_forall.mp hq
  obtain ⟨hf, hs⟩ := Classical.not_imp.mp hq
  obtain ⟨s', hs⟩ := Option.ne_none_iff_exists'.mp hs
  refine ⟨a, s', hf, hs, fun p => ?_⟩
  have hm := step_moves hs
  -- Only a dial that fails can end the loop without a connection.
  cases hm with
  | failed hc => exact absurd (faultless_dial hport hlink hstarted hc) (hf _)
  | rejected => cases hf
  | queued =>
    rw [GaveUp, connector_setConnector]
    split
    · simp
    · exact hg p
  | asked =>
    rw [GaveUp, connector_setConnector]
    split
    · simp
    · exact hg p
  | established =>
    rw [GaveUp, connector_setConnector]
    split
    · simp
    · exact hg p
  | @joined r =>
    by_cases hp : p = r
    · subst hp
      simpa [GaveUp] using hg p
    · simpa [GaveUp, hp] using hg p
  | _ =>
    rw [GaveUp, connector_setListener]
    exact hg p

/-- Listening beside dialing never deadlocks: from every state of a world in
which nothing broke and no rank has given up, all ranks can still return 0. -/
theorem world_init_completes (hN : N ≤ 2 ^ 16) (hport : ∀ q, net.port q ≠ 0)
    (h : (system b net).ReachBy (Faultless net) s) (hg : ∀ q, ¬GaveUp (s q)) :
    ∃ as s', (system b net).exec as s = some s' ∧ (system b net).Along (Faultless net) as s ∧
      ∀ r, (s' r).ret = some 0 := by
  induction hn : ∑ q, work (s q) using Nat.strongRecOn generalizing s with
  | _ n ih =>
  by_cases hr : ∃ r, (s r).ret ≠ some 0
  · obtain ⟨a, s', hf, hs, hg'⟩ := exists_faultless_step hN hport h hg hr
    obtain ⟨as, t, he, hal, hret⟩ := ih _ (hn ▸ moves_work (step_moves hs)) (h.next hf hs) hg' rfl
    refine ⟨a :: as, t, ?_, ⟨hf, fun s'' hs'' => ?_⟩, hret⟩
    · rw [Lts.exec, show (system b net).step a s = some s' from hs, Option.bind_some]
      exact he
    · cases hs.symm.trans hs''
      exact hal
  · exact ⟨[], s, rfl, trivial, fun r => Classical.not_not.mp fun hne => hr ⟨r, hne⟩⟩

theorem world_init_completes_two_ranks :
    ∃ as s, (system .rdma twoRanks).exec as initState = some s ∧ ∀ r, (s r).ret = some 0 := by
  have h0 : (system .rdma twoRanks).ReachBy (Faultless twoRanks) initState := .init rfl
  obtain ⟨as, s, he, -, hret⟩ := world_init_completes (by decide) (by decide) h0 (by decide)
  exact ⟨as, s, he, hret⟩

end Outcome

end RdmaInfra.Collective.WorldInit
