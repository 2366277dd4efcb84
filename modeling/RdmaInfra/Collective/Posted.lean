/-
The ring over RDMA: every rank runs its calls on the posted-receive path, and
the NICs move the messages.

A rank's `left` queue pair carries its receives and its `right` one its sends.
A posted send fetches its source bytes one after another, each at any moment
until the message is placed, so a buffer changed too early is caught. The
message is placed into the oldest receive the right neighbour has posted and
waits while there is none (an RNR NAK, retried forever); its completion is
pollable any time after that, and so is the receive's.
-/
import Mathlib.Logic.Function.Basic
import RdmaInfra.Lts
import RdmaInfra.Memory
import RdmaInfra.Verbs.Ops
import RdmaInfra.Collective.Chunks

namespace RdmaInfra.Collective.Posted

open Verbs (sgeInBounds WcKind)

/-- A work request: the region it names, in bytes, and its id. -/
structure Wr where
  area : Area
  off : Nat
  size : Nat
  id : Nat
  deriving DecidableEq, Repr

/-- A posted send and the bytes fetched for it so far. -/
structure SendWr (β : Type) where
  wr : Wr
  data : List β

/-- A work completion. -/
structure Wc where
  kind : WcKind
  id : Nat
  deriving DecidableEq, Repr

/-- One rank: its program, its memory and its two queue pairs. `rq` holds the
receives posted and not yet filled, oldest first; `arrived` and `leftCq` those
filled, before and after their completion is pollable. `sq`, `acked` and
`rightCq` are the same for sends. -/
structure Node (β : Type) where
  ctl : Ctl
  mem : Area → Mem β
  rq : List Wr
  arrived : List Nat
  leftCq : List Wc
  sq : List (SendWr β)
  acked : List Nat
  rightCq : List Wc

abbrev State (N : Nat) (β : Type) := Fin N → Node β

/-- `run`: a rank's program takes a step. `fetch`: the NIC reads the next byte
of a rank's `k`-th outstanding send. `place`: its oldest send lands at the
right neighbour. `recvDone`, `sendDone`: a completion becomes pollable. -/
inductive Action (N : Nat)
  | run (r : Fin N)
  | fetch (r : Fin N) (k : Nat)
  | place (r : Fin N)
  | recvDone (r : Fin N)
  | sendDone (r : Fin N)

variable {N : Nat} {β : Type} (plus : Word β → Word β → Word β)

namespace Node

/-- The program goes on to `ops`. -/
def goto (n : Node β) (ops : List Op) : Node β := { n with ctl := { n.ctl with ops := ops } }

/-- The next step of a rank's program. `rai_post_send` and `rai_post_recv`
take the length as a `uint32_t`; a poll waits for the head of its queue. -/
def run (w : World) (n : Node β) : Option (Node β) :=
  match n.ctl.ops with
  | [] => (n.ctl.enter false w).map fun c => { n with ctl := c }
  | .sendAsync h len id off :: ops =>
    if sgeInBounds h.size (u32 len) off then
      some { n.goto ops with sq := n.sq ++ [⟨⟨h.area, off, u32 len, id⟩, []⟩] }
    else some { n with ctl := .fail }
  | .recvAsync h len id off :: ops =>
    if sgeInBounds h.size (u32 len) off then
      some { n.goto ops with rq := n.rq ++ [⟨h.area, off, u32 len, id⟩] }
    else some { n with ctl := .fail }
  | .pollLeft :: ops =>
    match n.leftCq with
    | [] => none
    | _ :: q => some { n.goto ops with leftCq := q }
  | .pollRight :: ops =>
    match n.rightCq with
    | [] => none
    | _ :: q => some { n.goto ops with rightCq := q }
  | .sum _ _ 0 :: ops => some (n.goto ops)
  | .sum dst src (k + 1) :: ops =>
    some { n.goto (.sum (dst + 1) (src + 1) k :: ops) with
      mem := Function.update n.mem .buf
        ((n.mem .buf).setWord dst (plus ((n.mem .buf).word dst) ((n.mem .stage).word src))) }

/-- The NIC reads one more byte for the `k`-th outstanding send. -/
def fetch (k : Nat) (n : Node β) : Option (Node β) :=
  match n.sq[k]? with
  | none => none
  | some w =>
    if w.data.length < w.wr.size then
      some { n with sq := n.sq.set k ⟨w.wr, w.data ++ [n.mem w.wr.area (w.wr.off + w.data.length)]⟩ }
    else none

/-- A message arrives in the receive `w`. -/
def fill (n : Node β) (w : Wr) (rq : List Wr) (data : List β) : Node β :=
  { n with
    mem := Function.update n.mem w.area ((n.mem w.area).write w.off data)
    rq := rq
    arrived := n.arrived ++ [w.id] }

def recvDone (n : Node β) : Option (Node β) :=
  match n.arrived with
  | [] => none
  | id :: ids => some { n with arrived := ids, leftCq := n.leftCq ++ [⟨.recv, id⟩] }

def sendDone (n : Node β) : Option (Node β) :=
  match n.acked with
  | [] => none
  | id :: ids => some { n with acked := ids, rightCq := n.rightCq ++ [⟨.send, id⟩] }

/-! What the NIC can have done to a rank. -/

theorem fetch_cases {n n' : Node β} {k : Nat} (h : n.fetch k = some n') :
    ∃ w, n.sq[k]? = some w ∧ w.data.length < w.wr.size ∧
      n' = { n with sq := n.sq.set k ⟨w.wr, w.data ++ [n.mem w.wr.area (w.wr.off + w.data.length)]⟩ } := by
  simp only [fetch] at h
  split at h
  · cases h
  next w hk =>
  split at h
  next hlt =>
    cases h
    exact ⟨w, hk, hlt, rfl⟩
  · cases h

theorem recvDone_cases {n n' : Node β} (h : n.recvDone = some n') :
    ∃ id ids, n.arrived = id :: ids ∧ n' = { n with arrived := ids, leftCq := n.leftCq ++ [⟨.recv, id⟩] } := by
  simp only [recvDone] at h
  split at h
  · cases h
  next id ids ha =>
    cases h
    exact ⟨id, ids, ha, rfl⟩

theorem sendDone_cases {n n' : Node β} (h : n.sendDone = some n') :
    ∃ id ids, n.acked = id :: ids ∧ n' = { n with acked := ids, rightCq := n.rightCq ++ [⟨.send, id⟩] } := by
  simp only [sendDone] at h
  split at h
  · cases h
  next id ids ha =>
    cases h
    exact ⟨id, ids, ha, rfl⟩

end Node

/-- The oldest send of `r`, its bytes all fetched, lands in the oldest receive
of the right neighbour; one that does not fit is never placed. -/
def place (r : Fin N) (s : State N β) : Option (State N β) :=
  match (s r).sq, (s (right r)).rq with
  | w :: sq, v :: rq =>
    if w.data.length = w.wr.size ∧ w.wr.size ≤ v.size then
      let s' := Function.update s r { s r with sq := sq, acked := (s r).acked ++ [w.wr.id] }
      some (Function.update s' (right r) ((s' (right r)).fill v rq w.data))
    else none
  | _, _ => none

def step : Action N → State N β → Option (State N β)
  | .run r, s => ((s r).run plus (worldOf r)).map (Function.update s r)
  | .fetch r k, s => ((s r).fetch k).map (Function.update s r)
  | .place r, s => place r s
  | .recvDone r, s => (s r).recvDone.map (Function.update s r)
  | .sendDone r, s => (s r).sendDone.map (Function.update s r)

/-- Every rank before its first call, with the memory given. -/
def initState (calls : List Call) (mem : Fin N → Area → Mem β) : State N β := fun r =>
  ⟨⟨calls, [], false⟩, mem r, [], [], [], [], [], []⟩

/-- The ring of `N` ranks making the same `calls`. -/
def system (calls : List Call) (mem : Fin N → Area → Mem β) : Lts (State N β) (Action N) where
  init s := s = initState calls mem
  step := step plus

end RdmaInfra.Collective.Posted
