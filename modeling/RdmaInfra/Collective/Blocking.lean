/-
The ring over TCP: every rank runs its calls on the blocking path, and each
link is a socket.

`link r` holds the bytes rank `r` has handed to the kernel that its right
neighbour has not read. A `send` blocks while the link is full and a `recv`
while it is empty; either moves any positive number of bytes it can. A link
of capacity 0 holds nothing: its bytes pass from a blocked `send` straight to
a blocked `recv` (`handoff`).
-/
import Mathlib.Logic.Function.Basic
import RdmaInfra.Lts
import RdmaInfra.Memory
import RdmaInfra.Transport.Tcp
import RdmaInfra.Collective.Chunks

namespace RdmaInfra.Collective.Blocking

open Transport

/-- One rank: its program, its memory, and how far the `send_all` or
`recv_all` it is in has got (`sent` or `recved`; 0 outside). -/
structure Node (β : Type) where
  ctl : Ctl
  mem : Area → Mem β
  moved : Nat

structure State (N : Nat) (β : Type) where
  node : Fin N → Node β
  link : Fin N → List β

/-- `run`: a rank's program takes a step. `send`: the kernel takes `k` more
bytes of the `send` rank `r` is in. `recv`: it gives `k` bytes of the link of
`r` to its right neighbour's `recv`. `handoff`: both at once. -/
inductive Action (N : Nat)
  | run (r : Fin N)
  | send (r : Fin N) (k : Nat)
  | recv (r : Fin N) (k : Nat)
  | handoff (r : Fin N) (k : Nat)

variable {N : Nat} {β : Type}

namespace Node

/-- The program goes on to `ops`. -/
def goto (n : Node β) (ops : List Op) : Node β := { n with ctl := { n.ctl with ops := ops } }

/-- The next step of a rank's program. A transfer is left once all its bytes
have moved; `TcpTransport::poll` returns 0 at once. -/
def run (plus : Word β → Word β → Word β) (w : World) (n : Node β) : Option (Node β) :=
  match n.ctl.ops with
  | [] => (n.ctl.enter true w).map fun c => { n with ctl := c }
  | .sendAsync h len _ off :: ops | .recvAsync h len _ off :: ops =>
    if Tcp.inBounds h.size len off then
      if n.moved < len then none else some { n.goto ops with moved := 0 }
    else some { n with ctl := .fail }
  | .pollLeft :: ops | .pollRight :: ops => some (n.goto ops)
  | .sum _ _ 0 :: ops => some (n.goto ops)
  | .sum dst src (k + 1) :: ops =>
    some { n.goto (.sum (dst + 1) (src + 1) k :: ops) with
      mem := Function.update n.mem .buf
        ((n.mem .buf).setWord dst (plus ((n.mem .buf).word dst) ((n.mem .stage).word src))) }

/-- `k` bytes leave the `send_all` the rank is in, if it is in one with that
many left. -/
def push (k : Nat) (n : Node β) : Option (Node β × List β) :=
  match n.ctl.ops with
  | .sendAsync h len _ off :: _ =>
    if Tcp.inBounds h.size len off ∧ n.moved + k ≤ len then
      some ({ n with moved := n.moved + k }, (n.mem h.area).read (off + n.moved) k)
    else none
  | _ => none

/-- `bs` enters the `recv_all` the rank is in, if it is in one with that many
bytes left. -/
def pull (bs : List β) (n : Node β) : Option (Node β) :=
  match n.ctl.ops with
  | .recvAsync h len _ off :: _ =>
    if Tcp.inBounds h.size len off ∧ n.moved + bs.length ≤ len then
      some { n with
        mem := Function.update n.mem h.area ((n.mem h.area).write (off + n.moved) bs)
        moved := n.moved + bs.length }
    else none
  | _ => none

end Node

/-- The kernel takes `k > 0` bytes from rank `r`. -/
def push (r : Fin N) (k : Nat) (s : State N β) : Option (State N β) :=
  if 0 < k then
    ((s.node r).push k).map fun (n, bs) =>
      ⟨Function.update s.node r n, Function.update s.link r (s.link r ++ bs)⟩
  else none

/-- The kernel gives the first `k > 0` bytes of the link of `r` to its right
neighbour. -/
def pull (r : Fin N) (k : Nat) (s : State N β) : Option (State N β) :=
  if 0 < k ∧ k ≤ (s.link r).length then
    ((s.node (right r)).pull ((s.link r).take k)).map fun n =>
      ⟨Function.update s.node (right r) n, Function.update s.link r ((s.link r).drop k)⟩
  else none

variable (plus : Word β → Word β → Word β) (cap : Fin N → Nat)

def step : Action N → State N β → Option (State N β)
  | .run r, s => ((s.node r).run plus (worldOf r)).map fun n => { s with node := Function.update s.node r n }
  | .send r k, s => if (s.link r).length + k ≤ cap r then push r k s else none
  | .recv r k, s => pull r k s
  | .handoff r k, s => if cap r = 0 then (push r k s).bind (pull r k) else none

/-- Every rank before its first call, with the memory given, and every link
empty. -/
def initState (calls : List Call) (mem : Fin N → Area → Mem β) : State N β :=
  ⟨fun r => ⟨⟨calls, [], false⟩, mem r, 0⟩, fun _ => []⟩

/-- The ring of `N` ranks making the same `calls` over links of capacities
`cap`. -/
def system (calls : List Call) (mem : Fin N → Area → Mem β) : Lts (State N β) (Action N) where
  init s := s = initState calls mem
  step := step plus cap

end RdmaInfra.Collective.Blocking
