/-
The collectives of `phase3_collective`, as the transport operations each rank
performs.

`ring_blocking`, `ring_posted` and `world_barrier` branch only on the rank,
the world size and the backend, never on data, so a call is the list of its
`Transport` operations in program order, the loops unrolled. A call returns
-1 at the first operation that fails and 0 after the last; which operations
fail, and when one blocks, is the backend's (`Collective.Posted` for RDMA,
`Collective.Blocking` for TCP). `ring_allreduce`'s own checks are made before
the first operation (`ringAllreduce`).

Rank and step arithmetic is C `int` arithmetic, exact here; byte counts and
offsets are `size_t`, reduced modulo 2^64 where the code multiplies or adds.
-/
import Mathlib.Data.List.Basic
import RdmaInfra.CInt

namespace RdmaInfra.Collective

def sizeofFloat : Nat := 4

/-- The caller's three allocations: the payload, the staging area of
reduce-scatter, and the byte the barrier trades. -/
inductive Area
  | buf
  | stage
  | scratch
  deriving DecidableEq, Repr

/-- A registered buffer: the memory it names and its size in bytes. -/
structure BufferHandle where
  area : Area
  size : Nat
  deriving DecidableEq, Repr

/-- `World`, less its two transports. -/
structure World where
  rank : Nat
  size : Nat
  deriving DecidableEq, Repr

/-- One operation of a collective: sends and their polls go to
`world.right`, receives and their polls to `world.left`. `sum dst src n` is
the loop `dst[i] += src[i]` with `n` elements to go, `dst` in `buf` and `src`
in `stage`. -/
inductive Op
  | sendAsync (h : BufferHandle) (len id offset : Nat)
  | recvAsync (h : BufferHandle) (len id offset : Nat)
  | pollLeft
  | pollRight
  | sum (dst src n : Nat)
  deriving DecidableEq, Repr

def sendChunk (rank N s : Int) : Int :=
  if s < N - 1 then (rank - s + N).tmod N else (rank - (s - (N - 1)) + 1 + N).tmod N

def recvChunk (rank N s : Int) : Int :=
  if s < N - 1 then (rank - s - 1 + N).tmod N else (rank - (s - (N - 1)) + N).tmod N

/-- `(size_t)send_chunk(rank, N, s)`. -/
def World.sendChunk (w : World) (s : Nat) : Nat := (Collective.sendChunk w.rank w.size s).toNat

/-- `(size_t)recv_chunk(rank, N, s)`. -/
def World.recvChunk (w : World) (s : Nat) : Nat := (Collective.recvChunk w.rank w.size s).toNat

/-- `2 * (N - 1)`. -/
def World.steps (w : World) : Nat := 2 * (w.size - 1)

/-- `chunk * sizeof(float)`. -/
def chunkBytes (chunk : Nat) : Nat := sizeT (chunk * sizeofFloat)

/-! ## The blocking path -/

/-- One round of `ring_blocking`. -/
def blockingStep (w : World) (rH lH stageH : BufferHandle) (chunk s : Nat) : List Op :=
  let sendOff := sizeT (w.sendChunk s * chunkBytes chunk)
  let rh := if s < w.size - 1 then stageH else lH
  let recvOff := if s < w.size - 1 then 0 else sizeT (w.recvChunk s * chunkBytes chunk)
  (if w.rank % 2 = 0 then
    [.sendAsync rH (chunkBytes chunk) s sendOff, .recvAsync rh (chunkBytes chunk) s recvOff]
  else
    [.recvAsync rh (chunkBytes chunk) s recvOff, .sendAsync rH (chunkBytes chunk) s sendOff]) ++
  [.pollLeft, .pollRight] ++
  if s < w.size - 1 then [.sum (sizeT (w.recvChunk s * chunk)) 0 chunk] else []

def ringBlocking (w : World) (rH lH stageH : BufferHandle) (chunk : Nat) : List Op :=
  (List.range w.steps).flatMap (blockingStep w rH lH stageH chunk)

/-! ## The posted-receive path -/

/-- The lambda `post_recv` of `ring_posted`. -/
def postRecv (w : World) (lH stageH : BufferHandle) (chunk s : Nat) : Op :=
  if s < w.size - 1 then .recvAsync stageH (chunkBytes chunk) s (sizeT (s % 2 * chunkBytes chunk))
  else .recvAsync lH (chunkBytes chunk) s (sizeT (w.recvChunk s * chunkBytes chunk))

/-- What `ring_posted` does in round `s` once its send is polled. -/
def postedSum (w : World) (chunk s : Nat) : List Op :=
  if s < w.size - 1 then [.sum (sizeT (w.recvChunk s * chunk)) (sizeT (s % 2 * chunk)) chunk] else []

/-- One round of `ring_posted`. -/
def postedStep (w : World) (rH lH stageH : BufferHandle) (chunk s : Nat) : List Op :=
  .sendAsync rH (chunkBytes chunk) s (sizeT (w.sendChunk s * chunkBytes chunk)) :: .pollLeft ::
  ((if s + 1 < w.steps then [postRecv w lH stageH chunk (s + 1)] else []) ++
  .pollRight :: postedSum w chunk s)

def ringPosted (w : World) (rH lH stageH : BufferHandle) (chunk : Nat) : List Op :=
  postRecv w lH stageH chunk 0 :: (List.range w.steps).flatMap (postedStep w rH lH stageH chunk)

/-! ## The calls -/

/-- `ring_allreduce`: `none` where it returns -1 before any operation. -/
def ringAllreduce (blocks : Bool) (w : World) (rH lH stageH : BufferHandle) (count : Nat) : Option (List Op) :=
  if count % w.size ≠ 0 then none
  else if w.size < 2 then some []
  else
    let chunk := count / w.size
    some (if blocks then ringBlocking w rH lH stageH chunk else ringPosted w rH lH stageH chunk)

/-- `world_barrier`. -/
def worldBarrier (blocks : Bool) (w : World) (scratchR scratchL : BufferHandle) : List Op :=
  if w.size < 2 then [] else
  let n := 1
  let id := 2 ^ 64 - 1
  (if !blocks then [.recvAsync scratchL n id 0, .sendAsync scratchR n id 0]
  else if w.rank % 2 = 0 then [.sendAsync scratchR n id 0, .recvAsync scratchL n id 0]
  else [.recvAsync scratchL n id 0, .sendAsync scratchR n id 0]) ++
  [.pollLeft, .pollRight]

/-- A collective call, the same on every rank. -/
inductive Call
  | allreduce (count : Nat)
  | barrier
  deriving DecidableEq, Repr

/-- The operations of a call on the buffers `allreduce_bench` registers for
it: `buf` with `count` floats on both neighbours, `stage` with two chunks on
the left one, and 16 floats of scratch on both. -/
def Call.ops (blocks : Bool) (w : World) : Call → Option (List Op)
  | .allreduce count =>
    let buf : BufferHandle := ⟨.buf, sizeT (count * sizeofFloat)⟩
    ringAllreduce blocks w buf buf ⟨.stage, sizeT (2 * chunkBytes (count / w.size))⟩ count
  | .barrier =>
    let scratch : BufferHandle := ⟨.scratch, 16 * sizeofFloat⟩
    some (worldBarrier blocks w scratch scratch)

/-- Where a rank's program is: the calls it has not entered, what is left of
the call it is in, and whether a call has returned -1 (which ends it). -/
structure Ctl where
  todo : List Call
  ops : List Op
  failed : Bool
  deriving DecidableEq, Repr

namespace Ctl

/-- A call returned -1. -/
def fail : Ctl := ⟨[], [], true⟩

/-- The rank's program is over and every call returned 0. -/
def Finished (c : Ctl) : Prop := c.todo = [] ∧ c.ops = [] ∧ c.failed = false

instance {c : Ctl} : Decidable c.Finished := inferInstanceAs (Decidable (_ ∧ _ ∧ _))

/-- Between calls, the next one is entered. -/
def enter (blocks : Bool) (w : World) (c : Ctl) : Option Ctl :=
  match c.todo with
  | [] => none
  | call :: todo =>
    match call.ops blocks w with
    | none => some fail
    | some ops => some ⟨todo, ops, c.failed⟩

end Ctl

/-! ## What is left to do -/

section Work

variable (cost : Op → Nat) (blocks : Bool) (w : World)

/-- The work of `ops`, at `cost` for each. -/
def opsWork (ops : List Op) : Nat := (ops.map cost).sum

/-- Entering a call takes a step of its own. -/
def callWork (c : Call) : Nat := 1 + opsWork cost ((c.ops blocks w).getD [])

/-- The work of the calls a rank has not entered. -/
def Ctl.todoWork (c : Ctl) : Nat := (c.todo.map (callWork cost blocks w)).sum

variable {blocks w}

@[simp] theorem opsWork_nil : opsWork cost [] = 0 := rfl

@[simp] theorem opsWork_cons {op ops} : opsWork cost (op :: ops) = cost op + opsWork cost ops := by simp [opsWork]

/-- A call that is refused leaves nothing to do. -/
theorem Ctl.enter_work {c c' : Ctl} (h : c.enter blocks w = some c') :
    c'.todoWork cost blocks w + opsWork cost c'.ops < c.todoWork cost blocks w := by
  simp only [Ctl.enter] at h
  split at h
  · cases h
  next call todo ht =>
  split at h
  · cases h
    simp [todoWork, fail, ht, callWork]
  next ops hops =>
    cases h
    simp [todoWork, ht, callWork, hops]
    omega

end Work
end RdmaInfra.Collective
