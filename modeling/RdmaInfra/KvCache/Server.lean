/-
The KV server's control loop (`kv_server.cpp`, `serve`).

A request is two ints: a type and a payload, the slot of a FREE. The loop
answers requests until the client is gone or one is malformed; replies are
taken to be delivered. Beside the pool the model keeps the log of the requests
answered, newest first, which is what the client can know: `held` is the slots
it holds by that log.
-/
import Mathlib.Data.List.Nodup

namespace RdmaInfra.KvCache

def KV_MSG_ALLOC : Int := 0

def KV_MSG_FREE : Int := 1

/-- `ctrl_buf.msg`. -/
structure Msg where
  type : Int
  payload : Int
  deriving DecidableEq, Repr

/-- What `serve` reads of `KVPool`; the slab itself is in `KvCache.Slab`. -/
structure KVPool where
  numSlots : Int
  freeList : List Int
  deriving DecidableEq, Repr

inductive ServeError
  | slotIdxInvalid
  | unknownMsgType
  deriving DecidableEq, Repr

/-- One turn of the loop of `serve`: the pool it leaves and the reply, or the
error it logs before it returns -1. -/
def handle (pool : KVPool) (m : Msg) : Except ServeError (KVPool × Int) :=
  if m.type = KV_MSG_ALLOC then
    match pool.freeList.getLast? with
    | none => .ok (pool, -1)
    | some slotIdx => .ok ({ pool with freeList := pool.freeList.dropLast }, slotIdx)
  else if m.type = KV_MSG_FREE then
    if m.payload < 0 ∨ m.payload ≥ pool.numSlots then .error .slotIdxInvalid
    else .ok ({ pool with freeList := pool.freeList ++ [m.payload] }, 0)
  else .error .unknownMsgType

/-- Requests and their replies, newest first. -/
abbrev Log := List (Msg × Int)

structure Server where
  pool : KVPool
  log : Log
  deriving DecidableEq, Repr

/-- `serve` over the requests a client sends before it disconnects: where it
ends, and the error that ended it if one did. -/
def serve (s : Server) : List Msg → Server × Option ServeError
  | [] => (s, none)
  | m :: ms =>
    match handle s.pool m with
    | .error e => (s, some e)
    | .ok (pool, reply) => serve ⟨pool, (m, reply) :: s.log⟩ ms

/-- The free list `main` builds. -/
def initFreeList (numSlots : Nat) : List Int := (List.range numSlots).map fun i : Nat => (i : Int)

def start (numSlots : Nat) : Server := ⟨⟨numSlots, initFreeList numSlots⟩, []⟩

/-! ## What the log says -/

/-- An ALLOC answered with slot `i`. -/
def AllocOf (i : Int) (e : Msg × Int) : Prop := e.1.type = KV_MSG_ALLOC ∧ e.2 = i

/-- An accepted FREE of slot `i`. -/
def FreeOf (i : Int) (e : Msg × Int) : Prop := e.1.type = KV_MSG_FREE ∧ e.1.payload = i

/-- The slots allocated: each from the ALLOC that hands it out to the next
accepted FREE of it. -/
def held : Log → List Int
  | [] => []
  | (m, reply) :: log =>
    if m.type = KV_MSG_ALLOC then if 0 ≤ reply then reply :: held log else held log
    else if m.type = KV_MSG_FREE then (held log).filter (· ≠ m.payload)
    else held log

theorem held_alloc {m reply log} (h : m.type = KV_MSG_ALLOC) :
    held ((m, reply) :: log) = if 0 ≤ reply then reply :: held log else held log := by
  rw [held, if_pos h]

theorem held_free {m reply log} (h : m.type = KV_MSG_FREE) :
    held ((m, reply) :: log) = (held log).filter (· ≠ m.payload) := by
  rw [held, if_neg (by rw [h]; decide), if_pos h]

theorem mem_initFreeList {n : Nat} {i : Int} : i ∈ initFreeList n ↔ 0 ≤ i ∧ i < n := by
  simp only [initFreeList, List.mem_map, List.mem_range]
  constructor
  · rintro ⟨k, hk, rfl⟩; omega
  · rintro ⟨h0, hn⟩; exact ⟨i.toNat, by omega, by omega⟩

theorem nodup_initFreeList (n : Nat) : (initFreeList n).Nodup :=
  List.nodup_range.map fun _ _ h => Int.ofNat_inj.mp h

/-- Everything an answered request can do. -/
theorem handle_ok {pool pool' : KVPool} {m reply} (h : handle pool m = .ok (pool', reply)) :
    pool'.numSlots = pool.numSlots ∧
    ((m.type = KV_MSG_ALLOC ∧ pool.freeList = [] ∧ pool'.freeList = [] ∧ reply = -1) ∨
     (m.type = KV_MSG_ALLOC ∧ pool.freeList = pool'.freeList ++ [reply]) ∨
     (m.type = KV_MSG_FREE ∧ (0 ≤ m.payload ∧ m.payload < pool.numSlots) ∧
       pool'.freeList = pool.freeList ++ [m.payload])) := by
  simp only [handle] at h
  split at h
  next ht =>
    split at h
    next hl =>
      cases h
      have hnil := List.getLast?_eq_none_iff.mp hl
      exact ⟨rfl, .inl ⟨ht, hnil, hnil, rfl⟩⟩
    next hl =>
      cases h
      exact ⟨rfl, .inr (.inl ⟨ht, (List.dropLast_append_getLast? _ hl).symm⟩)⟩
  next =>
    split at h
    next ht =>
      split at h
      · cases h
      · cases h; exact ⟨rfl, .inr (.inr ⟨ht, by omega, rfl⟩)⟩
    · cases h

end RdmaInfra.KvCache
