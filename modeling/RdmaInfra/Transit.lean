/-
A message on a byte stream.

A loop sends a message of known length from a buffer and another receives as
many bytes into a buffer of its own, each a few at a time; a `Cursor` is how far
such a loop has got. `InTransit` ties the two ends to the bytes between them. It
is kept by every partial send and receive, and a receiver that has its length
holds the message and leaves the stream empty (`InTransit.done`).
-/
import Mathlib.Data.List.Basic

namespace RdmaInfra

variable {α : Type}

/-- `xs` written over `bs` from `off` on. -/
def put (bs : List α) (off : Nat) (xs : List α) : List α := bs.take off ++ xs ++ bs.drop (off + xs.length)

theorem length_put {bs xs : List α} {off : Nat} (h : off + xs.length ≤ bs.length) :
    (put bs off xs).length = bs.length := by
  simp only [put, List.length_append, List.length_take, List.length_drop]
  omega

theorem take_put (bs xs : List α) {off : Nat} (h : off ≤ bs.length) :
    (put bs off xs).take (off + xs.length) = bs.take off ++ xs := by
  rw [put, List.take_left' (by simp only [List.length_append, List.length_take]; omega)]

/-- A send or receive loop: the bytes moved, and its buffer. -/
structure Cursor (α : Type) where
  pos : Nat
  buf : List α
  deriving DecidableEq, Repr

namespace Cursor

/-- `n` more of `len` bytes are sent. -/
def sendSome (len n : Nat) (x : Cursor α) : Option (Cursor α × List α) :=
  if 0 < n ∧ x.pos + n ≤ len then some ({ x with pos := x.pos + n }, (x.buf.drop x.pos).take n) else none

/-- `n` more of `len` bytes are received, out of those of the stream. -/
def recvSome (len n : Nat) (stream : List α) (x : Cursor α) : Option (Cursor α × List α) :=
  if 0 < n ∧ n ≤ stream.length ∧ x.pos + n ≤ len then
    some (⟨x.pos + n, put x.buf x.pos (stream.take n)⟩, stream.drop n)
  else none

/-- The loop is over. -/
def rewind (x : Cursor α) : Cursor α := { x with pos := 0 }

end Cursor

variable {q stream stream' bs : List α} {tx tx' rx rx' : Cursor α} {sent n : Nat}

/-- The buffer of a sender begins with the message. -/
def Sends (q : List α) (tx : Cursor α) : Prop := tx.buf.take q.length = q

/-- Of the message `q`, `sent` bytes were sent; `rx` has received some of them
and the stream holds the rest. -/
structure InTransit (q : List α) (sent : Nat) (rx : Cursor α) (stream : List α) : Prop where
  sent_le : sent ≤ q.length
  pos_le : rx.pos ≤ sent
  room : q.length ≤ rx.buf.length
  got : rx.buf.take rx.pos = q.take rx.pos
  stream : stream = (q.take sent).drop rx.pos

theorem InTransit.start (h0 : rx.pos = 0) (hroom : q.length ≤ rx.buf.length) : InTransit q 0 rx [] where
  sent_le := Nat.zero_le _
  pos_le := Nat.le_of_eq h0
  room := hroom
  got := by rw [h0, List.take_zero, List.take_zero]
  stream := by rw [List.take_zero, List.drop_nil]

theorem InTransit.send (h : InTransit q tx.pos rx stream) (hq : Sends q tx)
    (hs : tx.sendSome q.length n = some (tx', bs)) : InTransit q tx'.pos rx (stream ++ bs) ∧ Sends q tx' := by
  simp only [Cursor.sendSome] at hs
  split at hs
  swap
  · cases hs
  next hn =>
  cases hs
  refine ⟨⟨hn.2, Nat.le_trans h.pos_le (Nat.le_add_right _ _), h.room, h.got, ?_⟩, hq⟩
  have hbs : (tx.buf.drop tx.pos).take n = (q.drop tx.pos).take n := by
    conv_rhs => rw [← show tx.buf.take q.length = q from hq]
    rw [List.drop_take, List.take_take, Nat.min_eq_left (by omega)]
  have hpos := h.pos_le
  rw [hbs, h.stream, List.take_add, List.drop_append_of_le_length]
  rw [List.length_take]
  omega

theorem InTransit.recv (h : InTransit q sent rx stream) (hr : rx.recvSome q.length n stream = some (rx', stream')) :
    InTransit q sent rx' stream' := by
  simp only [Cursor.recvSome] at hr
  split at hr
  swap
  · cases hr
  next hn =>
  cases hr
  have hst := h.stream
  have hlen : stream.length = sent - rx.pos := by
    rw [hst, List.length_drop, List.length_take, Nat.min_eq_left h.sent_le]
  have hsl := h.sent_le
  have hroom := h.room
  have htake : (stream.take n).length = n := by rw [List.length_take]; omega
  refine ⟨h.sent_le, by simp only; omega, ?_, ?_, ?_⟩
  · rw [length_put (by rw [htake]; omega)]
    exact h.room
  · have hput := take_put rx.buf (stream.take n) (show rx.pos ≤ rx.buf.length by omega)
    rw [htake] at hput
    rw [hput, h.got, List.take_add, hst, List.drop_take, List.take_take, Nat.min_eq_left (by omega)]
  · rw [hst, List.drop_drop]

/-- A receiver with all its bytes. -/
theorem InTransit.done (h : InTransit q sent rx stream) (hd : rx.pos = q.length) :
    sent = q.length ∧ stream = [] ∧ Sends q rx := by
  have hs : sent = q.length := Nat.le_antisymm h.sent_le (hd ▸ h.pos_le)
  refine ⟨hs, ?_, ?_⟩
  · rw [h.stream, hs, List.take_length, hd, List.drop_length]
  · have := h.got
    rwa [hd, List.take_length] at this

/-- A receiver that waits for bytes not on the stream waits for them to be sent. -/
theorem InTransit.can_recv (h : InTransit q sent rx stream) (hlt : rx.pos < sent) :
    ∃ rx' stream', rx.recvSome q.length 1 stream = some (rx', stream') := by
  have hlen : stream.length = sent - rx.pos := by
    rw [h.stream, List.length_drop, List.length_take, Nat.min_eq_left h.sent_le]
  have hle := h.sent_le
  rw [Cursor.recvSome, if_pos ⟨Nat.one_pos, by omega, by omega⟩]
  exact ⟨_, _, rfl⟩

theorem can_send (tx : Cursor α) {len : Nat} (h : tx.pos < len) : ∃ tx' bs, tx.sendSome len 1 = some (tx', bs) := by
  rw [Cursor.sendSome, if_pos ⟨Nat.one_pos, h⟩]
  exact ⟨_, _, rfl⟩

theorem recvSome_nil (x : Cursor α) (len n : Nat) : x.recvSome len n [] = none := by
  rw [Cursor.recvSome, if_neg]
  simp only [List.length_nil]
  omega

theorem length_recvSome (h : rx.recvSome n sent stream = some (rx', stream')) (hroom : n ≤ rx.buf.length) :
    rx'.buf.length = rx.buf.length := by
  simp only [Cursor.recvSome] at h
  split at h
  next hn =>
    cases h
    rw [length_put]
    rw [List.length_take]
    omega
  · cases h

end RdmaInfra
