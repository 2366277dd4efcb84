/-
FIFO queues numbered in order.

A queue that is only pushed at one end and popped at the other holds the
entries from the first not yet popped to the last pushed. `span a b` is their
numbers; a queue is `(span a b).map f` for the entry `f` numbers.

A work queue is two of them in a row: requests wait to be served, and what they
leave waits to be polled. Each lemma is one thing done to it, and changes one
count by one.
-/
import Mathlib.Data.List.Range

namespace RdmaInfra

/-- The numbers from `a` up to `b`. -/
def span (a b : Nat) : List Nat := List.range' a (b - a)

theorem span_self (a : Nat) : span a a = [] := by simp [span]

theorem span_push {a b} (h : a ≤ b) : span a b ++ [b] = span a (b + 1) := by
  rw [span, span, show b + 1 - a = b - a + 1 by omega, List.range'_concat]
  simp; omega

theorem span_pop {a b} (h : a < b) : span a b = a :: span (a + 1) b := by
  rw [span, span, show b - a = b - (a + 1) + 1 by omega, List.range'_succ]

theorem mem_span {a b i} : i ∈ span a b ↔ a ≤ i ∧ i < b := by
  simp only [span, List.mem_range'_1]; omega

theorem span_eq_nil {a b} : span a b = [] ↔ b ≤ a := by
  simp [span]; omega

theorem length_span {a b} : (span a b).length = b - a := by simp [span]

theorem span_append {a b c} (h1 : a ≤ b) (h2 : b ≤ c) : span a b ++ span b c = span a c := by
  have hb : List.range' b (c - b) = List.range' (a + 1 * (b - a)) (c - b) := by rw [Nat.one_mul, Nat.add_sub_cancel' h1]
  rw [span, span, span, hb, List.range'_append]
  congr 1
  omega

theorem take_span {a b k} (h : a + k ≤ b) : (span a b).take k = span a (a + k) := by
  rw [← span_append (Nat.le_add_right a k) h, List.take_left' (by rw [length_span]; omega)]

theorem drop_span {a b k} (h : a + k ≤ b) : (span a b).drop k = span (a + k) b := by
  rw [← span_append (Nat.le_add_right a k) h, List.drop_left' (by rw [length_span]; omega)]

theorem getElem?_span {a b i} (h : a + i < b) : (span a b)[i]? = some (a + i) := by
  rw [span, List.getElem?_range' (by omega), Nat.one_mul]

/-- What the head of a queue is, and what is left behind it. -/
theorem span_map_cons {α} {f : Nat → α} {a b x xs} (h : (span a b).map f = x :: xs) :
    a < b ∧ x = f a ∧ xs = (span (a + 1) b).map f := by
  have hlt : a < b := by
    by_contra hc
    rw [span_eq_nil.mpr (by omega)] at h
    simp at h
  rw [span_pop hlt, List.map_cons, List.cons.injEq] at h
  exact ⟨hlt, h.1.symm, h.2.symm⟩

theorem span_cons {a b x xs} (h : x :: xs = span a b) : a < b ∧ x = a ∧ xs = span (a + 1) b := by
  have h' : (span a b).map id = x :: xs := by rw [List.map_id, h]
  simpa only [List.map_id, id] using span_map_cons h'

theorem span_map_push {α} {f : Nat → α} {a b} (h : a ≤ b) :
    (span a b).map f ++ [f b] = (span a (b + 1)).map f := by
  rw [← span_push h, List.map_append, List.map_singleton]

/-- Requests `f 0`, ..., `f (posted - 1)` made, the first `served` of them served,
and of those the first `polled` polled; request `k` leaves `c k`. -/
structure WorkQueue {ω κ : Type} (f : Nat → ω) (c : Nat → κ) (queue : List ω) (completed : List κ)
    (posted polled served : Nat) : Prop where
  polled_le : polled ≤ served
  served_le : served ≤ posted
  queue : queue = (span served posted).map f
  completed : completed = (span polled served).map c

namespace WorkQueue

variable {ω κ : Type} {f : Nat → ω} {c : Nat → κ} {queue : List ω} {completed : List κ} {posted polled served : Nat}

theorem post (h : WorkQueue f c queue completed posted polled served) :
    WorkQueue f c (queue ++ [f posted]) completed (posted + 1) polled served := by
  refine ⟨h.polled_le, Nat.le_succ_of_le h.served_le, ?_, h.completed⟩
  rw [h.queue, span_map_push h.served_le]

/-- The oldest request is number `served`. -/
theorem serve {w} (h : WorkQueue f c (w :: queue) completed posted polled served) :
    w = f served ∧ served < posted ∧ WorkQueue f c queue (completed ++ [c served]) posted polled (served + 1) := by
  obtain ⟨hlt, hw, hrest⟩ := span_map_cons h.queue.symm
  refine ⟨hw, hlt, Nat.le_succ_of_le h.polled_le, hlt, hrest, ?_⟩
  rw [h.completed, span_map_push h.polled_le]

/-- The next completion is that of request `polled`. -/
theorem poll {x} (h : WorkQueue f c queue (x :: completed) posted polled served) :
    x = c polled ∧ polled < served ∧ WorkQueue f c queue completed posted (polled + 1) served := by
  obtain ⟨hlt, hx, hrest⟩ := span_map_cons h.completed.symm
  exact ⟨hx, hlt, hlt, h.served_le, h.queue, hrest⟩

theorem mem_queue {w} (h : WorkQueue f c queue completed posted polled served) (hw : w ∈ queue) :
    ∃ k, served ≤ k ∧ k < posted ∧ w = f k := by
  rw [h.queue, List.mem_map] at hw
  obtain ⟨k, hk, rfl⟩ := hw
  exact ⟨k, (mem_span.mp hk).1, (mem_span.mp hk).2, rfl⟩

/-- What was served and not polled. -/
theorem mem_completed {x} (h : WorkQueue f c queue completed posted polled served) (hx : x ∈ completed) :
    ∃ k, polled ≤ k ∧ k < served ∧ x = c k := by
  rw [h.completed, List.mem_map] at hx
  obtain ⟨k, hk, rfl⟩ := hx
  exact ⟨k, (mem_span.mp hk).1, (mem_span.mp hk).2, rfl⟩

theorem length_completed (h : WorkQueue f c queue completed posted polled served) :
    polled + completed.length = served := by
  have hle := h.polled_le
  rw [h.completed, List.length_map, length_span]
  omega

theorem served_eq_posted (h : WorkQueue f c [] completed posted polled served) : served = posted := by
  have hle := h.served_le
  have := span_eq_nil.mp (List.map_eq_nil_iff.mp h.queue.symm)
  omega

/-- With nothing left to poll, everything served has been polled. -/
theorem served_eq_polled (h : WorkQueue f c queue [] posted polled served) : served = polled :=
  h.length_completed.symm

/-- With every request polled, nothing is outstanding. -/
theorem empty (h : WorkQueue f c queue completed posted posted served) : queue = [] ∧ completed = [] := by
  have hs : served = posted := Nat.le_antisymm h.served_le h.polled_le
  have hq := h.queue
  have hc := h.completed
  rw [hs, span_self, List.map_nil] at hq hc
  exact ⟨hq, hc⟩

end WorkQueue

end RdmaInfra
