/-
What the benchmarks share (`bench_utils.h`, `timing.h`).

Samples stay in nanoseconds here, and the `(int)` of a product with `0.99` is
the exact floor.
-/
import Mathlib.Algebra.Group.Nat.Defs
import Mathlib.Data.List.Basic

namespace RdmaInfra

def kWarmup : Nat := 20

/-- `INT_MAX`. -/
def intMax : Nat := 2 ^ 31 - 1

/-- `time_elapsed_ns`. -/
def timeElapsed (start stop : Nat) : Nat := if stop > start then stop - start else 0

/-! ## Latencies -/

/-- `lat_stats`, or the positions its four figures are read at. -/
structure LatStats (α : Type) where
  min : α
  median : α
  p99 : α
  max : α
  deriving DecidableEq, Repr

def LatStats.toList {α : Type} (s : LatStats α) : List α := [s.min, s.median, s.p99, s.max]

/-- `samples[i]`, where there is such an element. -/
def sampleAt (samples : List Nat) (i : Int) : Option Nat := if i < 0 then none else samples[i.toNat]?

/-- The four samples at the given positions; nothing where one is outside the array. -/
def readStats (samples : List Nat) (p : LatStats Int) : Option (LatStats Nat) := do
  return ⟨← sampleAt samples p.min, ← sampleAt samples p.median, ← sampleAt samples p.p99, ← sampleAt samples p.max⟩

/-- The positions of `latency_stats`; none without samples. -/
def latencyPositions (n : Int) : Option (LatStats Int) :=
  if n ≤ 0 then none else some ⟨0, (n - 1).tdiv 2, ((n - 1) * 99).tdiv 100, n - 1⟩

/-- `latency_stats`. -/
def latencyStats (samples : List Nat) (n : Int) : Option (LatStats Nat) :=
  match latencyPositions n with
  | none => some ⟨0, 0, 0, 0⟩
  | some p => readStats samples p

theorem sampleAt_inside {samples : List Nat} {i : Int} (h0 : 0 ≤ i) (h : i < samples.length) :
    ∃ v, sampleAt samples i = some v := by
  have hlt : i.toNat < samples.length := by omega
  unfold sampleAt
  rw [if_neg (by omega), List.getElem?_eq_getElem hlt]
  exact ⟨_, rfl⟩

theorem readStats_inside {samples : List Nat} {p : LatStats Int}
    (h : ∀ i ∈ p.toList, 0 ≤ i ∧ i < samples.length) : ∃ s, readStats samples p = some s := by
  simp only [LatStats.toList, List.forall_mem_cons] at h
  obtain ⟨hmin, hmed, hp99, hmax, -⟩ := h
  obtain ⟨a, ha⟩ := sampleAt_inside hmin.1 hmin.2
  obtain ⟨b, hb⟩ := sampleAt_inside hmed.1 hmed.2
  obtain ⟨c, hc⟩ := sampleAt_inside hp99.1 hp99.2
  obtain ⟨d, hd⟩ := sampleAt_inside hmax.1 hmax.2
  exact ⟨⟨a, b, c, d⟩, by simp [readStats, ha, hb, hc, hd]⟩

end RdmaInfra
