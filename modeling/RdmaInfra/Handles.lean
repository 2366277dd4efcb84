/-
Handles of an operating system or a driver: what a program acquires, must give
back once, and must give back in order.

Each acquisition is a new handle, whatever number or address the system calls
it by, and records the handles it was made from. A release of a handle that is
not held, or that a held one was made from, is a fault. So a table in order
(`Ok`) with nothing held is one where each handle was released exactly once and
in dependency order.
-/
import Mathlib.Data.List.Count
import Mathlib.Data.List.Nodup

namespace RdmaInfra

structure Handle where
  id : Nat
  deps : List Nat
  deriving DecidableEq, Repr

/-- `next` is the next handle to be made, `fault` whether some release was
wrong. -/
structure Handles where
  next : Nat
  live : List Handle
  released : List Nat
  fault : Bool
  deriving DecidableEq, Repr

namespace Handles

def empty : Handles := ⟨0, [], [], false⟩

def ids (t : Handles) : List Nat := t.live.map Handle.id

def acquire (deps : List Nat) (t : Handles) : Handles :=
  { t with next := t.next + 1, live := ⟨t.next, deps⟩ :: t.live }

/-- `i` is held, and nothing held was made from it. -/
def releasable (i : Nat) (t : Handles) : Bool := t.ids.contains i && t.live.all fun h => !h.deps.contains i

def release (i : Nat) (t : Handles) : Handles :=
  { t with
    live := t.live.filter fun h => h.id != i
    released := i :: t.released
    fault := t.fault || !t.releasable i }

/-- Each handle is held, or was released once; nothing was released wrongly. -/
structure Ok (t : Handles) : Prop where
  lt : ∀ h ∈ t.live, h.id < t.next
  deps : ∀ h ∈ t.live, ∀ d ∈ h.deps, d < h.id
  nodup : t.ids.Nodup
  once : ∀ i < t.next, t.released.count i = if i ∈ t.ids then 0 else 1
  unmade : ∀ i, t.next ≤ i → t.released.count i = 0
  clean : t.fault = false

variable {t : Handles} {i j : Nat} {ds : List Nat}

theorem empty_ok : empty.Ok := by
  refine ⟨?_, ?_, ?_, ?_, ?_, rfl⟩ <;> simp [empty, ids]

@[simp] theorem ids_acquire : (t.acquire ds).ids = t.next :: t.ids := rfl

theorem mem_ids_release : j ∈ (t.release i).ids ↔ j ∈ t.ids ∧ j ≠ i := by
  simp only [ids, release, List.mem_map, List.mem_filter, bne_iff_ne]
  constructor
  · rintro ⟨h, ⟨hm, hne⟩, rfl⟩
    exact ⟨⟨h, hm, rfl⟩, hne⟩
  · rintro ⟨⟨h, hm, rfl⟩, hne⟩
    exact ⟨h, ⟨hm, hne⟩, rfl⟩

theorem releasable_iff : t.releasable i = true ↔ i ∈ t.ids ∧ ∀ h ∈ t.live, i ∉ h.deps := by
  simp only [releasable, Bool.and_eq_true, List.contains_eq_mem, decide_eq_true_eq, List.all_eq_true,
    Bool.not_eq_true', decide_eq_false_iff_not]

theorem Ok.id_lt (h : t.Ok) (hi : i ∈ t.ids) : i < t.next := by
  obtain ⟨x, hx, rfl⟩ := List.mem_map.mp hi
  exact h.lt x hx

theorem Ok.eq_of_id {x y : Handle} (h : t.Ok) (hx : x ∈ t.live) (hy : y ∈ t.live) (he : x.id = y.id) : x = y :=
  List.inj_on_of_nodup_map h.nodup hx hy he

theorem Ok.next_not_mem (h : t.Ok) : t.next ∉ t.ids := fun hm => absurd (h.id_lt hm) (Nat.lt_irrefl _)

theorem Ok.acquire (h : t.Ok) (hd : ∀ d ∈ ds, d < t.next) : (t.acquire ds).Ok where
  lt := by
    intro x hx
    rcases List.mem_cons.mp hx with rfl | hx
    · exact Nat.lt_succ_self _
    · exact Nat.lt_succ_of_lt (h.lt x hx)
  deps := by
    intro x hx d hdx
    rcases List.mem_cons.mp hx with rfl | hx
    · exact hd d hdx
    · exact h.deps x hx d hdx
  nodup := List.nodup_cons.mpr ⟨h.next_not_mem, h.nodup⟩
  once := by
    intro k hk
    rw [ids_acquire]
    change t.released.count k = _
    rcases Nat.lt_succ_iff_lt_or_eq.mp hk with hk | rfl
    · have hne : k ≠ t.next := Nat.ne_of_lt hk
      simp only [h.once k hk, List.mem_cons, hne, false_or]
    · simp only [List.mem_cons, true_or, if_true, h.unmade _ (Nat.le_refl _)]
  unmade := fun k hk => h.unmade k (Nat.le_of_succ_le hk)
  clean := h.clean

theorem Ok.release (h : t.Ok) (hr : t.releasable i = true) : (t.release i).Ok := by
  have hi := (releasable_iff.mp hr).1
  have hsub : ∀ x, x ∈ (t.release i).live → x ∈ t.live := fun x hx => (List.mem_filter.mp hx).1
  have hcount : ∀ k, (t.release i).released.count k = t.released.count k + if i = k then 1 else 0 := by
    intro k
    simp only [Handles.release, List.count_cons, beq_iff_eq]
  refine ⟨fun x hx => h.lt x (hsub x hx), fun x hx => h.deps x (hsub x hx), ?_, ?_, ?_, ?_⟩
  · exact (List.filter_sublist.map Handle.id).nodup h.nodup
  · intro k hk
    rw [hcount]
    by_cases hki : i = k
    · subst hki
      simp only [h.once i hk, hi, mem_ids_release, ne_eq, not_true, and_false, if_true, if_false]
    · simp only [h.once k hk, mem_ids_release, ne_eq, Ne.symm hki, hki, not_false_eq_true, and_true, if_false, Nat.add_zero]
  · intro k hk
    have hne : i ≠ k := fun he => absurd (h.id_lt hi) (by subst he; exact Nat.not_lt.mpr hk)
    rw [hcount, if_neg hne, h.unmade k hk]
  · simp only [Handles.release, h.clean, hr, Bool.not_true, Bool.or_false]

/-- With nothing held, each handle ever made was released exactly once. -/
theorem Ok.released_once (h : t.Ok) (hl : t.live = []) (hi : i < t.next) : t.released.count i = 1 := by
  rw [h.once i hi]
  simp only [ids, hl, List.map_nil, List.not_mem_nil, if_false]

end Handles
end RdmaInfra
