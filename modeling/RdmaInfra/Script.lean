/-
Parties that each run a fixed list of calls.

The calls of one party happen in the order of its list and nothing orders those
of two, except that a call may have to wait for what others have done. A state
is what each party has done so far. `Precedes` speaks of one list; a wait carries
it over to the other party (`reach_needs`), and chains of the two are how one
learns what a party must have done before another can get where it is.
-/
import Mathlib.Data.List.Infix
import Mathlib.Logic.Function.Basic
import RdmaInfra.Lts

namespace RdmaInfra.Script

variable {P O : Type}

/-! ## Order in one list -/

/-- A `y` comes before every `z`. -/
def Precedes (y z : O) (l : List O) : Prop := ∀ a b, l = a ++ z :: b → y ∈ a

/-- No `y` comes before a `z`. -/
def NotBefore (y z : O) (l : List O) : Prop := ∀ a b, l = a ++ z :: b → y ∉ a

variable {y z : O} {a b d l : List O}

theorem Precedes.of_initial (h : a <+: l) (hy : y ∈ a) (hz : z ∉ a) : Precedes y z l := by
  obtain ⟨b, rfl⟩ := h
  intro c e he
  rcases List.append_eq_append_iff.mp he with ⟨t, rfl, -⟩ | ⟨t, rfl, ht⟩
  · exact List.mem_append_left _ hy
  · cases t with
    | nil => simpa using hy
    | cons x t =>
      simp only [List.cons_append, List.cons.injEq] at ht
      obtain ⟨rfl, -⟩ := ht
      exact absurd (List.mem_append_right _ (List.mem_cons_self ..)) hz

/-- What is there once does not come before itself. -/
theorem NotBefore.of_count [DecidableEq O] (h : l.count z ≤ 1) : NotBefore z z l := by
  rintro a b rfl ha
  have hpos := List.count_pos_iff.mpr ha
  rw [List.count_append, List.count_cons_self] at h
  omega

theorem eq_append_of_next (hd : d <+: l) (hn : l[d.length]? = some z) : ∃ b, l = d ++ z :: b := by
  obtain ⟨t, rfl⟩ := hd
  cases t with
  | nil => simp at hn
  | cons x t =>
    simp only [le_refl, List.getElem?_append_right, Nat.sub_self, List.getElem?_cons_zero, Option.some.injEq] at hn
    exact ⟨t, by rw [hn]⟩

/-- What is to come next has had its predecessors. -/
theorem Precedes.of_next (h : Precedes y z l) (hd : d <+: l) (hn : l[d.length]? = some z) : y ∈ d := by
  obtain ⟨b, hb⟩ := eq_append_of_next hd hn
  exact h d b hb

/-- So has what is done. -/
theorem Precedes.of_mem (h : Precedes y z l) (hd : d <+: l) (hz : z ∈ d) : y ∈ d := by
  obtain ⟨c, e, rfl⟩ := List.append_of_mem hz
  obtain ⟨t, rfl⟩ := hd
  have hy : y ∈ c := h c (e ++ t) (by simp)
  exact List.mem_append_left _ hy

theorem NotBefore.of_next (h : NotBefore y z l) (hd : d <+: l) (hn : l[d.length]? = some z) : y ∉ d := by
  obtain ⟨b, hb⟩ := eq_append_of_next hd hn
  exact h d b hb

/-! ## The system -/

section

variable [DecidableEq P] (program : P → List O) (ready : (P → List O) → P → O → Bool)

/-- The call a party makes next. -/
def next (s : P → List O) (p : P) : Option O := (program p)[(s p).length]?

def step (p : P) (s : P → List O) : Option (P → List O) :=
  match next program s p with
  | none => none
  | some o => if ready s p o then some (Function.update s p (s p ++ [o])) else none

/-- An action is a party making its next call; `ready` says which calls are not
kept waiting. -/
def system : Lts (P → List O) P where
  init s := s = fun _ => []
  step := step program ready

variable {program ready} {s s' : P → List O} {p q : P} {x : O}

theorem step_cases (h : step program ready p s = some s') :
    ∃ o, next program s p = some o ∧ ready s p o = true ∧ s' = Function.update s p (s p ++ [o]) := by
  simp only [step] at h
  split at h
  · cases h
  next o ho =>
  split at h
  · next hr =>
    cases h
    exact ⟨o, ho, hr, rfl⟩
  · cases h

theorem mem_update {o : O} : z ∈ Function.update s p (s p ++ [o]) q ↔ z ∈ s q ∨ q = p ∧ z = o := by
  by_cases hq : q = p
  · subst hq
    simp
  · simp [hq]

/-- A party has done the beginning of its list. -/
theorem reach_initial (h : (system program ready).Reach s) (p : P) : s p <+: program p := by
  refine h.inv (I := fun s => ∀ p, s p <+: program p) ?_ ?_ p
  · rintro _ rfl p
    exact List.nil_prefix
  · intro s q s' _ ih hs p
    obtain ⟨o, ho, -, rfl⟩ := step_cases hs
    by_cases hp : p = q
    · subst hp
      obtain ⟨b, hb⟩ := eq_append_of_next (ih p) ho
      simp only [Function.update_self]
      exact ⟨b, by rw [hb, List.append_assoc, List.singleton_append]⟩
    · simpa [hp] using ih p

/-- A call that waits for another is done only after it. -/
theorem reach_needs (hw : ∀ s, ready s p x = true → y ∈ s q) (h : (system program ready).Reach s)
    (hx : x ∈ s p) : y ∈ s q := by
  refine h.inv (I := fun s => x ∈ s p → y ∈ s q) ?_ ?_ hx
  · rintro _ rfl hx
    simp at hx
  · intro s r s' _ ih hs hx
    obtain ⟨o, -, hr, rfl⟩ := step_cases hs
    rw [mem_update] at hx ⊢
    rcases hx with hx | ⟨rfl, rfl⟩
    · exact .inl (ih hx)
    · exact .inl (hw s hr)

end

end RdmaInfra.Script
