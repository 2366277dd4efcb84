/-
Transition systems, for every protocol of the development: several parties
and the hardware between them take turns in any order, so a system is one
state and the labelled actions that change it. An interleaving is a sequence
of actions, and "for every interleaving" is "for every reachable state".

`Reach.inv` is the invariant rule; `exists_final` turns a measure that every
step lowers into a run that ends, which is how a system shown never to be
stuck is shown to complete. Such a measure is a sum over the parties, of which
a step lowers one (`sum_update_lt`).
-/
import Mathlib.Algebra.Order.BigOperators.Group.Finset

namespace RdmaInfra

/-- A system of actions `α` on states `σ`: `step a s` is what `a` makes of
`s`, or `none` where `a` is not enabled. -/
structure Lts (σ α : Type) where
  init : σ → Prop
  step : α → σ → Option σ

/-- Of a state with one part for each party: where a step lowers what one party
has left to do, it lowers the sum. -/
theorem sum_update_lt {ι κ : Type} [Fintype ι] [DecidableEq ι] (m : ι → κ → Nat) {f : ι → κ} {i : ι} {x : κ}
    (h : m i x < m i (f i)) : ∑ j, m j (Function.update f i x j) < ∑ j, m j (f j) := by
  refine Finset.sum_lt_sum (fun j _ => ?_) ⟨i, Finset.mem_univ i, by rw [Function.update_self]; exact h⟩
  by_cases hj : j = i
  · subst hj
    rw [Function.update_self]
    exact h.le
  · rw [Function.update_of_ne hj]

namespace Lts

variable {σ α : Type} (L : Lts σ α)

/-- The states some interleaving reaches by steps that all satisfy `P`,
which sees the state a step is taken in. -/
inductive ReachBy (P : σ → α → Prop) : σ → Prop
  | init : L.init s → ReachBy P s
  | next : ReachBy P s → P s a → L.step a s = some s' → ReachBy P s'

/-- The states some interleaving reaches. -/
def Reach : σ → Prop := L.ReachBy fun _ _ => True

/-- Some action is enabled. -/
def Enabled (s : σ) : Prop := ∃ a s', L.step a s = some s'

/-- The state a list of actions leads to. -/
def exec : List α → σ → Option σ
  | [], s => some s
  | a :: as, s => (L.step a s).bind (exec as)

/-- Every action of a list satisfies `P` in the state it is taken in. -/
def Along (P : σ → α → Prop) : List α → σ → Prop
  | [], _ => True
  | a :: as, s => P s a ∧ ∀ s', L.step a s = some s' → Along P as s'

variable {L}

theorem Reach.init {s} (h : L.init s) : L.Reach s := ReachBy.init h

theorem Reach.next {s a s'} (h : L.Reach s) (hs : L.step a s = some s') : L.Reach s' :=
  ReachBy.next h trivial hs

/-- What holds at first and survives every step a run may take holds
wherever the run gets. -/
theorem ReachBy.inv {P : σ → α → Prop} {I : σ → Prop} (h0 : ∀ s, L.init s → I s)
    (hs : ∀ s a s', L.ReachBy P s → P s a → I s → L.step a s = some s' → I s') {s} (h : L.ReachBy P s) :
    I s := by
  induction h with
  | init h => exact h0 _ h
  | next hr hp hst ih => exact hs _ _ _ hr hp ih hst

theorem ReachBy.reach {P : σ → α → Prop} {s} (h : L.ReachBy P s) : L.Reach s := by
  induction h with
  | init h => exact Reach.init h
  | next _ _ hst ih => exact ih.next hst

theorem Reach.inv {I : σ → Prop} (h0 : ∀ s, L.init s → I s)
    (hs : ∀ s a s', L.Reach s → I s → L.step a s = some s' → I s') {s} (h : L.Reach s) : I s :=
  ReachBy.inv h0 (fun s a s' hr _ => hs s a s' hr) h

theorem exec_inv {I : σ → Prop} (hI : ∀ s a s', I s → L.step a s = some s' → I s') {as : List α} :
    ∀ {s s'}, I s → L.exec as s = some s' → I s' := by
  induction as with
  | nil => intro s s' h he; cases he; exact h
  | cons a as ih =>
    intro s s' h he
    obtain ⟨t, ht, he⟩ := Option.bind_eq_some_iff.mp he
    exact ih (hI _ _ _ h ht) he

theorem Reach.exec {as : List α} {s s'} (h : L.Reach s) (he : L.exec as s = some s') : L.Reach s' :=
  exec_inv (fun _ _ _ h hs => h.next hs) h he

/-- Where every step keeps `J` exactly when it satisfies `P`, a run keeps it
exactly when all its steps do. -/
theorem exec_iff_along {P : σ → α → Prop} {I J : σ → Prop}
    (hI : ∀ s a s', I s → L.step a s = some s' → I s')
    (hJ : ∀ s a s', I s → L.step a s = some s' → (J s' ↔ J s ∧ P s a)) {as : List α} :
    ∀ {s s'}, I s → L.exec as s = some s' → (J s' ↔ J s ∧ L.Along P as s) := by
  induction as with
  | nil =>
    intro s s' _ he
    cases he
    simp only [Along, and_true]
  | cons a as ih =>
    intro s s' hi he
    obtain ⟨t, ht, he⟩ := Option.bind_eq_some_iff.mp he
    have hone : L.Along P (a :: as) s ↔ P s a ∧ L.Along P as t := by
      simp only [Along, ht, Option.some.injEq, forall_eq']
    rw [ih (hI _ _ _ hi ht) he, hJ _ _ _ hi ht, hone, and_assoc]

/-- Where a step from a state in `G` stays in `G` exactly when it satisfies `P`,
a run is in `G` all along exactly when all its steps satisfy `P`. -/
theorem always_iff_along {P : σ → α → Prop} {I G : σ → Prop}
    (hI : ∀ s a s', I s → L.step a s = some s' → I s')
    (hG : ∀ s a s', I s → G s → L.step a s = some s' → (G s' ↔ P s a)) {as : List α} :
    ∀ {s s'}, I s → G s → L.exec as s = some s' →
      ((∀ k t, L.exec (as.take k) s = some t → G t) ↔ L.Along P as s) := by
  induction as with
  | nil =>
    intro s s' _ hg _
    simpa [exec, Along] using hg
  | cons a as ih =>
    intro s s' hi hg he
    obtain ⟨t, ht, he⟩ := Option.bind_eq_some_iff.mp he
    have hone : L.Along P (a :: as) s ↔ P s a ∧ L.Along P as t := by
      simp only [Along, ht, Option.some.injEq, forall_eq']
    rw [hone, ← hG s a t hi hg ht]
    have hcons : ∀ k u, L.exec ((a :: as).take (k + 1)) s = some u ↔ L.exec (as.take k) t = some u := by
      intro k u
      simp only [List.take_succ_cons, exec, ht, Option.bind_some]
    constructor
    · intro hall
      have hgt : G t := hall 1 t (by rw [hcons]; rfl)
      exact ⟨hgt, (ih (hI _ _ _ hi ht) hgt he).mp fun k u hu => hall (k + 1) u ((hcons k u).mpr hu)⟩
    · rintro ⟨hgt, hal⟩ k u hu
      cases k with
      | zero => cases hu; exact hg
      | succ k => exact (ih (hI _ _ _ hi ht) hgt he).mpr hal k u ((hcons k u).mp hu)

/-- A measure that every step lowers: every run ends, so some run from a
reachable state ends where no action is enabled. -/
theorem Reach.exists_final {m : σ → Nat}
    (hm : ∀ s a s', L.Reach s → L.step a s = some s' → m s' < m s) {s} (h : L.Reach s) :
    ∃ s', L.Reach s' ∧ ¬ L.Enabled s' := by
  induction hn : m s using Nat.strongRecOn generalizing s with
  | _ n ih =>
  by_cases he : L.Enabled s
  · obtain ⟨a, s', hs⟩ := he
    exact ih (m s') (hn ▸ hm s a s' h hs) (h.next hs) rfl
  · exact ⟨s, h, he⟩

/-- Along such a measure a run has no more steps than the measure allows. -/
theorem exec_length_le {m : σ → Nat} (hm : ∀ s a s', L.step a s = some s' → m s' < m s) {as : List α} :
    ∀ {s s'}, L.exec as s = some s' → as.length + m s' ≤ m s := by
  induction as with
  | nil =>
    intro s s' he
    cases he
    simp
  | cons a as ih =>
    intro s s' he
    obtain ⟨t, ht, he⟩ := Option.bind_eq_some_iff.mp he
    have hlt := hm s a t ht
    have hle := ih he
    rw [List.length_cons]
    omega

theorem exec_concat {as : List α} {a : α} :
    ∀ {s t s'}, L.exec as s = some t → L.step a t = some s' → L.exec (as ++ [a]) s = some s' := by
  induction as with
  | nil =>
    intro s t s' he hs
    cases he
    simp [Lts.exec, hs]
  | cons b as ih =>
    intro s t s' he hs
    obtain ⟨u, hu, he⟩ := Option.bind_eq_some_iff.mp he
    exact Option.bind_eq_some_iff.mpr ⟨u, hu, ih he hs⟩

/-- A reachable state is the end of a run. -/
theorem Reach.exists_exec {s} (h : L.Reach s) : ∃ s₀ as, L.init s₀ ∧ L.exec as s₀ = some s := by
  refine Reach.inv (I := fun s => ∃ s₀ as, L.init s₀ ∧ L.exec as s₀ = some s) ?_ ?_ h
  · intro s h0
    exact ⟨s, [], h0, rfl⟩
  · rintro s a s' - ⟨s₀, as, h0, he⟩ hs
    exact ⟨s₀, as ++ [a], h0, exec_concat he hs⟩

/-- A run of steps that all satisfy `P` reaches its end by such steps. -/
theorem ReachBy.along {P : σ → α → Prop} {as : List α} :
    ∀ {s s'}, L.ReachBy P s → L.Along P as s → L.exec as s = some s' → L.ReachBy P s' := by
  induction as with
  | nil =>
    intro s s' h _ he
    cases he
    exact h
  | cons a as ih =>
    intro s s' h hal he
    obtain ⟨t, ht, he⟩ := Option.bind_eq_some_iff.mp he
    exact ih (h.next hal.1 ht) (hal.2 t ht) he

end Lts
end RdmaInfra
