/-
C functions that leave early: a call that fails jumps to the label `out`, or
returns, and what was done up to there stays done.

A program is a function on the state that returns a value, or nothing where it
left. `Triple P m Q R`: from a state in `P`, `m` returns in `Q` or leaves in
`R`. The rules are one for each way of building a program, so the proof of a
function follows its text.
-/
import Mathlib.Logic.Basic

namespace RdmaInfra

def Fallible (σ α : Type) : Type := σ → Option α × σ

namespace Fallible

variable {σ α β : Type}

instance : Monad (Fallible σ) where
  pure a s := (some a, s)
  bind m f s :=
    match m s with
    | (some a, s') => f a s'
    | (none, s') => (none, s')

/-- `goto out`, or a return of -1. -/
def leave : Fallible σ α := fun s => (none, s)

def modify (f : σ → σ) : Fallible σ Unit := fun s => (some (), f s)

def read (f : σ → α) : Fallible σ α := fun s => (some (f s), s)

/-- `if (c) m`. -/
def onlyIf (c : Bool) (m : Fallible σ Unit) : Fallible σ Unit := if c then m else pure ()

/-- Runs `m` and answers whether it returned: the label `out` after it. -/
def attempt (m : Fallible σ Unit) : Fallible σ Bool := fun s => (some (m s).1.isSome, (m s).2)

/-- From `P`, `m` returns in `Q` or leaves in `R`. -/
def Triple (P : σ → Prop) (m : Fallible σ α) (Q : α → σ → Prop) (R : σ → Prop) : Prop :=
  ∀ s, P s → (∀ a s', m s = (some a, s') → Q a s') ∧ ∀ s', m s = (none, s') → R s'

variable {P P' R R' : σ → Prop} {m : Fallible σ α} {Q Q' : α → σ → Prop}

theorem Triple.pure {a : α} : Triple (Q a) (pure a) Q R := by
  intro s h
  refine ⟨fun b s' he => ?_, fun s' he => ?_⟩ <;> cases he
  exact h

theorem Triple.leave : Triple R (leave : Fallible σ α) Q R := by
  intro s h
  refine ⟨fun b s' he => ?_, fun s' he => ?_⟩ <;> cases he
  exact h

theorem Triple.modify {f : σ → σ} {Q : σ → Prop} (h : ∀ s, P s → Q (f s)) : Triple P (modify f) (fun _ => Q) R := by
  intro s hs
  refine ⟨fun b s' he => ?_, fun s' he => ?_⟩ <;> cases he
  exact h s hs

theorem Triple.read {f : σ → α} (h : ∀ s, P s → Q (f s) s) : Triple P (read f) Q R := by
  intro s hs
  refine ⟨fun b s' he => ?_, fun s' he => ?_⟩ <;> cases he
  exact h s hs

theorem Triple.bind {f : α → Fallible σ β} {S : β → σ → Prop} (hm : Triple P m Q R)
    (hf : ∀ a, Triple (Q a) (f a) S R) : Triple P (m >>= f) S R := by
  intro s hs
  obtain ⟨hq, hr⟩ := hm s hs
  change (∀ b s', (match m s with | (some a, t) => f a t | (none, t) => (none, t)) = (some b, s') → S b s') ∧
    ∀ s', (match m s with | (some a, t) => f a t | (none, t) => (none, t)) = (none, s') → R s'
  cases hms : m s with
  | mk o t =>
    cases o with
    | none =>
      refine ⟨fun b s' he => ?_, fun s' he => ?_⟩ <;> cases he
      exact hr t hms
    | some a => exact hf a t (hq a t hms)

/-- Sequencing, where the first returns nothing to look at. -/
theorem Triple.seq {m : Fallible σ Unit} {n : Fallible σ β} {Q : σ → Prop} {S : β → σ → Prop}
    (hm : Triple P m (fun _ => Q) R) (hn : Triple Q n S R) : Triple P (m >>= fun _ => n) S R :=
  hm.bind fun _ => hn

theorem Triple.conseq (h : Triple P m Q R) (hP : ∀ s, P' s → P s) (hQ : ∀ a s, Q a s → Q' a s)
    (hR : ∀ s, R s → R' s) : Triple P' m Q' R' := fun s hs =>
  ⟨fun a s' he => hQ a s' ((h s (hP s hs)).1 a s' he), fun s' he => hR s' ((h s (hP s hs)).2 s' he)⟩

/-- What does not depend on the state may be assumed of it. -/
theorem Triple.assume {φ : Prop} (h : φ → Triple P m Q R) : Triple (fun s => P s ∧ φ) m Q R :=
  fun s hs => h hs.2 s hs.1

/-- A program that never leaves returns. -/
theorem Triple.returns (h : Triple P m Q fun _ => False) {s : σ} (hs : P s) :
    ∃ a s', m s = (some a, s') ∧ Q a s' := by
  obtain ⟨hq, hr⟩ := h s hs
  cases hms : m s with
  | mk o t =>
    cases o with
    | none => exact (hr t hms).elim
    | some a => exact ⟨a, t, rfl, hq a t hms⟩

theorem Triple.and {S : α → σ → Prop} (h : Triple P m Q R) (h' : Triple P' m S R) :
    Triple (fun s => P s ∧ P' s) m (fun a s => Q a s ∧ S a s) R := fun s hs =>
  ⟨fun a s' he => ⟨(h s hs.1).1 a s' he, (h' s hs.2).1 a s' he⟩, fun s' he => (h s hs.1).2 s' he⟩

theorem Triple.or (h : Triple P m Q R) (h' : Triple P' m Q R) : Triple (fun s => P s ∨ P' s) m Q R :=
  fun s hs => hs.elim (h s) (h' s)

theorem Triple.exists {ι : Type} {P : ι → σ → Prop} (h : ∀ x, Triple (P x) m Q R) :
    Triple (fun s => ∃ x, P x s) m Q R := fun s ⟨x, hx⟩ => h x s hx

theorem Triple.onlyIf {c : Bool} {m : Fallible σ Unit} {Q : σ → Prop} (hm : c = true → Triple P m (fun _ => Q) R)
    (hn : c = false → ∀ s, P s → Q s) : Triple P (onlyIf c m) (fun _ => Q) R := by
  cases c with
  | true => exact hm rfl
  | false => exact (Triple.pure (Q := fun _ => Q)).conseq (hn rfl) (fun _ _ h => h) fun _ h => h

theorem Triple.ite {c : Bool} {n : Fallible σ α} (hm : c = true → Triple P m Q R) (hn : c = false → Triple P n Q R) :
    Triple P (if c then m else n) Q R := by
  cases c with
  | true => exact hm rfl
  | false => exact hn rfl

theorem Triple.attempt {m : Fallible σ Unit} {Q : σ → Prop} (h : Triple P m (fun _ => Q) R) :
    Triple P (attempt m) (fun ok s => if ok then Q s else R s) R' := by
  intro s hs
  obtain ⟨hq, hr⟩ := h s hs
  refine ⟨fun b s' he => ?_, fun s' he => ?_⟩
  · cases hms : m s with
    | mk o t =>
      cases o with
      | none =>
        simp only [Fallible.attempt, hms, Prod.mk.injEq, Option.some.injEq] at he
        obtain ⟨rfl, rfl⟩ := he
        simpa using hr _ hms
      | some a =>
        simp only [Fallible.attempt, hms, Prod.mk.injEq, Option.some.injEq] at he
        obtain ⟨rfl, rfl⟩ := he
        simpa using hq a _ hms
  · cases he

end Fallible
end RdmaInfra
