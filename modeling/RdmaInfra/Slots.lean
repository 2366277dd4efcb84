/-
Ownership of handles by variables: the fields of a record and the locals of a
function, each of which is null or names a handle.

A program acquires into a variable, releases what a variable names, or moves it
to another. `dep k` are the variables whose handles the one in `k` is made
from. `Sound` says that every variable names a held handle of its own, and
`Exact` that nothing else is held, beside what was held in `base` before: so
what a program holds is read off its variables, and a release through a
variable that no filled one depends on is never a fault.
-/
import Mathlib.Logic.Function.Basic
import RdmaInfra.Handles

namespace RdmaInfra.Slots

variable {K : Type}

/-- The handles that the one in `k` is made from. -/
def made (dep : K → List K) (slot : K → Option Nat) (k : K) : List Nat := (dep k).filterMap slot

/-- No variable that depends on `k` is filled. -/
def Free (dep : K → List K) (slot : K → Option Nat) (k : K) : Prop := ∀ k', k ∈ dep k' → k' ≠ k ∧ slot k' = none

structure Sound (dep : K → List K) (base os : Handles) (slot : K → Option Nat) : Prop where
  ok : os.Ok
  base_ok : base.Ok
  base_le : base.next ≤ os.next
  kept : ∀ h ∈ base.live, h ∈ os.live
  held : ∀ k i, slot k = some i → ⟨i, made dep slot k⟩ ∈ os.live
  fresh : ∀ k i, slot k = some i → base.next ≤ i
  apart : ∀ k k' i, slot k = some i → slot k' = some i → k = k'

/-- Everything held is in a variable, or was held before. -/
def Exact (base os : Handles) (slot : K → Option Nat) : Prop :=
  ∀ h ∈ os.live, h ∈ base.live ∨ ∃ k, slot k = some h.id

structure Owns (dep : K → List K) (base os : Handles) (slot : K → Option Nat) : Prop
    extends Sound dep base os slot where
  exact : Exact base os slot

variable {dep : K → List K} {base os : Handles} {slot : K → Option Nat} {k k' : K} {i : Nat}

/-- Nothing is in a variable at first. -/
theorem sound_of_empty (h : os.Ok) (he : ∀ k, slot k = none) : Sound dep os os slot where
  ok := h
  base_ok := h
  base_le := Nat.le_refl _
  kept := fun _ hx => hx
  held := fun k i hi => by simp [he k] at hi
  fresh := fun k i hi => by simp [he k] at hi
  apart := fun k _ i hi => by simp [he k] at hi

theorem owns_of_empty (h : os.Ok) (he : ∀ k, slot k = none) : Owns dep os os slot :=
  ⟨sound_of_empty h he, fun _ hx => .inl hx⟩

theorem Sound.mem_ids (h : Sound dep base os slot) (hi : slot k = some i) : i ∈ os.ids :=
  List.mem_map_of_mem (h.held k i hi)

theorem Sound.ne_next (h : Sound dep base os slot) (hi : slot k = some i) : i ≠ os.next :=
  fun he => h.ok.next_not_mem (he ▸ h.mem_ids hi)

/-- Nothing held was made from what `k` names, if no filled variable depends
on `k`. -/
theorem Owns.not_dep (h : Owns dep base os slot) (hf : Free dep slot k) (hi : slot k = some i) :
    ∀ x ∈ os.live, i ∉ x.deps := by
  intro x hx hd
  rcases h.exact x hx with hb | ⟨j, hj⟩
  · have h1 := h.ok.deps x hx i hd
    have h2 := h.base_ok.lt x hb
    have h3 := h.fresh k i hi
    omega
  · have hxe := h.ok.eq_of_id hx (h.held j x.id hj) rfl
    rw [hxe] at hd
    obtain ⟨m, hm, hmi⟩ := List.mem_filterMap.mp hd
    rw [h.apart m k i hmi hi] at hm
    rw [(hf j hm).2] at hj
    cases hj

/-- With every variable empty, what is held is what was held before, and each
handle made since was released exactly once. -/
theorem Owns.live_iff (h : Owns dep base os slot) (he : ∀ k, slot k = none) {x : Handle} :
    x ∈ os.live ↔ x ∈ base.live := by
  refine ⟨fun hx => (h.exact x hx).resolve_right ?_, h.kept x⟩
  intro hex
  obtain ⟨k, hk⟩ := hex
  rw [he] at hk
  cases hk

variable [DecidableEq K]

theorem update_some {v : Option Nat} (h : Function.update slot k v k' = some i) :
    k' = k ∧ v = some i ∨ k' ≠ k ∧ slot k' = some i := by
  by_cases hk : k' = k
  · subst hk
    exact .inl ⟨rfl, by rwa [Function.update_self] at h⟩
  · exact .inr ⟨hk, by rwa [Function.update_of_ne hk] at h⟩

theorem made_update {v : Option Nat} (h : k ∉ dep k') : made dep (Function.update slot k v) k' = made dep slot k' :=
  List.filterMap_congr fun j hj =>
    have hne : j ≠ k := by
      intro heq
      subst heq
      exact h hj
    Function.update_of_ne hne v slot

theorem Free.made_update {v : Option Nat} (hf : Free dep slot k) (hs : slot k' = some i) :
    made dep (Function.update slot k v) k' = made dep slot k' :=
  Slots.made_update fun hd => by simp [(hf k' hd).2] at hs

theorem Free.made_update_self {v : Option Nat} (hf : Free dep slot k) :
    made dep (Function.update slot k v) k = made dep slot k :=
  Slots.made_update fun hd => (hf k hd).1 rfl

/-! ## Emptying and overwriting a variable -/

theorem Sound.clear (h : Sound dep base os slot) (hf : Free dep slot k) :
    Sound dep base os (Function.update slot k none) := by
  have hold : ∀ j i, Function.update slot k none j = some i → slot j = some i := by
    intro j i hj
    obtain ⟨-, hv⟩ | ⟨-, hj⟩ := update_some hj
    · cases hv
    · exact hj
  refine ⟨h.ok, h.base_ok, h.base_le, h.kept, fun j i hj => ?_, fun j i hj => h.fresh j i (hold j i hj),
    fun j j' i hj hj' => h.apart j j' i (hold j i hj) (hold j' i hj')⟩
  rw [hf.made_update (hold j i hj)]
  exact h.held j i (hold j i hj)

theorem Sound.exact_clear (h : Sound dep base os slot) :
    Exact base os (Function.update slot k none) ↔ Exact base os slot ∧ slot k = none := by
  constructor
  · intro he
    refine ⟨fun x hx => (he x hx).imp_right ?_, ?_⟩
    · intro hex
      obtain ⟨j, hj⟩ := hex
      obtain ⟨-, hv⟩ | ⟨-, hj⟩ := update_some hj
      · cases hv
      · exact ⟨j, hj⟩
    · cases hi : slot k with
      | none => rfl
      | some i =>
        rcases he _ (h.held k i hi) with hb | ⟨j, hj⟩
        · exact absurd (h.base_ok.lt _ hb) (Nat.not_lt.mpr (h.fresh k i hi))
        · obtain ⟨-, hv⟩ | ⟨hne, hj⟩ := update_some hj
          · cases hv
          · exact absurd (h.apart j k i hj hi) hne
  · rintro ⟨he, hn⟩ x hx
    refine (he x hx).imp_right ?_
    intro hex
    obtain ⟨j, hj⟩ := hex
    have hne : j ≠ k := by
      intro heq
      subst heq
      rw [hn] at hj
      cases hj
    exact ⟨j, by rw [Function.update_of_ne hne, hj]⟩

/-! ## Acquiring into a variable -/

theorem Sound.acquire (h : Sound dep base os slot) (hf : Free dep slot k) :
    Sound dep base (os.acquire (made dep slot k)) (Function.update slot k (some os.next)) where
  ok := by
    refine h.ok.acquire fun d hd => ?_
    obtain ⟨j, -, hj⟩ := List.mem_filterMap.mp hd
    exact h.ok.id_lt (h.mem_ids hj)
  base_ok := h.base_ok
  base_le := Nat.le_succ_of_le h.base_le
  kept := fun x hx => List.mem_cons_of_mem _ (h.kept x hx)
  held := by
    intro j i hj
    obtain ⟨rfl, hv⟩ | ⟨-, hj⟩ := update_some hj
    · cases hv
      rw [hf.made_update_self]
      exact List.mem_cons_self
    · rw [hf.made_update hj]
      exact List.mem_cons_of_mem _ (h.held j i hj)
  fresh := by
    intro j i hj
    obtain ⟨-, hv⟩ | ⟨-, hj⟩ := update_some hj
    · cases hv
      exact h.base_le
    · exact h.fresh j i hj
  apart := by
    intro j j' i hj hj'
    obtain ⟨hk, hv⟩ | ⟨-, hj⟩ := update_some hj <;> obtain ⟨hk', hv'⟩ | ⟨-, hj'⟩ := update_some hj'
    · rw [hk, hk']
    · cases hv
      exact absurd rfl (h.ne_next hj')
    · cases hv'
      exact absurd rfl (h.ne_next hj)
    · exact h.apart j j' i hj hj'

theorem Sound.exact_acquire (h : Sound dep base os slot) {ds : List Nat} :
    Exact base (os.acquire ds) (Function.update slot k (some os.next)) ↔ Exact base os slot ∧ slot k = none := by
  rw [← h.exact_clear]
  constructor
  · intro he x hx
    refine (he x (List.mem_cons_of_mem _ hx)).imp_right ?_
    intro hex
    obtain ⟨j, hj⟩ := hex
    obtain ⟨-, hv⟩ | ⟨hne, hj⟩ := update_some hj
    · exact absurd (h.ok.lt x hx) (by rw [← Option.some.inj hv]; exact Nat.lt_irrefl _)
    · exact ⟨j, by rw [Function.update_of_ne hne, hj]⟩
  · intro he x hx
    rcases List.mem_cons.mp hx with rfl | hx
    · exact .inr ⟨k, by rw [Function.update_self]⟩
    · refine (he x hx).imp_right ?_
      intro hex
      obtain ⟨j, hj⟩ := hex
      obtain ⟨-, hv⟩ | ⟨hne, hj⟩ := update_some hj
      · cases hv
      · exact ⟨j, by rw [Function.update_of_ne hne, hj]⟩

/-! ## Releasing what a variable names -/

theorem Sound.release (h : Sound dep base os slot) (hf : Free dep slot k) (hi : slot k = some i)
    (hd : ∀ x ∈ os.live, i ∉ x.deps) : Sound dep base (os.release i) (Function.update slot k none) := by
  have hc := h.clear hf
  have hne : ∀ j e, Function.update slot k none j = some e → e ≠ i := by
    rintro j e hj rfl
    obtain ⟨-, hv⟩ | ⟨hne, hj⟩ := update_some hj
    · cases hv
    · exact hne (h.apart j k e hj hi)
  have hkeep : ∀ x ∈ os.live, x.id ≠ i → x ∈ (os.release i).live := by
    intro x hx hxi
    simpa [Handles.release, hx] using hxi
  refine ⟨h.ok.release (Handles.releasable_iff.mpr ⟨h.mem_ids hi, hd⟩), h.base_ok, h.base_le, fun x hx => ?_,
    fun j e hj => ?_, hc.fresh, hc.apart⟩
  · refine hkeep x (h.kept x hx) fun he => ?_
    exact absurd (h.base_ok.lt x hx) (Nat.not_lt.mpr (he ▸ h.fresh k i hi))
  · exact hkeep _ (hc.held j e hj) (hne j e hj)

theorem exact_release (hi : slot k = some i) :
    Exact base (os.release i) (Function.update slot k none) ↔ Exact base os slot := by
  constructor
  · intro he x hx
    by_cases hxi : x.id = i
    · exact .inr ⟨k, hxi ▸ hi⟩
    · refine (he x (by simpa [Handles.release, hx] using hxi)).imp_right ?_
      intro hex
      obtain ⟨j, hj⟩ := hex
      obtain ⟨-, hv⟩ | ⟨-, hj⟩ := update_some hj
      · cases hv
      · exact ⟨j, hj⟩
  · intro he x hx
    obtain ⟨hx, hxi⟩ := List.mem_filter.mp hx
    refine (he x hx).imp_right ?_
    intro hex
    obtain ⟨j, hj⟩ := hex
    have hne : j ≠ k := by
      intro heq
      subst heq
      rw [hi] at hj
      simp [Option.some.inj hj] at hxi
    exact ⟨j, by rw [Function.update_of_ne hne, hj]⟩

/-! ## Programs that overwrite nothing -/

theorem Owns.acquire (h : Owns dep base os slot) (hf : Free dep slot k) (hk : slot k = none) :
    Owns dep base (os.acquire (made dep slot k)) (Function.update slot k (some os.next)) :=
  ⟨h.toSound.acquire hf, h.toSound.exact_acquire.mpr ⟨h.exact, hk⟩⟩

theorem Owns.release (h : Owns dep base os slot) (hf : Free dep slot k) (hi : slot k = some i) :
    Owns dep base (os.release i) (Function.update slot k none) :=
  ⟨h.toSound.release hf hi (h.not_dep hf hi), (exact_release hi).mpr h.exact⟩

/-- A handle moves from one variable to another of the same kind. -/
theorem Owns.move (h : Owns dep base os slot) (hd : dep k = dep k') (hf : Free dep slot k) (hf' : Free dep slot k')
    (hi : slot k = some i) (hk' : slot k' = none) :
    Owns dep base os (Function.update (Function.update slot k none) k' (some i)) := by
  have hne : k ≠ k' := by
    intro heq
    subst heq
    rw [hi] at hk'
    cases hk'
  have hother : ∀ j e, Function.update (Function.update slot k none) k' (some i) j = some e →
      j = k' ∧ e = i ∨ j ≠ k ∧ j ≠ k' ∧ slot j = some e := by
    intro j e hj
    obtain ⟨rfl, hv⟩ | ⟨hj', hj⟩ := update_some hj
    · exact .inl ⟨rfl, (Option.some.inj hv).symm⟩
    obtain ⟨-, hv⟩ | ⟨hjk, hj⟩ := update_some hj
    · cases hv
    · exact .inr ⟨hjk, hj', hj⟩
  have hmade : ∀ j, k ∉ dep j → k' ∉ dep j →
      made dep (Function.update (Function.update slot k none) k' (some i)) j = made dep slot j :=
    fun j hj hj' => by rw [made_update hj', made_update hj]
  refine ⟨⟨h.ok, h.base_ok, h.base_le, h.kept, fun j e hj => ?_, fun j e hj => ?_, fun j j' e hj hj' => ?_⟩,
    fun x hx => (h.exact x hx).imp_right ?_⟩
  · rcases hother j e hj with ⟨rfl, rfl⟩ | ⟨hjk, hjk', hs⟩
    · have hm : made dep slot j = made dep slot k := by rw [made, made, hd]
      rw [hmade j (fun hc => (hf k (hd ▸ hc)).1 rfl) (fun hc => (hf' j hc).1 rfl), hm]
      exact h.held k e hi
    · rw [hmade j (fun hc => by simp [(hf j hc).2] at hs) (fun hc => by simp [(hf' j hc).2] at hs)]
      exact h.held j e hs
  · rcases hother j e hj with ⟨-, rfl⟩ | ⟨-, -, hs⟩
    · exact h.fresh k e hi
    · exact h.fresh j e hs
  · rcases hother j e hj with ⟨rfl, rfl⟩ | ⟨hjk, -, hs⟩ <;> rcases hother j' e hj' with ⟨rfl, he⟩ | ⟨hjk', -, hs'⟩
    · rfl
    · exact absurd (h.apart j' k e hs' hi) hjk'
    · exact absurd (h.apart j k e hs (he ▸ hi)) hjk
    · exact h.apart j j' e hs hs'
  · intro hex
    obtain ⟨j, hj⟩ := hex
    by_cases hjk : j = k
    · subst hjk
      rw [hi] at hj
      exact ⟨k', by rw [Function.update_self, hj]⟩
    · have hjk' : j ≠ k' := by
        intro heq
        subst heq
        rw [hk'] at hj
        cases hj
      exact ⟨j, by rw [Function.update_of_ne hjk', Function.update_of_ne hjk, hj]⟩

end RdmaInfra.Slots
