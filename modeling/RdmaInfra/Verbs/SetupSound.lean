/-
Connection setup leaks nothing and releases nothing twice, whichever calls
fail.

The assertion at every point of the functions is one: the handles held are
those of a list of filled variables (`Holds base ks`), beside what was held
before. A call adds its variable to the list or leaves it as it is, a release
takes one off, and the condition for either not to be a fault (`Ready`) is
about the list alone.
-/
import RdmaInfra.Verbs.Setup

namespace RdmaInfra.Verbs.Setup

open Fallible (leave modify read attempt onlyIf Triple)

/-- No variable of `ks` is `k` or is made from it. -/
def Ready (ks : List Slot) (k : Slot) : Prop := k ∉ ks ∧ ∀ k' ∈ ks, k ∉ dep k'

instance (ks : List Slot) (k : Slot) : Decidable (Ready ks k) := inferInstanceAs (Decidable (_ ∧ _))

/-- Exactly the variables of `ks` are filled, and nothing else is held beside
what `base` held. -/
structure Filled (base : Handles) (ks : List Slot) (s : State) : Prop where
  owns : Slots.Owns dep base s.os s.slot
  filled : ∀ k, (s.slot k).isSome = true ↔ k ∈ ks

/-- The same of a `rai_qp_t` in use: `qp->qp` is the queue pair it has. -/
structure Holds (base : Handles) (mode : Mode) (ks : List Slot) (s : State) : Prop extends Filled base ks s where
  mode : s.qp.mode = mode
  named : s.qp.qp = s.slot .qpObj

variable {base : Handles} {mode : Mode} {ks : List Slot} {k k' : Slot} {s : State} {R : State → Prop}

theorem not_dep_self (k : Slot) : k ∉ dep k := by cases k <;> decide

theorem Filled.slot_none (h : Filled base ks s) (hk : k ∉ ks) : s.slot k = none := by
  rw [← h.filled, Bool.not_eq_true, Option.isSome_eq_false_iff, Option.isNone_iff_eq_none] at hk
  exact hk

theorem Filled.free (h : Filled base ks s) (hk : ∀ k' ∈ ks, k ∉ dep k') : Slots.Free dep s.slot k := by
  intro k' hd
  refine ⟨?_, h.slot_none fun hm => hk k' hm hd⟩
  intro heq
  subst heq
  exact not_dep_self _ hd

theorem filled_update {slot : Slot → Option Nat} (h : ∀ k, (slot k).isSome = true ↔ k ∈ ks) (i : Nat) (j : Slot) :
    (Function.update slot k (some i) j).isSome = true ↔ j ∈ k :: ks := by
  by_cases hj : j = k
  · subst hj
    simp
  · rw [Function.update_of_ne hj, h, List.mem_cons, or_iff_right hj]

theorem filled_clear {slot : Slot → Option Nat} (h : ∀ k, (slot k).isSome = true ↔ k ∈ ks) (j : Slot) :
    (Function.update slot k none j).isSome = true ↔ j ∈ ks.filter (· != k) := by
  by_cases hj : j = k
  · subst hj
    simp
  · rw [Function.update_of_ne hj, h, List.mem_filter]
    simp [hj]

/-! ## External calls -/

theorem Holds.answers (h : Holds base mode ks s) (as : List Bool) : Holds base mode ks { s with answers := as } :=
  ⟨⟨h.owns, h.filled⟩, h.mode, h.named⟩

theorem Holds.ask : Triple (Holds base mode ks) ask (fun _ => Holds base mode ks) R := by
  intro s hs
  unfold Setup.ask
  cases ha : s.answers with
  | nil =>
    refine ⟨fun b s' he => ?_, fun s' he => ?_⟩ <;> cases he
    exact hs
  | cons b bs =>
    refine ⟨fun b s' he => ?_, fun s' he => ?_⟩ <;> cases he
    exact hs.answers bs

theorem Holds.leave {α : Type} {Q : α → State → Prop} (hR : ∀ s, Holds base mode ks s → R s) :
    Triple (Holds base mode ks) leave Q R :=
  Triple.leave.conseq hR (fun _ _ h => h) fun _ h => h

theorem Holds.pure : Triple (Holds base mode ks) (Pure.pure ()) (fun _ => Holds base mode ks) R :=
  Triple.pure (Q := fun _ => Holds base mode ks)

theorem Holds.require (hR : ∀ s, Holds base mode ks s → R s) :
    Triple (Holds base mode ks) require (fun _ => Holds base mode ks) R :=
  Holds.ask.bind fun _ => Triple.ite (fun _ => Holds.pure) fun _ => Holds.leave hR

theorem Filled.grant (h : Filled base ks s) (hk : Ready ks k) :
    Slots.Owns dep base (s.os.acquire (Slots.made dep s.slot k)) (Function.update s.slot k (some s.os.next)) :=
  h.owns.acquire (h.free hk.2) (h.slot_none hk.1)

theorem Holds.grant (hk : Ready ks k) (hq : k ≠ .qpObj) :
    Triple (Holds base mode ks) (grant k) (fun _ => Holds base mode (k :: ks)) R :=
  Triple.modify fun _ h => ⟨⟨h.toFilled.grant hk, filled_update h.filled _⟩, h.mode,
    h.named.trans (Function.update_of_ne (Ne.symm hq) _ _).symm⟩

theorem Holds.acquire (hk : Ready ks k) (hq : k ≠ .qpObj) (hR : ∀ s, Holds base mode ks s → R s) :
    Triple (Holds base mode ks) (acquire k) (fun _ => Holds base mode (k :: ks)) R :=
  (Holds.require hR).seq (Holds.grant hk hq)

theorem Holds.createQp (env : Env) (hk : Ready ks .qpObj) (hR : ∀ s, Holds base mode ks s → R s) :
    Triple (Holds base mode ks) (createQp env) (fun _ => Holds base mode (.qpObj :: ks)) R := by
  have hgrant : Triple (Holds base mode ks) (Setup.grant .qpObj)
      (fun _ s => Filled base (.qpObj :: ks) s ∧ s.qp.mode = mode) R :=
    Triple.modify fun _ h => ⟨⟨h.toFilled.grant hk, filled_update h.filled _⟩, h.mode⟩
  exact ((Holds.require hR).seq hgrant).seq (Triple.modify fun _ h => ⟨⟨h.1.owns, h.1.filled⟩, h.2, rfl⟩)

/-- A release through a variable that nothing filled is made from. -/
theorem Filled.release (h : Filled base ks s) (hk : ∀ k' ∈ ks, k ∉ dep k') :
    Filled base (ks.filter (· != k)) (match s.slot k with
      | some i => { s with slot := Function.update s.slot k none, os := s.os.release i }
      | none => s) := by
  split
  next i hi => exact ⟨h.owns.release (h.free hk) hi, filled_clear h.filled⟩
  next hn =>
    refine ⟨h.owns, fun j => ?_⟩
    rw [h.filled, List.mem_filter]
    refine (and_iff_left_of_imp fun hj => ?_).symm
    have hjk : j ≠ k := by
      intro heq
      subst heq
      rw [← h.filled, hn] at hj
      cases hj
    simpa using hjk

theorem Holds.release (hk : ∀ k' ∈ ks, k ∉ dep k') (hq : k ≠ .qpObj) :
    Triple (Holds base mode ks) (release k) (fun _ => Holds base mode (ks.filter (· != k))) R := by
  refine Triple.modify fun s h => ⟨h.toFilled.release hk, ?_, ?_⟩
  · split <;> exact h.mode
  · split
    · exact h.named.trans (Function.update_of_ne (Ne.symm hq) _ _).symm
    · exact h.named

theorem Holds.requireOr (hk : ∀ k' ∈ ks, k ∉ dep k') (hq : k ≠ .qpObj)
    (hR : ∀ s, Holds base mode (ks.filter (· != k)) s → R s) :
    Triple (Holds base mode ks) (requireOr k) (fun _ => Holds base mode ks) R :=
  Holds.ask.bind fun _ => Triple.ite (fun _ => Holds.pure) fun _ => (Holds.release hk hq).seq (Holds.leave hR)

theorem Holds.move (hd : dep k = dep k') (hk : k ∈ ks) (hf : ∀ j ∈ ks, k ∉ dep j) (hk' : Ready ks k')
    (hq : k ≠ .qpObj) (hq' : k' ≠ .qpObj) :
    Triple (Holds base mode ks) (move k k') (fun _ => Holds base mode (k' :: ks.filter (· != k))) R := by
  refine Triple.modify fun s h => ?_
  obtain ⟨i, hi⟩ := Option.isSome_iff_exists.mp ((h.filled k).mpr hk)
  simp only [hi]
  refine ⟨⟨?_, ?_⟩, h.mode, ?_⟩
  · exact h.owns.move hd (h.free hf) (h.free hk'.2) hi (h.slot_none hk'.1)
  · exact filled_update (filled_clear h.filled) i
  · rw [h.named]
    exact ((Function.update_of_ne (Ne.symm hq') _ _).trans (Function.update_of_ne (Ne.symm hq) _ _)).symm

/-- A change to the fields that hold no handle. -/
theorem Holds.setFields {f : QpFields → QpFields} (hm : ∀ q, (f q).mode = q.mode) (hq : ∀ q, (f q).qp = q.qp) :
    Triple (Holds base mode ks) (modify fun s => { s with qp := f s.qp }) (fun _ => Holds base mode ks) R :=
  Triple.modify fun s h => ⟨⟨h.owns, h.filled⟩, (hm s.qp).trans h.mode, (hq s.qp).trans h.named⟩

theorem Filled.congr {ks' : List Slot} (h : Filled base ks s) (he : ∀ k, k ∈ ks ↔ k ∈ ks') : Filled base ks' s :=
  ⟨h.owns, fun k => (h.filled k).trans (he k)⟩

/-! ## Teardown -/

/-- What `rai_qp_destroy` finds: the variables outside the `rai_qp_t` do not
depend on it, and those inside are the ones its mode releases. -/
def Tear (mode : Mode) (ks : List Slot) : Prop :=
  (∀ k ∈ ks, k ∈ qpSlots ∨ dep k = []) ∧
    match mode with
    | .cm => .ctx ∉ ks ∧ (.qpObj ∈ ks → .cmId ∈ ks)
    | .verbs => .cmId ∉ ks ∧ .ec ∉ ks

instance (mode : Mode) (ks : List Slot) : Decidable (Tear mode ks) := by
  unfold Tear
  cases mode <;> infer_instance

theorem triple_release (hk : ∀ k' ∈ ks, k ∉ dep k') :
    Triple (Filled base ks) (release k) (fun _ => Filled base (ks.filter (· != k))) R :=
  Triple.modify fun _ h => h.release hk

theorem triple_onlyIf_release {c : Bool} (hc : c = false → k ∉ ks) (hk : ∀ k' ∈ ks, k ∉ dep k') :
    Triple (Filled base ks) (onlyIf c (release k)) (fun _ => Filled base (ks.filter (· != k))) R :=
  Triple.onlyIf (fun _ => triple_release hk) fun hf s h => h.congr fun j => by
    have hj : j ∈ ks → j ≠ k := fun hm he => hc hf (he ▸ hm)
    simp only [List.mem_filter, bne_iff_ne, ne_eq]
    exact (and_iff_left_of_imp hj).symm

theorem not_dep_qpObj : ∀ k', Slot.qpObj ∉ dep k' := by intro k'; cases k' <;> decide

theorem eq_of_cq_dep {k' : Slot} (h : Slot.cq ∈ dep k') : k' = .qpObj := by
  revert h; cases k' <;> decide

theorem eq_of_pd_dep {k' : Slot} (h : Slot.pd ∈ dep k') : k' = .qpObj := by
  revert h; cases k' <;> decide

theorem eq_of_ctx_dep {k' : Slot} (h : Slot.ctx ∈ dep k') : k' = .pd ∨ k' = .cq := by
  revert h; cases k' <;> decide

theorem eq_of_cmId_dep {k' : Slot} (h : Slot.cmId ∈ dep k') : k' = .pd ∨ k' = .cq ∨ k' = .qpObj ∨ k' = .event := by
  revert h; cases k' <;> decide

theorem eq_of_ec_dep {k' : Slot} (h : Slot.ec ∈ dep k') : k' = .cmId ∨ k' ∉ qpSlots := by
  revert h; cases k' <;> decide

theorem qpDestroyCm_spec (ht : Tear .cm ks) :
    Triple (Holds base .cm ks) qpDestroyCm (fun _ => Filled base (ks.filter (· ∉ qpSlots))) R := by
  obtain ⟨hout, hctx, hid⟩ := ht
  have hdep : ∀ k' ∈ ks, k' ∉ qpSlots → dep k' = [] := fun k' hk' hn => (hout k' hk').resolve_left hn
  have hread : Triple (Holds base .cm ks) (read fun s => (s.slot .cmId).isSome)
      (fun id s => Filled base ks s ∧ (id = false → .qpObj ∉ ks)) R := by
    refine Triple.read fun s h => ⟨h.toFilled, fun hf hm => ?_⟩
    rw [(h.filled _).mpr (hid hm)] at hf
    cases hf
  refine hread.bind fun id => Triple.assume fun hid => ?_
  refine (triple_onlyIf_release hid fun k' _ => not_dep_qpObj k').seq ?_
  refine (triple_release fun k' hk' hd => ?_).seq ?_
  · simp [eq_of_cq_dep hd] at hk'
  refine (triple_release fun k' hk' hd => ?_).seq ?_
  · simp [eq_of_pd_dep hd] at hk'
  refine (triple_release fun k' hk' hd => ?_).seq ?_
  · rcases eq_of_cmId_dep hd with rfl | rfl | rfl | rfl
    · simp at hk'
    · simp at hk'
    · simp at hk'
    · have := hdep .event (by simpa using hk') (by decide)
      cases this
  refine (triple_release fun k' hk' hd => ?_).conseq (fun _ h => h) (fun _ s h => h.congr fun j => ?_) fun _ h => h
  · rcases eq_of_ec_dep hd with rfl | hn
    · simp at hk'
    · simp only [List.mem_filter] at hk'
      rw [hdep k' hk'.1.1.1.1 hn] at hd
      cases hd
  · simp only [List.mem_filter, qpSlots]
    cases j <;> simp
    exact hctx

theorem qpDestroyVerbs_spec (ht : Tear .verbs ks) :
    Triple (Holds base .verbs ks) qpDestroyVerbs (fun _ => Filled base (ks.filter (· ∉ qpSlots))) R := by
  obtain ⟨hout, hid, hec⟩ := ht
  have hread : Triple (Holds base .verbs ks) (read fun s => s.qp.qp.isSome)
      (fun qp s => Filled base ks s ∧ (qp = false → .qpObj ∉ ks)) R := by
    refine Triple.read fun s h => ⟨h.toFilled, fun hf hm => ?_⟩
    rw [h.named, (h.filled _).mpr hm] at hf
    cases hf
  refine hread.bind fun qp => Triple.assume fun hqp => ?_
  refine (triple_onlyIf_release hqp fun k' _ => not_dep_qpObj k').seq ?_
  refine (triple_release fun k' hk' hd => ?_).seq ?_
  · simp [eq_of_cq_dep hd] at hk'
  refine (triple_release fun k' hk' hd => ?_).seq ?_
  · simp [eq_of_pd_dep hd] at hk'
  refine (triple_release fun k' hk' hd => ?_).conseq (fun _ h => h) (fun _ s h => h.congr fun j => ?_) fun _ h => h
  · rcases eq_of_ctx_dep hd with rfl | rfl <;> simp at hk'
  · simp only [List.mem_filter, qpSlots]
    cases j <;> simp <;> first | exact hid | exact hec

theorem memsetQp_spec (hk : ∀ k ∈ ks, k ∉ qpSlots) :
    Triple (Filled base ks) memsetQp (fun _ s => Filled base ks s ∧ s.qp = .zero) R := by
  refine Triple.modify fun s h => ?_
  have hslot : (fun k => if k ∈ qpSlots then none else s.slot k) = s.slot := by
    funext k
    split
    next hm => exact (h.slot_none fun hc => hk k hc hm).symm
    · rfl
  simp only [hslot]
  exact ⟨⟨h.owns, h.filled⟩, trivial⟩

/-- `rai_qp_destroy` releases what the `rai_qp_t` has and nothing else. -/
theorem qpDestroy_spec (ht : Tear mode ks) :
    Triple (Holds base mode ks) qpDestroy
      (fun _ s => Filled base (ks.filter (· ∉ qpSlots)) s ∧ s.qp = .zero) R := by
  have hks : ∀ k ∈ ks.filter (· ∉ qpSlots), k ∉ qpSlots := fun k hk => by simpa using (List.mem_filter.mp hk).2
  have hread : Triple (Holds base mode ks) (read fun s => s.qp.mode == .verbs)
      (fun v s => Holds base mode ks s ∧ v = (mode == .verbs)) R :=
    Triple.read fun s h => ⟨h, by rw [h.mode]⟩
  refine hread.bind fun v => Triple.assume ?_
  intro heq
  subst heq
  cases mode with
  | cm => exact (qpDestroyCm_spec ht).seq (memsetQp_spec hks)
  | verbs => exact (qpDestroyVerbs_spec ht).seq (memsetQp_spec hks)

/-! ## The variable filled last -/

theorem Ready.cons (h : Ready ks k) : ∀ k' ∈ k :: ks, k ∉ dep k' := by
  intro k' hk'
  rcases List.mem_cons.mp hk' with rfl | hk'
  · exact not_dep_self _
  · exact h.2 k' hk'

theorem Ready.filter (h : Ready ks k) : ks.filter (· != k) = ks := by
  refine List.filter_eq_self.mpr fun j hj => ?_
  have hjk : j ≠ k := by
    intro heq
    subst heq
    exact h.1 hj
  simpa using hjk

theorem Ready.filter_cons (h : Ready ks k) : (k :: ks).filter (· != k) = ks := by
  rw [List.filter_cons_of_neg (by simp), h.filter]

theorem Holds.releaseLast (h : Ready ks k) (hq : k ≠ .qpObj) :
    Triple (Holds base mode (k :: ks)) (Setup.release k) (fun _ => Holds base mode ks) R := by
  have hr : Triple (Holds base mode (k :: ks)) (Setup.release k)
      (fun _ => Holds base mode ((k :: ks).filter (· != k))) R := Holds.release h.cons hq
  rwa [h.filter_cons] at hr

theorem Holds.releaseNull (h : Ready ks k) (hq : k ≠ .qpObj) :
    Triple (Holds base mode ks) (Setup.release k) (fun _ => Holds base mode ks) R := by
  have hr : Triple (Holds base mode ks) (Setup.release k) (fun _ => Holds base mode (ks.filter (· != k))) R :=
    Holds.release h.2 hq
  rwa [h.filter] at hr

theorem Holds.requireLast (h : Ready ks k) (hq : k ≠ .qpObj) (hR : ∀ s, Holds base mode ks s → R s) :
    Triple (Holds base mode (k :: ks)) (Setup.requireOr k) (fun _ => Holds base mode (k :: ks)) R :=
  Holds.requireOr h.cons hq (by rwa [h.filter_cons])

theorem Holds.moveLast (hd : dep k = dep k') (hne : k' ≠ k) (h : Ready ks k) (h' : Ready ks k') (hq : k ≠ .qpObj)
    (hq' : k' ≠ .qpObj) :
    Triple (Holds base mode (k :: ks)) (Setup.move k k') (fun _ => Holds base mode (k' :: ks)) R := by
  have hr : Ready (k :: ks) k' := by
    refine ⟨fun hm => ?_, fun j hj => ?_⟩
    · exact (List.mem_cons.mp hm).elim hne h'.1
    · rcases List.mem_cons.mp hj with rfl | hj
      · exact hd ▸ not_dep_self k'
      · exact h'.2 j hj
  have hm : Triple (Holds base mode (k :: ks)) (Setup.move k k')
      (fun _ => Holds base mode (k' :: (k :: ks).filter (· != k))) R :=
    Holds.move hd List.mem_cons_self h.cons hr hq hq'
  rwa [h.filter_cons] at hm

/-! ## The exchange over a socket -/

/-- `rai_oob_listen` into `k`. -/
theorem oobListen_spec (hk : dep k = []) (hne : k ≠ .fd) (hfd : Ready ks .fd) (hr : Ready ks k)
    (hR : ∀ s, Holds base mode ks s → R s) :
    Triple (Holds base mode ks) (oobListen k) (fun _ => Holds base mode (k :: ks)) R := by
  refine (Holds.acquire hfd (by decide) hR).seq ?_
  refine (Holds.requireLast hfd (by decide) hR).seq ?_
  refine (Holds.requireLast hfd (by decide) hR).seq ?_
  exact Holds.moveLast (by rw [hk]; rfl) hne hfd hr (by decide) (by rintro rfl; cases hk)

theorem recvRemote_spec (env : Env) :
    Triple (Holds base mode ks) (recvRemote env) (fun _ => Holds base mode ks) R :=
  Holds.setFields (f := fun q => { q with rem := env.remote }) (fun _ => rfl) fun _ => rfl

theorem oobAccept_spec (env : Env) (hr : Ready ks .connFd) (hR : ∀ s, Holds base mode ks s → R s) :
    Triple (Holds base mode ks) (oobAccept env) (fun _ => Holds base mode ks) R := by
  refine (Holds.acquire hr (by decide) hR).seq ?_
  refine (Holds.requireLast hr (by decide) hR).seq ?_
  refine (recvRemote_spec env).seq ?_
  refine (Holds.requireLast hr (by decide) hR).seq ?_
  exact Holds.releaseLast hr (by decide)

/-- The socket is there from its call on, and closed whether or not the rest
succeeds. -/
theorem oobConnect_spec (env : Env) (hr : Ready ks .connFd) (hR : ∀ s, Holds base mode ks s → R s) :
    Triple (Holds base mode ks) (oobConnect env) (fun _ => Holds base mode ks) R := by
  have hbody : Triple (Holds base mode ks) (oobConnectBody env) (fun _ => Holds base mode (.connFd :: ks))
      (fun s => Holds base mode ks s ∨ Holds base mode (.connFd :: ks) s) := by
    refine (Holds.require fun _ h => .inl h).seq ?_
    refine (Holds.acquire hr (by decide) fun _ h => .inl h).seq ?_
    refine (Holds.require fun _ h => .inr h).seq ?_
    refine (recvRemote_spec env).seq ?_
    refine (Holds.require fun _ h => .inr h).seq ?_
    exact Holds.require fun _ h => .inr h
  have hclose : ∀ ok : Bool, Triple (fun s => if ok = true then Holds base mode (.connFd :: ks) s
      else Holds base mode ks s ∨ Holds base mode (.connFd :: ks) s) (Setup.release .connFd)
      (fun _ => Holds base mode ks) R := by
    have hfull : Triple (Holds base mode (.connFd :: ks)) (Setup.release .connFd) (fun _ => Holds base mode ks) R :=
      Holds.releaseLast hr (by decide)
    rintro (_ | _)
    · simpa using (Holds.releaseNull hr (by decide)).or hfull
    · simpa using hfull
  refine hbody.attempt.bind fun ok => (hclose ok).seq ?_
  exact Triple.ite (fun _ => Holds.pure) fun _ => Holds.leave hR

/-! ## The CM path -/

theorem setMode_spec {mode' : Mode} : Triple (Holds base mode' ks) (setMode mode) (fun _ => Holds base mode ks) R :=
  Triple.modify fun _ h => ⟨⟨h.owns, h.filled⟩, rfl, h.named⟩

theorem buildQpFromCm_spec (env : Env) (hpd : Ready ks .pd) (hcq : Ready (.pd :: ks) .cq)
    (hqp : Ready (.cq :: .pd :: ks) .qpObj) (h0 : ∀ s, Holds base mode ks s → R s)
    (h1 : ∀ s, Holds base mode (.pd :: ks) s → R s) (h2 : ∀ s, Holds base mode (.cq :: .pd :: ks) s → R s) :
    Triple (Holds base mode ks) (buildQpFromCm env) (fun _ => Holds base mode (.qpObj :: .cq :: .pd :: ks)) R := by
  refine (Holds.acquire hpd (by decide) h0).seq ?_
  refine (Holds.acquire hcq (by decide) h1).seq ?_
  exact Holds.createQp env hqp h2

theorem cmWaitEvent_spec (hr : Ready ks k) (hq : k ≠ .qpObj) (hR : ∀ s, Holds base mode ks s → R s) :
    Triple (Holds base mode ks) (cmWaitEvent k) (fun _ => Holds base mode (k :: ks)) R :=
  (Holds.acquire hr hq hR).seq (Holds.requireLast hr hq hR)

/-- Beside its locals, a setup call has a `rai_qp_t` that can be torn down. -/
def Partial (mode : Mode) (locals ks : List Slot) : Prop :=
  Tear mode (ks.filter (· ∉ locals)) ∧ ∀ k ∈ ks.filter (· ∉ locals), k ∈ qpSlots

instance (mode : Mode) (locals ks : List Slot) : Decidable (Partial mode locals ks) :=
  inferInstanceAs (Decidable (_ ∧ _))

/-- Where a setup call may jump to `out`. -/
def Out (base : Handles) (mode : Mode) (locals : List Slot) (s : State) : Prop :=
  ∃ ks, Holds base mode ks s ∧ Partial mode locals ks

theorem Holds.out {locals : List Slot} (ht : Partial mode locals ks) (s : State) (h : Holds base mode ks s) :
    Out base mode locals s := ⟨ks, h, ht⟩

/-- The listener a caller asks for. -/
def listener (mr : Bool) : List Slot := if mr then [.mrListenFd] else []

/-- The variables that are filled after a successful `rai_cm_listen_qp`, before
its listening id is destroyed. -/
def cmListened (mr : Bool) : List Slot := listener mr ++ [.qpObj, .cq, .pd, .cmId, .listenId, .ec]

theorem cmListenBody_spec (env : Env) (mr : Bool) :
    Triple (Holds base mode []) (cmListenBody env mr) (fun _ => Holds base .cm (cmListened mr))
      (Out base .cm [.listenId]) := by
  refine setMode_spec.seq ?_
  refine (Holds.acquire (by decide) (by decide) (Holds.out (by decide))).seq ?_
  refine (Holds.acquire (by decide) (by decide) (Holds.out (by decide))).seq ?_
  refine (Holds.require (Holds.out (by decide))).seq ?_
  refine (Holds.require (Holds.out (by decide))).seq ?_
  refine (cmWaitEvent_spec (by decide) (by decide) (Holds.out (by decide))).seq ?_
  refine (Holds.grant (by decide) (by decide)).seq ?_
  have hid : dep .connId = dep .cmId := rfl
  refine (Holds.moveLast hid (by decide) (by decide) (by decide) (by decide) (by decide)).seq ?_
  refine (Holds.release (by decide) (by decide)).seq ?_
  refine (buildQpFromCm_spec env (by decide) (by decide) (by decide) (Holds.out (by decide))
    (Holds.out (by decide)) (Holds.out (by decide))).seq ?_
  refine Triple.onlyIf (fun hm => ?_) (fun hm s h => ?_)
  · subst hm
    exact oobListen_spec rfl (by decide) (by decide) (by decide) (Holds.out (by decide))
  · subst hm
    exact h

/-- The variables a `rai_qp_t` in CM mode and the caller's listener hold. -/
def cmHeld (mr : Bool) : List Slot := listener mr ++ [.qpObj, .cq, .pd, .cmId, .ec]

/-- What a setup call leaves: on 0 the variables `ks`, on -1 nothing. -/
def Leaves (base : Handles) (mode : Mode) (ks : List Slot) (ret : Int) (s : State) : Prop :=
  ret = 0 ∧ Holds base mode ks s ∨ ret = -1 ∧ Filled base [] s ∧ s.qp = .zero

theorem return_leaves : Triple (Holds base mode ks) (pure 0) (Leaves base mode ks) R :=
  Triple.pure.conseq (fun _ h => .inl ⟨rfl, h⟩) (fun _ _ h => h) fun _ h => h

/-- The end of a setup call that failed, with its locals released. -/
theorem destroy_leaves {ks' : List Slot} :
    Triple (Out base mode []) (do qpDestroy; pure (-1)) (Leaves base mode ks') R := by
  refine Triple.exists fun ks => Triple.assume fun ⟨ht, hk⟩ => ?_
  rw [List.filter_eq_self.mpr (by simp)] at ht hk
  refine (qpDestroy_spec ht).seq ?_
  have hnil : ks.filter (· ∉ qpSlots) = [] := List.filter_eq_nil_iff.mpr fun k hm => by simpa using hk k hm
  rw [hnil]
  exact Triple.pure.conseq (fun s h => .inr ⟨rfl, h⟩) (fun _ _ h => h) fun _ h => h

/-- The release of a local after `out`. -/
theorem release_out {locals : List Slot} (hd : ∀ k', k ∈ dep k' → k' ∉ qpSlots ∧ k' ∉ locals) (hq : k ≠ .qpObj) :
    Triple (Out base mode (k :: locals)) (release k) (fun _ => Out base mode locals) R := by
  refine Triple.exists fun ks => Triple.assume fun ⟨ht, hk⟩ => ?_
  have hrel : ∀ k' ∈ ks, k ∉ dep k' := by
    intro k' hk' hm
    have hne : k' ≠ k := by
      intro heq
      subst heq
      exact not_dep_self _ hm
    exact (hd k' hm).1 (hk k' (by simp [hk', hne, (hd k' hm).2]))
  have hfil : (ks.filter (· != k)).filter (· ∉ locals) = ks.filter (· ∉ k :: locals) := by
    rw [List.filter_filter]
    refine List.filter_congr fun j _ => ?_
    by_cases hj : j = k <;> simp [hj]
  refine (Holds.release hrel hq).conseq (fun _ h => h) (fun _ s h => ⟨_, h, ?_⟩) fun _ h => h
  rw [Partial, hfil]
  exact ⟨ht, hk⟩

theorem not_dep_listenId (k' : Slot) (h : Slot.listenId ∈ dep k') : k' ∉ qpSlots ∧ k' ∉ ([] : List Slot) := by
  revert h
  cases k' <;> decide

theorem cmListenQp_spec (env : Env) (mr : Bool) :
    Triple (Holds base mode []) (cmListenQp env mr) (Leaves base .cm (cmHeld mr)) R := by
  refine (cmListenBody_spec env mr).attempt.bind fun ok => ?_
  cases ok with
  | false =>
    simp only [Bool.false_eq_true, if_false]
    exact (release_out not_dep_listenId (by decide)).seq destroy_leaves
  | true =>
    simp only [if_true]
    refine (Holds.release (by cases mr <;> decide) (by decide)).seq ?_
    rw [show (cmListened mr).filter (· != .listenId) = cmHeld mr by cases mr <;> rfl]
    exact return_leaves

theorem cmConnectBody_spec (env : Env) :
    Triple (Holds base mode []) (cmConnectBody env) (fun _ => Holds base .cm (cmHeld false)) (Out base .cm []) := by
  refine setMode_spec.seq ?_
  refine (Holds.acquire (by decide) (by decide) (Holds.out (by decide))).seq ?_
  refine (Holds.acquire (by decide) (by decide) (Holds.out (by decide))).seq ?_
  refine (Holds.require (Holds.out (by decide))).seq ?_
  refine (Holds.require (Holds.out (by decide))).seq ?_
  refine (cmWaitEvent_spec (by decide) (by decide) (Holds.out (by decide))).seq ?_
  refine (Holds.releaseLast (by decide) (by decide)).seq ?_
  refine (Holds.require (Holds.out (by decide))).seq ?_
  refine (cmWaitEvent_spec (by decide) (by decide) (Holds.out (by decide))).seq ?_
  refine (Holds.releaseLast (by decide) (by decide)).seq ?_
  refine (buildQpFromCm_spec env (by decide) (by decide) (by decide) (Holds.out (by decide))
    (Holds.out (by decide)) (Holds.out (by decide))).seq ?_
  refine (Holds.require (Holds.out (by decide))).seq ?_
  refine (cmWaitEvent_spec (by decide) (by decide) (Holds.out (by decide))).seq ?_
  exact Holds.releaseLast (by decide) (by decide)

/-- A setup call whose `out` has no locals to release. -/
theorem attempt_leaves {body : Fallible State Unit} {mode' : Mode}
    (h : Triple (Holds base mode' []) body (fun _ => Holds base mode ks) (Out base mode [])) :
    Triple (Holds base mode' []) (do let ok ← attempt body; if ok then pure 0 else do qpDestroy; pure (-1))
      (Leaves base mode ks) R := by
  refine h.attempt.bind fun ok => ?_
  cases ok with
  | false => simpa using destroy_leaves
  | true => simpa using return_leaves

theorem cmConnectQp_spec (env : Env) :
    Triple (Holds base mode []) (cmConnectQp env) (Leaves base .cm (cmHeld false)) R :=
  attempt_leaves (cmConnectBody_spec env)

/-! ## The verbs path -/

theorem scanDevices_spec (want : Bool) (ds : List Device) (htmp : Ready ks .tmp) (hctx : Ready ks .ctx) :
    Triple (Holds base mode ks) (scanDevices want ds)
      (fun _ s => Holds base mode ks s ∨ Holds base mode (.ctx :: ks) s) R := by
  have hstop : ∀ s, Holds base mode ks s → Holds base mode ks s ∨ Holds base mode (.ctx :: ks) s := fun _ => .inl
  induction ds with
  | nil => exact Triple.pure.conseq hstop (fun _ _ h => h) fun _ h => h
  | cons d ds ih =>
    refine Triple.ite (fun _ => ih) fun _ => ?_
    refine (Holds.acquire (R := Holds base mode ks) htmp (by decide) fun _ h => h).attempt.bind fun opened => ?_
    have hskip : Triple (Holds base mode (.tmp :: ks)) (placeholder want d)
        (fun _ => Holds base mode (.tmp :: ks)) R :=
      Triple.ite (fun _ => Triple.pure (Q := fun _ => Holds base mode (.tmp :: ks))) fun _ =>
        Holds.ask.bind fun _ => Triple.pure (Q := fun _ => Holds base mode (.tmp :: ks))
    cases opened with
    | false => exact ih
    | true =>
      refine hskip.bind fun skip => Triple.ite (fun _ => ?_) fun _ => ?_
      · exact (Holds.releaseLast htmp (by decide)).seq ih
      · have hd : dep .tmp = dep .ctx := rfl
        exact (Holds.moveLast hd (by decide) htmp hctx (by decide) (by decide)).conseq (fun _ h => h)
          (fun _ _ h => .inr h) fun _ h => h

theorem Ready.cons_of {j : Slot} (h : Ready ks k) (hne : k ≠ j) (hd : k ∉ dep j) : Ready (j :: ks) k :=
  ⟨fun hm => (List.mem_cons.mp hm).elim hne h.1, fun i hi => (List.mem_cons.mp hi).elim (fun he => he ▸ hd) (h.2 i)⟩

theorem openDevice_spec (want : Bool) (ds : List Device) (hl : Ready ks .deviceList) (htmp : Ready ks .tmp)
    (hctx : Ready ks .ctx) (hR : ∀ s, Holds base mode ks s → R s) :
    Triple (Holds base mode ks) (openDevice want ds) (fun _ => Holds base mode (.ctx :: ks)) R := by
  refine (Holds.acquire hl (by decide) hR).seq ?_
  refine (scanDevices_spec want ds (htmp.cons_of (by decide) (by decide))
    (hctx.cons_of (by decide) (by decide))).seq ?_
  have hfull : Triple (Holds base mode (.ctx :: .deviceList :: ks)) (Setup.release .deviceList)
      (fun _ => Holds base mode (.ctx :: ks)) R := by
    have hd : ∀ k' ∈ .ctx :: .deviceList :: ks, Slot.deviceList ∉ dep k' := by
      intro k' hk'
      rcases List.mem_cons.mp hk' with rfl | hk'
      · decide
      · exact hl.cons k' hk'
    have hr : Triple (Holds base mode (.ctx :: .deviceList :: ks)) (Setup.release .deviceList)
      (fun _ => Holds base mode ((.ctx :: .deviceList :: ks).filter (· != .deviceList))) R :=
      Holds.release hd (by decide)
    rwa [List.filter_cons_of_pos (by decide), hl.filter_cons] at hr
  have hread : Triple (fun s => Holds base mode ks s ∨ Holds base mode (.ctx :: ks) s)
      (read fun s => (s.slot .ctx).isSome)
      (fun found s => if found then Holds base mode (.ctx :: ks) s else Holds base mode ks s) R := by
    refine Triple.read fun s h => ?_
    rcases h with h | h
    · simpa [h.slot_none hctx.1] using h
    · simpa [(h.filled .ctx).mpr List.mem_cons_self] using h
  have hclose : Triple (fun s => Holds base mode (.deviceList :: ks) s ∨ Holds base mode (.ctx :: .deviceList :: ks) s)
      (Setup.release .deviceList) (fun _ s => Holds base mode ks s ∨ Holds base mode (.ctx :: ks) s) R :=
    ((Holds.releaseLast hl (by decide)).conseq (fun _ h => h) (fun _ _ h => .inl h) fun _ h => h).or
      (hfull.conseq (fun _ h => h) (fun _ _ h => .inr h) fun _ h => h)
  refine hclose.seq (hread.bind fun found => ?_)
  cases found with
  | false => exact Holds.leave hR
  | true => exact Holds.pure

theorem buildQpVerbs_spec (env : Env) (want : Bool) (ds : List Device) (hk : ∀ k ∈ ks, k = .epFd ∨ k = .mrListenFd)
    (h0 : ∀ s, Holds base mode ks s → R s) (h1 : ∀ s, Holds base mode (.ctx :: ks) s → R s)
    (h2 : ∀ s, Holds base mode (.pd :: .ctx :: ks) s → R s)
    (h3 : ∀ s, Holds base mode (.cq :: .pd :: .ctx :: ks) s → R s)
    (h4 : ∀ s, Holds base mode (.qpObj :: .cq :: .pd :: .ctx :: ks) s → R s) :
    Triple (Holds base mode ks) (buildQpVerbs env want ds)
      (fun _ => Holds base mode (.qpObj :: .cq :: .pd :: .ctx :: ks)) R := by
  have hready : ∀ k, k ≠ .epFd → k ≠ .mrListenFd → Ready ks k := by
    intro k he hm
    refine ⟨fun hc => (hk k hc).elim he hm, fun k' hk' => ?_⟩
    rcases hk k' hk' with rfl | rfl <;> exact List.not_mem_nil
  refine (openDevice_spec want ds (hready _ (by decide) (by decide)) (hready _ (by decide) (by decide))
    (hready _ (by decide) (by decide)) h0).seq ?_
  refine (Holds.setFields (f := fun q =>
    { q with portNum := if q.portNum = 0 then 1 else q.portNum, gidIndex := env.gidIndex }) (fun _ => rfl)
    fun _ => rfl).seq ?_
  refine (Triple.onlyIf (fun _ => Holds.leave h1) fun _ _ h => h).seq ?_
  have hpd := (hready .pd (by decide) (by decide)).cons_of (j := .ctx) (by decide) (by decide)
  have hcq := ((hready .cq (by decide) (by decide)).cons_of (j := .ctx) (by decide) (by decide)).cons_of (j := .pd)
    (by decide) (by decide)
  have hqp := (((hready .qpObj (by decide) (by decide)).cons_of (j := .ctx) (by decide) (by decide)).cons_of (j := .pd)
    (by decide) (by decide)).cons_of (j := .cq) (by decide) (by decide)
  refine (Holds.acquire hpd (by decide) h1).seq ?_
  refine (Holds.acquire hcq (by decide) h2).seq ?_
  refine (Holds.createQp env hqp h3).seq ?_
  refine (Holds.setFields (f := fun q => { q with loc := { q.loc with qpn := env.qpn, psn := 0 } }) (fun _ => rfl)
    fun _ => rfl).seq ?_
  refine (Holds.require h4).seq ?_
  refine (Holds.setFields (f := fun q => { q with loc := { q.loc with gid := env.gid } }) (fun _ => rfl)
    fun _ => rfl).seq ?_
  exact Holds.require h4

theorem qpToRts_spec (hR : ∀ s, Holds base mode ks s → R s) :
    Triple (Holds base mode ks) qpToRts (fun _ => Holds base mode ks) R := by
  have hread : Triple (Holds base mode ks) (read fun s => s.qp.qp.isSome) (fun _ => Holds base mode ks) R :=
    Triple.read fun _ h => h
  refine hread.bind fun qp => ?_
  refine (Triple.onlyIf (fun _ => Holds.leave hR) fun _ _ h => h).seq ?_
  exact (Holds.require hR).seq ((Holds.require hR).seq (Holds.require hR))

theorem clearMr_spec (hk : .mrListenFd ∉ ks) :
    Triple (Holds base mode ks) clearMr (fun _ => Holds base mode ks) R := by
  refine Triple.modify fun s h => ?_
  have hslot : Function.update s.slot .mrListenFd none = s.slot := by
    rw [← h.slot_none hk, Function.update_eq_self]
  simp only [hslot]
  exact h

/-- The variables a `rai_qp_t` in VERBS mode holds, before the sockets `ks`. -/
def verbsHeld (ks : List Slot) : List Slot := .qpObj :: .cq :: .pd :: .ctx :: ks

theorem verbsListenBody_spec (env : Env) (want : Bool) (ds : List Device) (mr : Bool) :
    Triple (Holds base mode []) (verbsListenBody env want ds mr) (fun _ => Holds base .verbs (verbsHeld (listener mr ++ [.epFd])))
      (Out base .verbs (.epFd :: listener mr)) := by
  refine setMode_spec.seq ?_
  refine (Triple.onlyIf (fun _ => clearMr_spec (by decide)) fun _ _ h => h).seq ?_
  refine (oobListen_spec rfl (by decide) (by decide) (by decide) (Holds.out (by cases mr <;> decide))).seq ?_
  have hmr : Triple (Holds base .verbs [.epFd]) (onlyIf mr (oobListen .mrListenFd))
      (fun _ => Holds base .verbs (listener mr ++ [.epFd])) (Out base .verbs (.epFd :: listener mr)) := by
    refine Triple.onlyIf (fun hm => ?_) fun hm s h => ?_
    · subst hm
      exact oobListen_spec rfl (by decide) (by decide) (by decide) (Holds.out (by decide))
    · subst hm
      exact h
  refine hmr.seq ?_
  refine (buildQpVerbs_spec env want ds (by cases mr <;> decide) (Holds.out (by cases mr <;> decide))
    (Holds.out (by cases mr <;> decide)) (Holds.out (by cases mr <;> decide)) (Holds.out (by cases mr <;> decide))
    (Holds.out (by cases mr <;> decide))).seq ?_
  exact oobAccept_spec env (by cases mr <;> decide) (Holds.out (by cases mr <;> decide))

theorem socket_not_dep (k' : Slot) : Slot.epFd ∉ dep k' ∧ Slot.mrListenFd ∉ dep k' := by cases k' <;> decide

theorem verbsListenQp_spec (env : Env) (want : Bool) (ds : List Device) (mr : Bool) :
    Triple (Holds base mode []) (verbsListenQp env want ds mr)
      (Leaves base .verbs (verbsHeld (listener mr))) R := by
  refine (verbsListenBody_spec env want ds mr).attempt.bind fun ok => ?_
  cases ok with
  | false =>
    simp only [Bool.false_eq_true, if_false]
    refine (release_out (fun k' hd => absurd hd (socket_not_dep k').1) (by decide)).seq ?_
    have hmr : Triple (Out base .verbs (listener mr)) (onlyIf mr (release .mrListenFd))
        (fun _ => Out base .verbs []) R := by
      refine Triple.onlyIf (fun hm => ?_) fun hm s h => ?_
      · subst hm
        exact release_out (fun k' hd => absurd hd (socket_not_dep k').2) (by decide)
      · subst hm
        exact h
    exact hmr.seq destroy_leaves
  | true =>
    simp only [if_true]
    refine (Holds.release (by cases mr <;> decide) (by decide)).seq ?_
    rw [show (verbsHeld (listener mr ++ [.epFd])).filter (· != .epFd) = verbsHeld (listener mr) by
      cases mr <;> rfl]
    exact return_leaves

theorem verbsConnectBody_spec (env : Env) (want : Bool) (ds : List Device) :
    Triple (Holds base mode []) (verbsConnectBody env want ds) (fun _ => Holds base .verbs (verbsHeld []))
      (Out base .verbs []) := by
  refine setMode_spec.seq ?_
  refine (buildQpVerbs_spec env want ds (by decide) (Holds.out (by decide)) (Holds.out (by decide))
    (Holds.out (by decide)) (Holds.out (by decide)) (Holds.out (by decide))).seq ?_
  refine (oobConnect_spec env (by decide) (Holds.out (by decide))).seq ?_
  exact qpToRts_spec (Holds.out (by decide))

theorem verbsConnectQp_spec (env : Env) (want : Bool) (ds : List Device) :
    Triple (Holds base mode []) (verbsConnectQp env want ds) (Leaves base .verbs (verbsHeld [])) R :=
  attempt_leaves (verbsConnectBody_spec env want ds)

/-! ## The four calls -/

/-- The variables a successful call fills. -/
def Call.held : Call → List Slot
  | .cmListen mr => cmHeld mr
  | .cmConnect => cmHeld false
  | .verbsListen mr _ _ => verbsHeld (listener mr)
  | .verbsConnect _ _ => verbsHeld []

theorem call_spec (env : Env) (c : Call) :
    Triple (Holds base mode []) (call env c) (Leaves base c.mode c.held) R := by
  cases c with
  | cmListen mr => exact cmListenQp_spec env mr
  | cmConnect => exact cmConnectQp_spec env
  | verbsListen mr want ds => exact verbsListenQp_spec env want ds mr
  | verbsConnect want ds => exact verbsConnectQp_spec env want ds

/-- What is recorded of a successful call can be torn down. -/
def Kept (mode : Mode) (ks : List Slot) : Prop := Tear mode ks ∧ ∀ k ∈ ks, k ∈ qpSlots ∨ k = .mrListenFd

instance (mode : Mode) (ks : List Slot) : Decidable (Kept mode ks) := inferInstanceAs (Decidable (_ ∧ _))

theorem cmHeld_kept (mr : Bool) : Kept .cm (cmHeld mr) := by cases mr <;> decide

theorem verbsHeld_kept (mr : Bool) : Kept .verbs (verbsHeld (listener mr)) := by cases mr <;> decide

theorem held_kept (c : Call) : Kept c.mode c.held := by
  cases c with
  | cmListen mr => exact cmHeld_kept mr
  | cmConnect => exact cmHeld_kept false
  | verbsListen mr _ _ => exact verbsHeld_kept mr
  | verbsConnect _ _ => exact verbsHeld_kept false

/-- A zeroed `rai_qp_t`, no locals yet. -/
def start (base : Handles) (answers : List Bool) : State := ⟨fun _ => none, base, .zero, answers⟩

theorem start_holds (hb : base.Ok) (answers : List Bool) : Holds base .cm [] (start base answers) :=
  ⟨⟨Slots.owns_of_empty hb fun _ => rfl, fun _ => by simp [start]⟩, rfl, rfl⟩

/-- Every handle acquired was released exactly once and in order, what was held
before still is, `*qp` is all zero and no variable names anything. -/
structure Undone (base : Handles) (s : State) : Prop where
  clean : s.os.fault = false
  once : ∀ i, base.next ≤ i → i < s.os.next → s.os.released.count i = 1
  kept : ∀ x, x ∈ s.os.live ↔ x ∈ base.live
  zero : s.qp = .zero ∧ ∀ k, s.slot k = none

/-- Of the handles acquired, exactly those in `*qp` and `*mr_listen_fd` are
held, and the others were released exactly once and in order. -/
structure Recorded (base : Handles) (s : State) : Prop where
  clean : s.os.fault = false
  held : ∀ i, base.next ≤ i → (i ∈ s.os.ids ↔ ∃ k, (k ∈ qpSlots ∨ k = .mrListenFd) ∧ s.slot k = some i)
  once : ∀ i, base.next ≤ i → i < s.os.next → i ∉ s.os.ids → s.os.released.count i = 1
  kept : ∀ x ∈ base.live, x ∈ s.os.live

/-- What `rai_qp_destroy` makes of `s`: each handle in `*qp` was released
exactly once and in order, the others are as they were, and `*qp` is zero. -/
structure Destroyed (base : Handles) (s s' : State) : Prop where
  clean : s'.os.fault = false
  once : ∀ k ∈ qpSlots, ∀ i, s.slot k = some i → s'.os.released.count i = 1
  held : ∀ i, base.next ≤ i → (i ∈ s'.os.ids ↔ s.slot .mrListenFd = some i)
  kept : ∀ x ∈ base.live, x ∈ s'.os.live
  zero : s'.qp = .zero ∧ ∀ k ∈ qpSlots, s'.slot k = none

theorem Filled.mem_ids_iff (h : Filled base ks s) {i : Nat} (hi : base.next ≤ i) :
    i ∈ s.os.ids ↔ ∃ k, s.slot k = some i := by
  constructor
  · intro hm
    obtain ⟨x, hx, rfl⟩ := List.mem_map.mp hm
    exact (h.owns.exact x hx).resolve_left fun hb => absurd (h.owns.base_ok.lt x hb) (Nat.not_lt.mpr hi)
  · intro hex
    obtain ⟨k, hk⟩ := hex
    exact h.owns.toSound.mem_ids hk

theorem Filled.undone (h : Filled base [] s) (hz : s.qp = .zero) : Undone base s := by
  have hn : ∀ k, s.slot k = none := fun k => h.slot_none List.not_mem_nil
  refine ⟨h.owns.ok.clean, fun i hi hlt => ?_, fun x => h.owns.live_iff hn, hz, hn⟩
  have hm : i ∉ s.os.ids := by
    rw [h.mem_ids_iff hi]
    intro hex
    obtain ⟨k, hk⟩ := hex
    rw [hn] at hk
    cases hk
  rw [h.owns.ok.once i hlt, if_neg hm]

theorem Filled.recorded (h : Filled base ks s) (hk : ∀ k ∈ ks, k ∈ qpSlots ∨ k = .mrListenFd) : Recorded base s := by
  refine ⟨h.owns.ok.clean, fun i hi => ?_, fun i _ hlt hm => ?_, h.owns.kept⟩
  · rw [h.mem_ids_iff hi]
    constructor
    · intro hex
      obtain ⟨k, hs⟩ := hex
      exact ⟨k, hk k ((h.filled k).mp (by rw [hs]; rfl)), hs⟩
    · intro hex
      obtain ⟨k, -, hs⟩ := hex
      exact ⟨k, hs⟩
  · rw [h.owns.ok.once i hlt, if_neg hm]

/-! ## Destroying twice -/

/-- What the releases of the fields of a `rai_qp_t` and the `memset` keep,
`rai_qp_destroy` keeps. -/
theorem qpDestroy_inv {P : State → Prop} (hrel : ∀ k ∈ qpSlots, Triple P (release k) (fun _ => P) R)
    (hmem : Triple P memsetQp (fun _ => P) R) : Triple P qpDestroy (fun _ => P) R := by
  have hread : ∀ f : State → Bool, Triple P (read f) (fun _ => P) R := fun _ => Triple.read fun _ h => h
  have hif : ∀ c, Triple P (onlyIf c (release .qpObj)) (fun _ => P) R := fun _ =>
    Triple.onlyIf (fun _ => hrel _ (by decide)) fun _ _ h => h
  refine (hread _).bind fun verbs => Triple.ite (fun _ => ?_) fun _ => ?_
  · refine Triple.seq ((hread _).bind fun qp => ?_) hmem
    exact (hif _).seq ((hrel _ (by decide)).seq ((hrel _ (by decide)).seq (hrel _ (by decide))))
  · refine Triple.seq ((hread _).bind fun id => ?_) hmem
    exact (hif _).seq ((hrel _ (by decide)).seq ((hrel _ (by decide)).seq ((hrel _ (by decide)).seq
      (hrel _ (by decide)))))

/-- The caller's listener is not touched, and nothing is acquired. -/
theorem qpDestroy_keeps {v : Option Nat} {n : Nat} :
    Triple (fun s => s.slot .mrListenFd = v ∧ s.os.next = n) qpDestroy
      (fun _ s => s.slot .mrListenFd = v ∧ s.os.next = n) R := by
  refine qpDestroy_inv (fun k hk => Triple.modify fun s hs => ?_) (Triple.modify fun s hs => ?_)
  · have hne : Slot.mrListenFd ≠ k := by
      intro heq
      subst heq
      exact absurd hk (by decide)
    split
    · exact ⟨(Function.update_of_ne hne _ _).trans hs.1, hs.2⟩
    · exact hs
  · simpa [qpSlots] using hs

/-- On a zeroed `rai_qp_t` nothing happens. -/
theorem qpDestroy_zero (hz : s.qp = .zero) (hk : ∀ k ∈ qpSlots, s.slot k = none) : qpDestroy s = (some (), s) := by
  have hid : Triple (fun t => t = s) qpDestroy (fun _ t => t = s) fun _ => False := by
    refine qpDestroy_inv (fun k hm => Triple.modify ?_) (Triple.modify ?_)
    · rintro _ rfl
      rw [hk k hm]
    · rintro t rfl
      have hslot : (fun k => if k ∈ qpSlots then none else t.slot k) = t.slot := by
        funext k
        split
        next hm => exact (hk k hm).symm
        · rfl
      rw [hslot, ← hz]
  obtain ⟨⟨⟩, s', he, rfl⟩ := hid.returns rfl
  exact he

theorem Holds.destroyed (h : Holds base mode ks s) (hk : Kept mode ks) :
    ∃ s', qpDestroy s = (some (), s') ∧ Destroyed base s s' ∧ qpDestroy s' = (some (), s') := by
  obtain ⟨⟨⟩, s', he, ⟨hf, hz⟩, hs, hn⟩ := ((qpDestroy_spec hk.1).and qpDestroy_keeps).returns ⟨h, rfl, rfl⟩
  have hnone : ∀ k ∈ qpSlots, s'.slot k = none := fun k hm => hf.slot_none fun hc => by
    simpa [hm] using (List.mem_filter.mp hc).2
  have hids : ∀ i, base.next ≤ i → (i ∈ s'.os.ids ↔ s.slot .mrListenFd = some i) := by
    intro i hi
    rw [hf.mem_ids_iff hi]
    constructor
    · intro hex
      obtain ⟨k, hki⟩ := hex
      obtain ⟨hm, hnq⟩ := List.mem_filter.mp ((hf.filled k).mp (by rw [hki]; rfl))
      have hmr := (hk.2 k hm).resolve_left (by simpa using hnq)
      rw [← hs, ← hmr, hki]
    · intro hi
      exact ⟨_, hs.trans hi⟩
  refine ⟨s', he, ⟨hf.owns.ok.clean, fun k hm i hi => ?_, hids, hf.owns.kept, hz, hnone⟩, qpDestroy_zero hz hnone⟩
  have hlt : i < s'.os.next := hn ▸ h.owns.ok.id_lt (h.owns.toSound.mem_ids hi)
  have hout : i ∉ s'.os.ids := by
    rw [hids i (h.owns.fresh k i hi)]
    intro hmr
    rw [h.owns.apart k .mrListenFd i hi hmr] at hm
    exact absurd hm (by decide)
  rw [hf.owns.ok.once i hlt, if_neg hout]

/-- A setup call on a zeroed `rai_qp_t`, whatever fails: on -1 everything is
undone, on 0 what is held is recorded, and destroying it twice releases it
once. -/
theorem call_settles (env : Env) (c : Call) (hb : base.Ok) (answers : List Bool) :
    ∃ ret s, call env c (start base answers) = (some ret, s) ∧
      (ret = -1 ∧ Undone base s ∨ ret = 0 ∧ Recorded base s ∧
        ∃ s', qpDestroy s = (some (), s') ∧ Destroyed base s s' ∧ qpDestroy s' = (some (), s')) := by
  obtain ⟨ret, s, he, h⟩ := (call_spec env c).returns (start_holds hb answers)
  refine ⟨ret, s, he, ?_⟩
  rcases h with ⟨hr, h⟩ | ⟨hr, h, hz⟩
  · exact .inr ⟨hr, h.toFilled.recorded (held_kept c).2, h.destroyed (held_kept c)⟩
  · exact .inl ⟨hr, h.undone hz⟩

end RdmaInfra.Verbs.Setup
