/-
One `RdmaTransport` used again and again (`rdma_backend.cpp`): `listen`,
`accept`, `connect` and `close` in any order, every external call succeeding or
failing.

The object is its `rai_qp_t` and its listener, so its state is that of the
setup calls; in between, the `rai_qp_t` is zero or complete, which is what the
tests of `qp_.qp` rest on.
-/
import RdmaInfra.Lts
import RdmaInfra.Verbs.SetupSound

namespace RdmaInfra.Transport.RdmaReuse

open Fallible (read onlyIf Triple)
open Verbs.Setup

/-- What `connect` and `listen` do to an instance that was used before. -/
def reset : Fallible State Unit := do
  let used ← read fun s => s.qp.qp.isSome
  onlyIf used qpDestroy
  release .mrListenFd

/-- `host` is whether the host is not null. -/
def connect (host : Bool) (env : Env) : Fallible State Int :=
  if host then do
    reset
    cmConnectQp env
  else pure (-1)

def listen (env : Env) : Fallible State Int := do
  reset
  cmListenQp env true

def accept : Fallible State Int := cmAcceptQp

def close : Fallible State Unit := do
  qpDestroy
  release .mrListenFd

/-- A call, with what its external calls answer. -/
inductive Action
  | connect (host : Bool) (env : Env) (answers : List Bool)
  | listen (env : Env) (answers : List Bool)
  | accept (answers : List Bool)
  | close

/-- `accept` is only called where a listen made a connection id: it would
follow a null pointer otherwise. -/
def step : Action → State → Option State
  | .connect host env answers, s => some (connect host env { s with answers }).2
  | .listen env answers, s => some (listen env { s with answers }).2
  | .accept answers, s => if (s.slot .cmId).isSome then some (accept { s with answers }).2 else none
  | .close, s => some (close s).2

def system : Lts State Action where
  init s := ∃ answers, s = start .empty answers
  step := step

/-! ## Zero or complete -/

/-- Nothing is held and the `rai_qp_t` is zero. -/
def Idle (s : State) : Prop := Filled .empty [] s ∧ s.qp = .zero

/-- Between calls the transport is idle or has a complete `rai_qp_t`, with or
without the listener. -/
def Inv (s : State) : Prop := Idle s ∨ ∃ mr, Holds .empty .cm (cmHeld mr) s

variable {s s' : State} {R : State → Prop}

theorem Idle.holds (h : Idle s) : Holds .empty .cm [] s :=
  ⟨h.1, by rw [h.2]; rfl, by rw [h.2, h.1.slot_none List.not_mem_nil]; rfl⟩

theorem Idle.tear : Triple Idle qpDestroy (fun _ => Idle) R :=
  (qpDestroy_spec (by decide)).conseq (fun _ h => h.holds) (fun _ _ h => h) fun _ h => h

/-- The listener goes last. -/
theorem release_listener (mr : Bool) : Triple (fun s => Filled .empty (listener mr) s ∧ s.qp = .zero) (release .mrListenFd)
    (fun _ => Idle) R := by
  have hqp : Triple (fun s => s.qp = .zero) (release .mrListenFd) (fun _ s => s.qp = .zero) R :=
    Triple.modify fun s h => by split <;> exact h
  have hnil : (listener mr).filter (· != .mrListenFd) = [] := by cases mr <;> rfl
  have hrel : Triple (Filled .empty (listener mr)) (release .mrListenFd)
      (fun _ => Filled .empty ((listener mr).filter (· != .mrListenFd))) R :=
    triple_release fun k' _ => (socket_not_dep k').2
  rw [hnil] at hrel
  exact hrel.and hqp

theorem tear_complete (mr : Bool) : Triple (Holds .empty .cm (cmHeld mr)) qpDestroy
    (fun _ s => Filled .empty (listener mr) s ∧ s.qp = .zero) R := by
  have hl : (cmHeld mr).filter (· ∉ qpSlots) = listener mr := by cases mr <;> rfl
  rw [← hl]
  exact qpDestroy_spec (cmHeld_kept mr).1

theorem close_spec : Triple Inv close (fun _ => Idle) R := by
  refine Triple.or ?_ (Triple.exists fun mr => ?_)
  · exact Idle.tear.seq (release_listener false)
  · exact (tear_complete mr).seq (release_listener mr)

theorem reset_spec : Triple Inv reset (fun _ => Idle) R := by
  refine Triple.or ?_ (Triple.exists fun mr => ?_)
  · have hread : Triple Idle (read fun s => s.qp.qp.isSome) (fun _ => Idle) R := Triple.read fun _ h => h
    refine hread.bind fun used => ?_
    exact (Triple.onlyIf (fun _ => Idle.tear) fun _ _ h => h).seq (release_listener false)
  · have hread : Triple (Holds .empty .cm (cmHeld mr)) (read fun s => s.qp.qp.isSome)
        (fun used s => Holds .empty .cm (cmHeld mr) s ∧ used = true) R := by
      refine Triple.read fun s h => ⟨h, ?_⟩
      rw [h.named, h.filled]
      cases mr <;> decide
    refine hread.bind fun used => Triple.assume ?_
    intro heq
    subst heq
    exact (tear_complete mr).seq (release_listener mr)

/-! ## Every call -/

theorem inv_of_leaves {mr : Bool} {ret : Int} (h : Leaves .empty .cm (cmHeld mr) ret s) : Inv s :=
  h.elim (fun h => .inr ⟨mr, h.2⟩) fun h => .inl h.2

theorem connect_spec (host : Bool) (env : Env) : Triple Inv (connect host env) (fun _ => Inv) R := by
  refine Triple.ite (fun _ => ?_) fun _ => Triple.pure (Q := fun _ => Inv)
  refine reset_spec.seq ?_
  exact (cmConnectQp_spec env).conseq (fun _ h => h.holds) (fun _ _ h => inv_of_leaves h) fun _ h => h

theorem listen_spec (env : Env) : Triple Inv (listen env) (fun _ => Inv) R := by
  refine reset_spec.seq ?_
  exact (cmListenQp_spec env true).conseq (fun _ h => h.holds) (fun _ _ h => inv_of_leaves h) fun _ h => h

/-- An accept holds an event for a while, whatever comes of it. -/
theorem accept_spec (mr : Bool) : Triple (Holds .empty .cm (cmHeld mr)) accept (fun _ => Holds .empty .cm (cmHeld mr)) R := by
  have hready : Ready (cmHeld mr) .event := by cases mr <;> decide
  have hbody : Triple (Holds .empty .cm (cmHeld mr)) cmAcceptBody (fun _ => Holds .empty .cm (cmHeld mr))
      (Holds .empty .cm (cmHeld mr)) := by
    refine (Holds.require fun _ h => h).seq ?_
    refine Holds.ask.bind fun _ => ?_
    exact (cmWaitEvent_spec hready (by decide) fun _ h => h).seq (Holds.releaseLast hready (by decide))
  refine hbody.attempt.bind fun ok => ?_
  refine Triple.pure.conseq (fun s h => ?_) (fun _ _ h => h) fun _ h => h
  rwa [ite_self] at h

theorem Inv.answers (h : Inv s) (answers : List Bool) : Inv { s with answers } :=
  h.imp (fun h => ⟨⟨h.1.owns, h.1.filled⟩, h.2⟩) fun ⟨mr, h⟩ => ⟨mr, h.answers answers⟩

theorem step_inv {a : Action} (h : Inv s) (hs : step a s = some s') : Inv s' := by
  cases a with
  | connect host env answers =>
    cases hs
    obtain ⟨_, t, he, ht⟩ := (connect_spec host env).returns (h.answers answers)
    rw [he]
    exact ht
  | listen env answers =>
    cases hs
    obtain ⟨_, t, he, ht⟩ := (listen_spec env).returns (h.answers answers)
    rw [he]
    exact ht
  | accept answers =>
    simp only [step] at hs
    split at hs
    next hid =>
      cases hs
      rcases h with h | ⟨mr, h⟩
      · rw [h.1.slot_none List.not_mem_nil] at hid
        cases hid
      · obtain ⟨_, t, he, ht⟩ := (accept_spec mr).returns (h.answers answers)
        rw [he]
        exact .inr ⟨mr, ht⟩
    · cases hs
  | close =>
    cases hs
    obtain ⟨_, t, he, ht⟩ := close_spec.returns h
    rw [he]
    exact .inl ht

theorem reach_inv (h : system.Reach s) : Inv s := by
  refine Lts.Reach.inv (I := Inv) (fun s hs => ?_) (fun _ _ _ _ hi hs => step_inv hi hs) h
  obtain ⟨answers, rfl⟩ := hs
  exact .inl ⟨(start_holds Handles.empty_ok answers).toFilled, rfl⟩

theorem Inv.recorded (h : Inv s) : Recorded .empty s := by
  rcases h with h | ⟨mr, h⟩
  · exact h.1.recorded fun k hk => absurd hk List.not_mem_nil
  · exact h.toFilled.recorded (cmHeld_kept mr).2

/-- Whatever fails: a setup call that returns -1 has undone all it did, one that
returns 0 holds what it recorded, which `rai_qp_destroy` releases once however
often it is called; and a transport holds at any time what it records, of
which its destructor leaves nothing. -/
theorem setup_releases_once :
    (∀ (env : Env) (c : Call) (base : Handles) (answers : List Bool), base.Ok →
      ∃ ret s, call env c (start base answers) = (some ret, s) ∧
        (ret = -1 ∧ Undone base s ∨ ret = 0 ∧ Recorded base s ∧
          ∃ s', qpDestroy s = (some (), s') ∧ Destroyed base s s' ∧ qpDestroy s' = (some (), s'))) ∧
    ∀ s, system.Reach s → Recorded .empty s ∧ ∃ s', close s = (some (), s') ∧ Undone .empty s' := by
  refine ⟨fun env c base answers hb => call_settles env c hb answers, fun s hs => ?_⟩
  have hi := reach_inv hs
  obtain ⟨⟨⟩, s', he, h⟩ := close_spec.returns hi
  exact ⟨hi.recorded, s', he, h.1.undone h.2⟩

/-- A server whose `bind` of the listener fails after its queue pair is built,
and a transport that closes a second listen's queue pair, the first accept
having failed. -/
theorem setup_releases_once_late_failure :
    (∃ s, call ⟨220, 0, 17, ⟨fun _ => 0⟩, .zero⟩ (.cmListen true) (start .empty (List.replicate 10 true)) =
      (some (-1), s)) ∧
    (∃ ret s, call ⟨220, 0, 17, ⟨fun _ => 0⟩, .zero⟩ (.cmListen true) (start .empty (List.replicate 10 true)) =
      (some ret, s) ∧ (ret = -1 ∧ Undone .empty s ∨ ret = 0 ∧ Recorded .empty s ∧
        ∃ s', qpDestroy s = (some (), s') ∧ Destroyed .empty s s' ∧ qpDestroy s' = (some (), s'))) ∧
    ∃ s, system.Reach s ∧ s.qp.qp.isSome ∧ (s.slot .mrListenFd).isSome ∧
      Recorded .empty s ∧ ∃ s', close s = (some (), s') ∧ Undone .empty s' := by
  refine ⟨⟨_, rfl⟩, ?_, ?_⟩
  · exact setup_releases_once.1 _ (.cmListen true) .empty _ Handles.empty_ok
  · let listen : Action := .listen ⟨220, 0, 17, ⟨fun _ => 0⟩, .zero⟩ (List.replicate 20 true)
    have he : ∃ s, system.exec [listen, .accept [], listen] (start .empty []) = some s ∧
        s.qp.qp.isSome ∧ (s.slot .mrListenFd).isSome := ⟨_, rfl, rfl, rfl⟩
    obtain ⟨s, hs, hqp, hfd⟩ := he
    have hr : system.Reach s := Lts.Reach.exec (Lts.Reach.init ⟨[], rfl⟩) hs
    exact ⟨s, hr, hqp, hfd, setup_releases_once.2 s hr⟩

end RdmaInfra.Transport.RdmaReuse
