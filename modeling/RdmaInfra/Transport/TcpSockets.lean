/-
The descriptors of a `TcpTransport`: `connect`, `listen`, `accept` and `close`
in any order on one object, every system call succeeding or failing.

The object names its descriptors in two fields. Three operations overwrite one
of them with whatever the system call gave, a descriptor or -1, and do not look
at what was there: a descriptor that was is then held by nobody. Closing is
always through a field, which is why nothing is ever closed twice.
-/
import RdmaInfra.Lts
import RdmaInfra.Slots

namespace RdmaInfra.Transport.TcpSockets

/-- The fields of the object, -1 as `none`, and the descriptors of the process. -/
structure State where
  fd : Option Nat
  listenFd : Option Nat
  isServer : Bool
  os : Handles
  deriving DecidableEq, Repr

inductive Field
  | fd
  | listenFd
  deriving DecidableEq, Repr

namespace State

def get (s : State) : Field → Option Nat
  | .fd => s.fd
  | .listenFd => s.listenFd

def set (s : State) (v : Option Nat) : Field → State
  | .fd => { s with fd := v }
  | .listenFd => { s with listenFd := v }

/-- `f = socket(...)` or `f = accept(...)`: the field takes the new descriptor,
or the -1 of a failed call. -/
def openInto (s : State) (f : Field) (ok : Bool) : State :=
  if ok then { s.set (some s.os.next) f with os := s.os.acquire [] } else s.set none f

/-- `::close(f); f = -1`, where `f >= 0`. -/
def closeIn (s : State) (f : Field) : State :=
  match s.get f with
  | some d => { s.set none f with os := s.os.release d }
  | none => s

end State

/-- A call, with what the system calls it makes answer. `host` is whether the
host is not null and parses. -/
inductive Call
  | connect (host socket connect : Bool)
  | listen (socket bind listen : Bool)
  | accept (accept : Bool)
  | close
  deriving DecidableEq, Repr

def connect (host socket connect : Bool) (s : State) : Int × State :=
  if !host then (-1, s)
  else
    let s := s.openInto .fd socket
    if !socket then (-1, s)
    else if !connect then (-1, s.closeIn .fd)
    else (0, { s with isServer := false })

def listen (socket bind listen : Bool) (s : State) : Int × State :=
  let s := s.openInto .listenFd socket
  if !socket then (-1, s)
  else if !bind then (-1, s.closeIn .listenFd)
  else if !listen then (-1, s.closeIn .listenFd)
  else (0, { s with isServer := true })

/-- Without a listener, `::accept` fails on descriptor -1. -/
def accept (accept : Bool) (s : State) : Int × State :=
  let ok := s.listenFd.isSome && accept
  (if ok then 0 else -1, s.openInto .fd ok)

def close (s : State) : State := (s.closeIn .fd).closeIn .listenFd

def call : Call → State → Int × State
  | .connect host sock conn, s => connect host sock conn s
  | .listen sock bnd lst, s => listen sock bnd lst s
  | .accept acc, s => accept acc s
  | .close, s => (0, close s)

/-- The constructor. -/
def init : State := ⟨none, none, false, .empty⟩

/-- The destructor. -/
def destroy (s : State) : State := close s

def system : Lts State Call where
  init s := s = init
  step c s := some (call c s).2

/-- Every descriptor the object ever opened was closed exactly once, and it
closed nothing else. -/
def ClosedOnce (s : State) : Prop :=
  s.os.fault = false ∧ ∀ d < s.os.next, s.os.released.count d = 1

/-- The call does not overwrite a descriptor: no connection is open where
`connect` gets past its host or `accept` is called, and no listener where
`listen` is. -/
def Clear (s : State) : Call → Prop
  | .connect host _ _ => host = true → s.fd = none
  | .listen _ _ _ => s.listenFd = none
  | .accept _ => s.fd = none
  | .close => True

/-! ## What the object holds -/

/-- The fields name distinct descriptors that are open. -/
structure Sound (s : State) : Prop where
  slots : Slots.Sound (fun _ => []) .empty s.os s.get
  plain : ∀ h ∈ s.os.live, h.deps = []

/-- Every open descriptor is in a field. -/
def Exact (s : State) : Prop := Slots.Exact .empty s.os s.get

variable {s : State} {f : Field}

theorem get_set {v : Option Nat} : (s.set v f).get = Function.update s.get f v := by
  funext g
  cases f <;> cases g <;> rfl

@[simp] theorem set_os {v : Option Nat} : (s.set v f).os = s.os := by cases f <;> rfl

theorem get_with_os {t : Handles} : ({ s with os := t } : State).get = s.get := by
  funext g
  cases g <;> rfl

theorem get_with_isServer {b : Bool} : ({ s with isServer := b } : State).get = s.get := by
  funext g
  cases g <;> rfl

theorem free {slot : Field → Option Nat} : Slots.Free (fun _ => []) slot f := fun _ hk => absurd hk List.not_mem_nil

/-! ## The three ways a field changes -/

theorem Sound.openInto (h : Sound s) (ok : Bool) : Sound (s.openInto f ok) := by
  cases ok with
  | false =>
    refine ⟨?_, ?_⟩
    · simp only [State.openInto, Bool.false_eq_true, if_false, get_set, set_os]
      exact h.slots.clear free
    · simpa [State.openInto] using h.plain
  | true =>
    refine ⟨?_, ?_⟩
    · simp only [State.openInto, if_true, get_with_os, get_set]
      exact h.slots.acquire free
    · intro x hx
      rcases List.mem_cons.mp hx with rfl | hx
      · rfl
      · exact h.plain x hx

/-- What a field held before it is overwritten is lost. -/
theorem exact_openInto (h : Sound s) (ok : Bool) : Exact (s.openInto f ok) ↔ Exact s ∧ s.get f = none := by
  cases ok with
  | false =>
    simp only [Exact, State.openInto, Bool.false_eq_true, if_false, get_set, set_os]
    exact h.slots.exact_clear
  | true =>
    simp only [Exact, State.openInto, if_true, get_with_os, get_set]
    exact h.slots.exact_acquire

theorem Sound.closeIn (h : Sound s) : Sound (s.closeIn f) := by
  unfold State.closeIn
  split
  next d hd =>
    refine ⟨?_, fun x hx => h.plain x (List.mem_filter.mp hx).1⟩
    simp only [get_with_os, get_set]
    exact h.slots.release free hd fun x hx => by simp [h.plain x hx]
  · exact h

theorem exact_closeIn : Exact (s.closeIn f) ↔ Exact s := by
  unfold State.closeIn
  split
  next d hd =>
    simp only [Exact, get_with_os, get_set]
    exact Slots.exact_release hd
  · exact Iff.rfl

theorem get_closeIn : (s.closeIn f).get = Function.update s.get f none := by
  unfold State.closeIn
  split
  · rw [get_with_os, get_set]
  next hn => rw [← hn, Function.update_eq_self]

theorem Sound.setIsServer (h : Sound s) (b : Bool) : Sound { s with isServer := b } :=
  ⟨by rw [get_with_isServer]; exact h.slots, h.plain⟩

theorem exact_setIsServer {b : Bool} : Exact { s with isServer := b } ↔ Exact s := by
  simp only [Exact, get_with_isServer]

/-! ## Every call -/

theorem Sound.call (h : Sound s) (c : Call) : Sound (call c s).2 := by
  cases c with
  | connect host socket connect =>
    cases host with
    | false => exact h
    | true =>
      have ho := h.openInto (f := .fd) socket
      cases socket <;> cases connect
      · exact ho
      · exact ho
      · exact ho.closeIn (f := .fd)
      · exact ho.setIsServer _
  | listen socket bind listen =>
    have ho := h.openInto (f := .listenFd) socket
    cases socket <;> cases bind <;> cases listen
    · exact ho
    · exact ho
    · exact ho
    · exact ho
    · exact ho.closeIn (f := .listenFd)
    · exact ho.closeIn (f := .listenFd)
    · exact ho.closeIn (f := .listenFd)
    · exact ho.setIsServer _
  | accept accept => exact h.openInto _
  | close => exact h.closeIn.closeIn

theorem exact_call (h : Sound s) (c : Call) : Exact (call c s).2 ↔ Exact s ∧ Clear s c := by
  cases c with
  | connect host socket connect =>
    cases host with
    | false => simp [TcpSockets.call, TcpSockets.connect, Clear]
    | true =>
      have he := exact_openInto (f := .fd) h socket
      simp only [Clear, forall_const]
      refine Iff.trans ?_ he
      cases socket <;> cases connect
      · exact Iff.rfl
      · exact Iff.rfl
      · exact exact_closeIn (f := .fd)
      · exact exact_setIsServer
  | listen socket bind listen =>
    refine Iff.trans ?_ (exact_openInto (f := .listenFd) h socket)
    cases socket <;> cases bind <;> cases listen
    · exact Iff.rfl
    · exact Iff.rfl
    · exact Iff.rfl
    · exact Iff.rfl
    · exact exact_closeIn (f := .listenFd)
    · exact exact_closeIn (f := .listenFd)
    · exact exact_closeIn (f := .listenFd)
    · exact exact_setIsServer
  | accept accept => exact exact_openInto h _
  | close =>
    simp only [TcpSockets.call, close, Clear, and_true]
    rw [exact_closeIn, exact_closeIn]

theorem get_init : init.get f = none := by cases f <;> rfl

theorem init_sound : Sound init where
  slots := Slots.sound_of_empty Handles.empty_ok fun _ => get_init
  plain := fun _ hx => absurd hx List.not_mem_nil

theorem init_exact : Exact init := fun _ hx => absurd hx List.not_mem_nil

/-! ## The destructor -/

theorem get_destroy : (destroy s).get f = none := by
  cases f <;> simp [destroy, close, get_closeIn]

theorem destroy_closedOnce (h : Sound s) : ClosedOnce (destroy s) ↔ Exact s := by
  have hs : Sound (destroy s) := h.closeIn.closeIn
  have he : Exact (destroy s) ↔ Exact s := by
    rw [show destroy s = (s.closeIn .fd).closeIn .listenFd from rfl, exact_closeIn, exact_closeIn]
  rw [← he]
  constructor
  · rintro ⟨-, hone⟩ x hx
    have hm : x.id ∈ (destroy s).os.ids := List.mem_map_of_mem hx
    have hd := hone x.id (hs.slots.ok.id_lt hm)
    rw [hs.slots.ok.once x.id (hs.slots.ok.id_lt hm), if_pos hm] at hd
    cases hd
  · intro hex
    have hlive : (destroy s).os.live = [] := by
      refine List.eq_nil_iff_forall_not_mem.mpr fun x hx => ?_
      rcases hex x hx with hx | ⟨f, hf⟩
      · cases hx
      · rw [get_destroy] at hf
        cases hf
    exact ⟨hs.slots.ok.clean, fun d hd => hs.slots.ok.released_once hlive hd⟩

/-- After any calls with any outcomes, the destructor leaves every descriptor
closed exactly once if and only if no call overwrote an open one. -/
theorem destroy_closes_iff (cs : List Call) (s : State) (h : system.exec cs init = some s) :
    ClosedOnce (destroy s) ↔ system.Along Clear cs init := by
  have hstep : ∀ s c s', Sound s → system.step c s = some s' → Sound s' := by
    intro s c s' hs hst
    cases hst
    exact hs.call c
  have hex : ∀ s c s', Sound s → system.step c s = some s' → (Exact s' ↔ Exact s ∧ Clear s c) := by
    intro s c s' hs hst
    cases hst
    exact exact_call hs c
  rw [destroy_closedOnce (Lts.exec_inv hstep init_sound h), Lts.exec_iff_along hstep hex init_sound h]
  simp only [init_exact, true_and]

/-- A server that is reused as a client after a `close`, with failures on the
way. -/
theorem destroy_closes_iff_reuse :
    system.exec [.listen true false true, .listen true true true, .accept true, .close, .connect true true true] init =
      some ⟨some 3, none, false, ⟨4, [⟨3, []⟩], [1, 2, 0], false⟩⟩ ∧
    ClosedOnce (destroy ⟨some 3, none, false, ⟨4, [⟨3, []⟩], [1, 2, 0], false⟩⟩) := by
  have hrun : system.exec
      [.listen true false true, .listen true true true, .accept true, .close, .connect true true true] init =
      some ⟨some 3, none, false, ⟨4, [⟨3, []⟩], [1, 2, 0], false⟩⟩ := rfl
  refine ⟨hrun, (destroy_closes_iff _ _ hrun).mpr ?_⟩
  simp [Lts.Along, system, Clear, call, listen, accept, close, State.openInto, State.closeIn, State.get, State.set, init]

/-- A transport that connects twice: the first connection is never closed. -/
theorem reconnect_leaks :
    system.exec [.connect true true true, .connect true true true] init =
      some ⟨some 1, none, false, ⟨2, [⟨1, []⟩, ⟨0, []⟩], [], false⟩⟩ ∧
    ¬ClosedOnce (destroy ⟨some 1, none, false, ⟨2, [⟨1, []⟩, ⟨0, []⟩], [], false⟩⟩) := by
  refine ⟨rfl, fun h => ?_⟩
  have h0 := h.2 0 (by decide)
  revert h0
  decide

end RdmaInfra.Transport.TcpSockets
