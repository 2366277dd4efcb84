/-
The slab outlives the operations on it.

`kv_bench` reads and writes the server's memory without the server's knowing,
and the server deregisters it as soon as `serve` returns. Nothing but the control
connection holds the two together: `serve` is in a receive while the client's
operations are in flight, and the client gives the connection up only after its
data transport. That rests on the order in which `main` declares the two, and it
has to hold where calls fail as well.

`KvCache.EndToEnd` has the same two programs with all their data, and where a run of
both ends; but there no connection fails under them, and an operation is done as
soon as it is asked for. Here any call may fail at any time, and an operation is in
flight from its post until the NIC carries it out. Of the programs only the order of
their calls is left: messages are whole, and the batches of `run_bench` of any size.
-/
import RdmaInfra.Lts

namespace RdmaInfra.KvCache.SlabLifetime

/-- `data bs p q`: in the operations, with the batches `bs` left, `p` posted and
`q` polled of the first. `unwind`: `main` is leaving, for a failed call or at its
end. `ctrlOpen`: the data transport is gone, the control connection is not. -/
inductive ClientPc
  | sendMeta
  | awaitMeta
  | exchange
  | sendAlloc
  | awaitAlloc
  | data (batches : List Nat) (posted polled : Nat)
  | sendFree
  | awaitFree
  | unwind
  | ctrlOpen
  | gone
  deriving DecidableEq, Repr

/-- `register`: after `handshake_meta`, before the slab is registered. `exchange`
and `exchanged`: in `exchange_buf`, before and after the slab's address is sent.
`leaving`: `main` is leaving with the slab registered. -/
inductive ServerPc
  | recvMeta
  | register
  | exchange
  | exchanged
  | serve
  | reply
  | leaving
  | gone
  deriving DecidableEq, Repr

inductive Request
  | handshake
  | slot
  deriving DecidableEq, Repr

/-- Both programs, and what is on its way between them: `req` and `rep` on the
control connection, `info` and `infoBack` in `exchange_buf`. `outstanding`
operations are with the NIC, `completions` wait to be polled. -/
structure State where
  client : ClientPc
  server : ServerPc
  req : Option Request
  rep : Option Request
  info : Bool
  infoBack : Bool
  outstanding : Nat
  completions : Nat
  deriving DecidableEq, Repr

/-- The slab is registered. -/
def ServerPc.registered : ServerPc → Bool
  | .exchange | .exchanged | .serve | .reply | .leaving => true
  | .recvMeta | .register | .gone => false

/-- The next step of `kv_bench`, whose operations come in `batches`. -/
def clientRun (batches : List Nat) (s : State) : Option State :=
  match s.client with
  | .sendMeta => some { s with client := .awaitMeta, req := some .handshake }
  | .awaitMeta => if s.rep = some .handshake then some { s with client := .exchange, rep := none } else none
  | .exchange => if s.info then some { s with client := .sendAlloc, info := false, infoBack := true } else none
  | .sendAlloc => some { s with client := .awaitAlloc, req := some .slot }
  | .awaitAlloc => if s.rep = some .slot then some { s with client := .data batches 0 0, rep := none } else none
  | .data [] _ _ => some { s with client := .sendFree }
  | .data (b :: bs) posted polled =>
    if posted < b then some { s with client := .data (b :: bs) (posted + 1) polled, outstanding := s.outstanding + 1 }
    else if polled < b then
      if 0 < s.completions then
        some { s with client := .data (b :: bs) posted (polled + 1), completions := s.completions - 1 }
      else none
    else some { s with client := .data bs 0 0 }
  | .sendFree => some { s with client := .awaitFree, req := some .slot }
  | .awaitFree => if s.rep = some .slot then some { s with client := .unwind, rep := none } else none
  | .unwind => some { s with client := .ctrlOpen, outstanding := 0, completions := 0 }
  | .ctrlOpen => some { s with client := .gone }
  | .gone => none

/-- A call or a check of `kv_bench` fails. -/
def clientFail (s : State) : Option State :=
  match s.client with
  | .unwind | .ctrlOpen | .gone => none
  | _ => some { s with client := .unwind }

/-- The next step of `kv_server`. -/
def serverRun (s : State) : Option State :=
  match s.server with
  | .recvMeta =>
    if s.req = some .handshake then some { s with server := .register, req := none, rep := some .handshake } else none
  | .register => some { s with server := .exchange }
  | .exchange => some { s with server := .exchanged, info := true }
  | .exchanged => if s.infoBack then some { s with server := .serve, infoBack := false } else none
  | .serve => if s.req = some .slot then some { s with server := .reply, req := none } else none
  | .reply => some { s with server := .serve, rep := some .slot }
  | .leaving => some { s with server := .gone }
  | .gone => none

/-- A call of `kv_server` fails. The receive of `serve` does only where the client
has closed the connection, and that is how it returns. -/
def serverFail (s : State) : Option State :=
  match s.server with
  | .recvMeta | .register => some { s with server := .gone }
  | .exchange | .exchanged | .reply => some { s with server := .leaving }
  | .serve => if s.client = .gone then some { s with server := .leaving } else none
  | .leaving | .gone => none

/-- The NIC carries out an operation. -/
def land (s : State) : Option State :=
  if 0 < s.outstanding then some { s with outstanding := s.outstanding - 1, completions := s.completions + 1 }
  else none

inductive Action
  | clientRun
  | clientFail
  | serverRun
  | serverFail
  | land
  deriving DecidableEq, Repr

def step (batches : List Nat) : Action → State → Option State
  | .clientRun, s => clientRun batches s
  | .clientFail, s => clientFail s
  | .serverRun, s => serverRun s
  | .serverFail, s => serverFail s
  | .land, s => land s

/-- Both transports connected. -/
def init : State := ⟨.sendMeta, .recvMeta, none, none, false, false, 0, 0⟩

def system (batches : List Nat) : Lts State Action where
  init s := s = init
  step := step batches

/-! ## What holds the two together -/

def ClientPc.isData : ClientPc → Bool
  | .data _ _ _ => true
  | _ => false

/-- Between two calls on the control connection nothing is on its way; in one, the
request is, or the server is at it, or the reply is; and `serve` waits while the
client is in its operations. -/
structure Inv (s : State) : Prop where
  busy : s.client.isData = true ∨ 0 < s.outstanding → s.server = .serve ∧ s.req = none ∧ s.rep = none
  inside : 0 < s.outstanding + s.completions → s.client.isData = true ∨ s.client = .unwind
  count : ∀ bs p q, s.client = .data bs p q → s.outstanding + s.completions + q = p ∧ p ≤ bs.headD 0
  between : s.client = .sendMeta ∨ s.client = .exchange ∨ s.client = .sendAlloc ∨ s.client = .sendFree →
    s.req = none ∧ s.rep = none ∧ s.server ≠ .reply
  greeting : s.client = .awaitMeta → s.req ≠ some .slot ∧ s.rep ≠ some .slot ∧
    (s.rep ≠ none → s.req = none) ∧ s.server ≠ .reply
  asking : s.client = .awaitAlloc ∨ s.client = .awaitFree → s.req ≠ some .handshake ∧
    (s.rep ≠ none → s.req = none ∧ s.server = .serve) ∧ (s.server = .reply → s.req = none ∧ s.rep = none)

theorem init_inv : Inv init := by
  constructor <;> simp [init, ClientPc.isData]

variable {batches : List Nat} {s s' : State}

/-- Outside the operations and `unwind` nothing is with the NIC. -/
theorem Inv.still (hi : Inv s) (hd : s.client.isData = false) (hu : s.client ≠ .unwind) :
    s.outstanding = 0 ∧ s.completions = 0 := by
  have hin : ¬ 0 < s.outstanding + s.completions := by
    intro ho
    rcases hi.inside ho with hc | hc
    · rw [hd] at hc
      cases hc
    · exact hu hc
  omega

/-- For a client that is leaving only the operations it left behind matter. -/
theorem Inv.leaving (hc : s.client = .unwind ∨ s.client = .ctrlOpen ∨ s.client = .gone)
    (hb : 0 < s.outstanding → s.server = .serve ∧ s.req = none ∧ s.rep = none)
    (hin : 0 < s.outstanding + s.completions → s.client = .unwind) : Inv s := by
  have hd : s.client.isData = false := by
    rcases hc with hc | hc | hc
    all_goals rw [hc]; rfl
  refine ⟨fun hb' => hb (by simpa [hd] using hb'), fun ho => .inr (hin ho), ?_, ?_, ?_, ?_⟩
  all_goals rcases hc with hc | hc | hc
  all_goals simp [hc]

/-- Away from `serve` the server is free to move: no operation is in flight, and no
reply is on its way. -/
theorem Inv.serverTo {v : ServerPc} {b b' : Bool} (hi : Inv s) (hs : s.server ≠ .serve) (hv : v ≠ .reply) :
    Inv { s with server := v, info := b, infoBack := b' } where
  busy hb := absurd (hi.busy hb).1 hs
  inside := hi.inside
  count := hi.count
  between hc := ⟨(hi.between hc).1, (hi.between hc).2.1, hv⟩
  greeting hc := ⟨(hi.greeting hc).1, (hi.greeting hc).2.1, (hi.greeting hc).2.2.1, hv⟩
  asking hc := ⟨(hi.asking hc).1, fun hr => absurd ((hi.asking hc).2.1 hr).2 hs, fun hr => absurd hr hv⟩

theorem serverFail_inv (hi : Inv s) (h : serverFail s = some s') : Inv s' := by
  cases hs : s.server with
  | serve =>
    -- The client is gone, and its operations with it.
    simp only [serverFail, hs, Option.ite_none_right_eq_some, Option.some.injEq] at h
    obtain ⟨hc, rfl⟩ := h
    have h0 := hi.still (by rw [hc]; rfl) (by rw [hc]; simp)
    exact Inv.leaving (.inr (.inr hc)) (by simp [h0]) (by simp [h0])
  | leaving | gone => simp [serverFail, hs] at h
  | recvMeta | register | exchange | exchanged | reply =>
    simp only [serverFail, hs, Option.some.injEq] at h
    subst h
    exact hi.serverTo (by simp [hs]) (by simp)

theorem serverRun_inv (hi : Inv s) (h : serverRun s = some s') : Inv s' := by
  cases hs : s.server with
  | recvMeta | serve =>
    simp only [serverRun, hs, Option.ite_none_right_eq_some, Option.some.injEq] at h
    obtain ⟨hq, rfl⟩ := h
    obtain ⟨busy, inside, count, between, greeting, asking⟩ := hi
    refine ⟨?_, inside, count, ?_, ?_, ?_⟩
    all_goals simp_all
  | reply =>
    simp only [serverRun, hs, Option.some.injEq] at h
    subst h
    obtain ⟨busy, inside, count, between, greeting, asking⟩ := hi
    refine ⟨?_, inside, count, ?_, ?_, ?_⟩
    all_goals simp_all
  | exchanged =>
    simp only [serverRun, hs, Option.ite_none_right_eq_some, Option.some.injEq] at h
    obtain ⟨-, rfl⟩ := h
    exact hi.serverTo (by simp [hs]) (by simp)
  | register | exchange | leaving =>
    simp only [serverRun, hs, Option.some.injEq] at h
    subst h
    exact hi.serverTo (by simp [hs]) (by simp)
  | gone => simp [serverRun, hs] at h

theorem clientFail_inv (hi : Inv s) (h : clientFail s = some s') : Inv s' := by
  have hs' : s' = { s with client := .unwind } := by
    unfold clientFail at h
    split at h
    all_goals cases h
    rfl
  subst hs'
  exact Inv.leaving (.inl rfl) (fun ho => hi.busy (.inr ho)) fun _ => rfl

theorem clientRun_inv (hi : Inv s) (h : clientRun batches s = some s') : Inv s' := by
  cases hc : s.client with
  | awaitMeta =>
    simp only [clientRun, hc, Option.ite_none_right_eq_some, Option.some.injEq] at h
    obtain ⟨hr, rfl⟩ := h
    have h0 := hi.still (by rw [hc]; rfl) (by simp [hc])
    obtain ⟨-, -, hq, hs⟩ := hi.greeting hc
    constructor <;> simp [ClientPc.isData, h0, hq (by simp [hr]), hs]
  | exchange =>
    simp only [clientRun, hc, Option.ite_none_right_eq_some, Option.some.injEq] at h
    obtain ⟨-, rfl⟩ := h
    have h0 := hi.still (by rw [hc]; rfl) (by simp [hc])
    have hb := hi.between (.inr (.inl hc))
    constructor <;> simp [ClientPc.isData, h0, hb]
  | sendMeta | sendAlloc | sendFree =>
    simp only [clientRun, hc, Option.some.injEq] at h
    subst h
    have h0 := hi.still (by rw [hc]; rfl) (by simp [hc])
    have hb := hi.between (by simp [hc])
    constructor <;> simp [ClientPc.isData, h0, hb]
  | awaitAlloc =>
    -- The reply is there, so `serve` is back in its receive.
    simp only [clientRun, hc, Option.ite_none_right_eq_some, Option.some.injEq] at h
    obtain ⟨hr, rfl⟩ := h
    have h0 := hi.still (by rw [hc]; rfl) (by simp [hc])
    have ha := (hi.asking (.inl hc)).2.1 (by simp [hr])
    constructor <;> simp [ClientPc.isData, h0, ha]
  | data bs p q =>
    obtain ⟨hs, hq, hr⟩ := hi.busy (.inl (by rw [hc]; rfl))
    obtain ⟨hsum, hp⟩ := hi.count bs p q hc
    cases bs with
    | nil =>
      simp only [clientRun, hc, Option.some.injEq] at h
      subst h
      simp only [List.headD_nil] at hp
      have ho : s.outstanding = 0 := by omega
      have hk : s.completions = 0 := by omega
      constructor <;> simp [ClientPc.isData, ho, hk, hs, hq, hr]
    | cons b bs =>
      simp only [clientRun, hc] at h
      simp only [List.headD_cons] at hp
      split at h
      · cases h
        constructor <;> simp [ClientPc.isData, hs, hq, hr]
        omega
      split at h
      · simp only [Option.ite_none_right_eq_some, Option.some.injEq] at h
        obtain ⟨hk, rfl⟩ := h
        constructor <;> simp [ClientPc.isData, hs, hq, hr]
        omega
      · -- All that was posted has been polled.
        cases h
        have ho : s.outstanding = 0 := by omega
        have hk : s.completions = 0 := by omega
        constructor <;> simp [ClientPc.isData, ho, hk, hs, hq, hr]
  | awaitFree =>
    simp only [clientRun, hc, Option.ite_none_right_eq_some, Option.some.injEq] at h
    obtain ⟨-, rfl⟩ := h
    have h0 := hi.still (by rw [hc]; rfl) (by simp [hc])
    exact Inv.leaving (.inl rfl) (by simp [h0]) fun _ => rfl
  | unwind =>
    simp only [clientRun, hc, Option.some.injEq] at h
    subst h
    exact Inv.leaving (.inr (.inl rfl)) (by simp) (by simp)
  | ctrlOpen =>
    simp only [clientRun, hc, Option.some.injEq] at h
    subst h
    have h0 := hi.still (by rw [hc]; rfl) (by simp [hc])
    exact Inv.leaving (.inr (.inr rfl)) (by simp [h0]) (by simp [h0])
  | gone => simp [clientRun, hc] at h

theorem land_inv (hi : Inv s) (h : land s = some s') : Inv s' := by
  simp only [land, Option.ite_none_right_eq_some, Option.some.injEq] at h
  obtain ⟨ho, rfl⟩ := h
  refine ⟨fun _ => hi.busy (.inr ho), fun _ => hi.inside (by omega), ?_, hi.between, hi.greeting, hi.asking⟩
  intro bs p q hd
  have := hi.count bs p q hd
  simp only
  omega

theorem step_inv {a : Action} (hi : Inv s) (h : step batches a s = some s') : Inv s' := by
  cases a with
  | clientRun => exact clientRun_inv hi h
  | clientFail => exact clientFail_inv hi h
  | serverRun => exact serverRun_inv hi h
  | serverFail => exact serverFail_inv hi h
  | land => exact land_inv hi h

theorem reach_inv (h : (system batches).Reach s) : Inv s := by
  refine h.inv (I := Inv) ?_ fun _ _ _ _ hi hs => step_inv hi hs
  rintro _ rfl
  exact init_inv

/-! ## The slab is there -/

/-- However the two programs and the NIC interleave, and whatever fails on either
side, the server's memory is registered for as long as an operation of the client
is in flight. -/
theorem slab_outlives_operations (h : (system batches).Reach s) (ho : 0 < s.outstanding) :
    s.server.registered = true := by
  obtain ⟨hs, _⟩ := (reach_inv h).busy (.inr ho)
  rw [hs]
  rfl

/-- Two writes in flight and the first landed when a poll fails: the server is in
`serve`, and stays there until the client has destroyed its queue pair. -/
def pollFails : List Action :=
  [.clientRun, .serverRun, .clientRun, .serverRun, .serverRun, .clientRun, .serverRun, .clientRun, .serverRun,
    .serverRun, .clientRun, .clientRun, .clientRun, .land, .clientFail]

def pollFailed : State := ⟨.unwind, .serve, none, none, false, false, 1, 1⟩

theorem pollFails_exec : (system [2]).exec pollFails init = some pollFailed := by decide

theorem slab_outlives_operations_poll_fails :
    0 < pollFailed.outstanding ∧ pollFailed.client = .unwind ∧ pollFailed.server.registered = true :=
  ⟨by decide, rfl, slab_outlives_operations ((Lts.Reach.init rfl).exec pollFails_exec) (by decide)⟩

end RdmaInfra.KvCache.SlabLifetime
