/-
Lifetimes through the Python binding (`transport_py.cpp`): the memory of a
registered buffer, its memory region, and the protection domain the region was
registered with.

A Python program drops its references in any order, and a `RegisteredBuffer`
whose last reference is gone is destroyed in three steps: its members in
reverse order of declaration, `source` and then `sb`, and last the reference to
the transport that `keep_alive<0, 1>` added. Between them other code may run,
the finalizer of the source for one, so each is an action of its own.
-/
import Mathlib.Logic.Function.Basic
import RdmaInfra.Lts

namespace RdmaInfra.Transport.Lifetimes

/-- A `RegisteredBuffer`: whether the program has a reference to it, whether its
members `source` and `sb` are still there (the latter with its region
registered), and whether it keeps its transport alive. -/
structure Buffer where
  transport : Nat
  src : Nat
  pd : Nat
  referenced : Bool
  source : Bool
  registered : Bool
  keepAlive : Bool
  deriving DecidableEq, Repr

/-- A `Transport` made by `create_rdma`, with the protection domain of its
`rai_qp_t`. -/
structure Conn where
  pd : Option Nat
  referenced : Bool
  deriving DecidableEq, Repr

/-- `source o` is whether the program has a reference to object `o` of its own;
`fault` whether `ibv_dealloc_pd` was ever called on a domain that still had a
region. -/
structure State where
  conn : Nat → Option Conn
  conns : Nat
  buf : Nat → Option Buffer
  bufs : Nat
  source : Nat → Bool
  nextPd : Nat
  fault : Bool

/-- Some buffer satisfies `p`. -/
def State.anyBuf (s : State) (p : Buffer → Bool) : Bool := (List.range s.bufs).any fun r => (s.buf r).any p

/-- `rai_qp_destroy` of a transport with domain `pd`. -/
def State.dealloc (s : State) (pd : Option Nat) : Bool :=
  match pd with
  | some p => s.anyBuf fun b => b.registered && b.pd == p
  | none => false

/-- The transport `t` of which the program has a reference. -/
def State.called (s : State) (t : Nat) : Option Conn := (s.conn t).filter Conn.referenced

/-- `qp_` is destroyed, and set up again where `ok`. -/
def State.reconnect (s : State) (t : Nat) (c : Conn) (ok : Bool) : State :=
  { s with
    conn := Function.update s.conn t (some { c with pd := if ok then some s.nextPd else none })
    nextPd := s.nextPd + 1
    fault := s.fault || s.dealloc c.pd }

def State.setBuf (s : State) (r : Nat) (b : Buffer) : State := { s with buf := Function.update s.buf r (some b) }

/-- What the program does, and the steps of a destruction. `ok` is whether the
external calls succeed, `host` whether the host is not null. -/
inductive Action
  | createRdma
  | listen (t : Nat) (ok : Bool)
  | accept (t : Nat)
  | connect (t : Nat) (host ok : Bool)
  | close (t : Nat)
  | regBuf (t o : Nat) (ok : Bool)
  | dropTransport (t : Nat)
  | dropBuffer (r : Nat)
  | dropSource (o : Nat)
  | destroySource (r : Nat)
  | destroyScoped (r : Nat)
  | clearPatients (r : Nat)
  | destroyTransport (t : Nat)
  deriving DecidableEq, Repr

/-- `reg_buf` and `reg_tensor` register with the domain of a transport that has
one, and raise an exception otherwise. -/
def regBuf (t o : Nat) (ok : Bool) (s : State) : Option State :=
  match s.called t with
  | some c =>
    if s.source o then
      match c.pd, ok with
      | some p, true =>
        some { s.setBuf s.bufs ⟨t, o, p, true, true, true, true⟩ with bufs := s.bufs + 1 }
      | _, _ => some s
    else none
  | none => none

def step : Action → State → Option State
  | .createRdma, s =>
    some { s with conn := Function.update s.conn s.conns (some ⟨none, true⟩), conns := s.conns + 1 }
  | .listen t ok, s => (s.called t).map fun c => s.reconnect t c ok
  | .accept t, s => (s.called t).map fun _ => s
  | .connect t host ok, s => (s.called t).map fun c => if host then s.reconnect t c ok else s
  | .close t, s => (s.called t).map fun c => s.reconnect t c false
  | .regBuf t o ok, s => regBuf t o ok s
  | .dropTransport t, s =>
    (s.called t).map fun c => { s with conn := Function.update s.conn t (some { c with referenced := false }) }
  | .dropBuffer r, s =>
    ((s.buf r).filter fun b => b.referenced).map fun b => s.setBuf r { b with referenced := false }
  | .dropSource o, s => if s.source o then some { s with source := Function.update s.source o false } else none
  | .destroySource r, s =>
    ((s.buf r).filter fun b => !b.referenced && b.source).map fun b => s.setBuf r { b with source := false }
  | .destroyScoped r, s =>
    ((s.buf r).filter fun b => !b.referenced && !b.source && b.registered).map fun b =>
      s.setBuf r { b with registered := false }
  | .clearPatients r, s =>
    ((s.buf r).filter fun b => !b.referenced && !b.source && !b.registered && b.keepAlive).map fun b =>
      s.setBuf r { b with keepAlive := false }
  | .destroyTransport t, s =>
    ((s.conn t).filter fun c => !c.referenced && !s.anyBuf fun b => b.keepAlive && b.transport == t).map fun c =>
      { s.reconnect t c false with conn := Function.update s.conn t none }

/-- No transport and no buffer yet; the program has every object it will ever
register. -/
def init : State := ⟨fun _ => none, 0, fun _ => none, 0, fun _ => true, 0, false⟩

def system : Lts State Action where
  init s := s = init
  step := step

/-- Object `o` is still referenced, by the program or by a buffer. -/
def State.Referenced (s : State) (o : Nat) : Prop :=
  s.source o = true ∨ ∃ r b, s.buf r = some b ∧ b.source = true ∧ b.src = o

/-- The source of every registered region is still referenced, and no domain was
deallocated under a region. -/
def Nested (s : State) : Prop :=
  (∀ r b, s.buf r = some b → b.registered = true → s.Referenced b.src) ∧ s.fault = false

/-- No region is registered with the domain of transport `t`. -/
def NoRegions (s : State) (t : Nat) : Prop :=
  ∀ c p, s.conn t = some c → c.pd = some p → ∀ r b, s.buf r = some b → b.registered = true → b.pd ≠ p

/-- A buffer's `source` is destroyed only while its object has another
reference; the program drops an object only if no region of it is left to a
buffer that is being destroyed, or another buffer still has it; and a transport
that has a connection is closed or connected anew only when no region is
registered with it. -/
def Careful (s : State) : Action → Prop
  | .destroySource r => ∀ b, s.buf r = some b →
      s.source b.src = true ∨ ∃ r' b', r' ≠ r ∧ s.buf r' = some b' ∧ b'.source = true ∧ b'.src = b.src
  | .dropSource o => ∀ r b, s.buf r = some b → b.registered = true → b.source = false → b.src = o →
      ∃ r' b', s.buf r' = some b' ∧ b'.source = true ∧ b'.src = o
  | .listen t _ | .close t => NoRegions s t
  | .connect t host _ => host = true → NoRegions s t
  | _ => True

/-! ## Well-formed states -/

structure Ok (s : State) : Prop where
  buf_lt : ∀ r b, s.buf r = some b → r < s.bufs
  conn_lt : ∀ t c, s.conn t = some c → t < s.conns
  pd_lt : ∀ t c p, s.conn t = some c → c.pd = some p → p < s.nextPd
  buf_pd_lt : ∀ r b, s.buf r = some b → b.pd < s.nextPd
  pd_inj : ∀ t t' c c' p, s.conn t = some c → s.conn t' = some c' → c.pd = some p → c'.pd = some p → t = t'
  owner : ∀ r b t c, s.buf r = some b → s.conn t = some c → c.pd = some b.pd → b.transport = t
  keep : ∀ r b, s.buf r = some b → b.registered = true → b.keepAlive = true
  source_registered : ∀ r b, s.buf r = some b → b.source = true → b.registered = true

variable {s s' : State} {t r o : Nat} {b b' : Buffer} {c : Conn} {a : Action}

theorem update_eq_some {α : Type} {f : Nat → Option α} {i j : Nat} {v : Option α} {x : α}
    (h : Function.update f i v j = some x) : j = i ∧ v = some x ∨ j ≠ i ∧ f j = some x := by
  by_cases hj : j = i
  · subst hj
    exact .inl ⟨rfl, by rwa [Function.update_self] at h⟩
  · exact .inr ⟨hj, by rwa [Function.update_of_ne hj] at h⟩

theorem called_some (h : s.called t = some c) : s.conn t = some c ∧ c.referenced = true := by
  obtain ⟨h1, h2⟩ := Option.filter_eq_some_iff.mp h
  exact ⟨h1, h2⟩

theorem regBuf_cases {ok : Bool} (h : regBuf t o ok s = some s') :
    (∃ c p, s.conn t = some c ∧ c.pd = some p ∧ s.source o = true ∧
      s' = { s.setBuf s.bufs ⟨t, o, p, true, true, true, true⟩ with bufs := s.bufs + 1 }) ∨ s' = s := by
  unfold regBuf at h
  split at h
  next c hc =>
    split at h
    next ho =>
      split at h
      next p hp =>
        cases h
        exact .inl ⟨c, p, (called_some hc).1, hp, ho, rfl⟩
      · cases h
        exact .inr rfl
    · cases h
  · cases h

theorem Ok.anyBuf_iff (h : Ok s) {p : Buffer → Bool} : s.anyBuf p = true ↔ ∃ r b, s.buf r = some b ∧ p b = true := by
  simp only [State.anyBuf, List.any_eq_true, List.mem_range, Option.any_eq_true]
  constructor
  · intro hex
    obtain ⟨r, -, b, hb, hp⟩ := hex
    exact ⟨r, b, hb, hp⟩
  · intro hex
    obtain ⟨r, b, hb, hp⟩ := hex
    exact ⟨r, h.buf_lt r b hb, b, hb, hp⟩

/-- A deallocation is a fault exactly when a region is left. -/
theorem Ok.dealloc_iff (h : Ok s) (hc : s.conn t = some c) : s.dealloc c.pd = false ↔ NoRegions s t := by
  unfold State.dealloc NoRegions
  cases hp : c.pd with
  | none =>
    simp only [true_iff]
    intro c' p hc' hp'
    rw [hc] at hc'
    cases hc'
    rw [hp] at hp'
    cases hp'
  | some p =>
    rw [← Bool.not_eq_true, h.anyBuf_iff]
    constructor
    · intro hn c' p' hc' hp' r b hb hr he
      rw [hc] at hc'
      cases hc'
      rw [hp] at hp'
      cases hp'
      exact hn ⟨r, b, hb, by simp [hr, he]⟩
    · rintro hn ⟨r, b, hb, hr⟩
      simp only [Bool.and_eq_true, beq_iff_eq] at hr
      exact hn c p hc hp r b hb hr.1 hr.2

theorem Ok.setBuf (h : Ok s) (hb : s.buf r = some b) (ht : b'.transport = b.transport) (hp : b'.pd = b.pd)
    (hk : b'.registered = true → b'.keepAlive = true) (hs : b'.source = true → b'.registered = true) :
    Ok (s.setBuf r b') where
  buf_lt := by
    intro j x hx
    obtain ⟨rfl, -⟩ | ⟨-, hx⟩ := update_eq_some hx
    · exact h.buf_lt j b hb
    · exact h.buf_lt j x hx
  conn_lt := h.conn_lt
  pd_lt := h.pd_lt
  buf_pd_lt := by
    intro j x hx
    obtain ⟨rfl, hv⟩ | ⟨-, hx⟩ := update_eq_some hx
    · cases hv
      exact hp ▸ h.buf_pd_lt j b hb
    · exact h.buf_pd_lt j x hx
  pd_inj := h.pd_inj
  owner := by
    intro j x t c hx hc he
    obtain ⟨rfl, hv⟩ | ⟨-, hx⟩ := update_eq_some hx
    · cases hv
      exact ht ▸ h.owner j b t c hb hc (hp ▸ he)
    · exact h.owner j x t c hx hc he
  keep := by
    intro j x hx
    obtain ⟨-, hv⟩ | ⟨-, hx⟩ := update_eq_some hx
    · cases hv
      exact hk
    · exact h.keep j x hx
  source_registered := by
    intro j x hx
    obtain ⟨-, hv⟩ | ⟨-, hx⟩ := update_eq_some hx
    · cases hv
      exact hs
    · exact h.source_registered j x hx

/-- A transport changes: its domain stays, goes, or is a new one. -/
theorem Ok.setConn {m n : Nat} {f : Bool} {v : Option Conn} (h : Ok s) (hm : s.conns ≤ m) (ht : t < m)
    (hn : s.nextPd ≤ n)
    (hv : ∀ c p, v = some c → c.pd = some p →
      (s.nextPd ≤ p ∧ p < n) ∨ ∃ c', s.conn t = some c' ∧ c'.pd = some p) :
    Ok { s with conn := Function.update s.conn t v, conns := m, nextPd := n, fault := f } := by
  have hlt : ∀ j c p, Function.update s.conn t v j = some c → c.pd = some p → p < n := by
    intro j c p hc hp
    obtain ⟨rfl, hvc⟩ | ⟨-, hc⟩ := update_eq_some hc
    · rcases hv c p hvc hp with hnew | ⟨c', hc', hp'⟩
      · exact hnew.2
      · exact Nat.lt_of_lt_of_le (h.pd_lt j c' p hc' hp') hn
    · exact Nat.lt_of_lt_of_le (h.pd_lt j c p hc hp) hn
  -- A transport that has an old domain had it before.
  have hold : ∀ j c p, Function.update s.conn t v j = some c → c.pd = some p → p < s.nextPd →
      ∃ c', s.conn j = some c' ∧ c'.pd = some p := by
    intro j c p hc hp hpn
    obtain ⟨rfl, hvc⟩ | ⟨-, hc⟩ := update_eq_some hc
    · exact (hv c p hvc hp).resolve_left fun hnew => absurd hpn (Nat.not_lt.mpr hnew.1)
    · exact ⟨c, hc, hp⟩
  refine ⟨h.buf_lt, fun j c hc => ?_, hlt, fun r b hb => Nat.lt_of_lt_of_le (h.buf_pd_lt r b hb) hn,
    fun j j' c c' p hc hc' hp hp' => ?_, fun r b j c hb hc hp => ?_, h.keep, h.source_registered⟩
  · obtain ⟨rfl, -⟩ | ⟨-, hc⟩ := update_eq_some hc
    · exact ht
    · exact Nat.lt_of_lt_of_le (h.conn_lt j c hc) hm
  · by_cases hlt : p < s.nextPd
    · obtain ⟨d, hd, hdp⟩ := hold j c p hc hp hlt
      obtain ⟨d', hd', hdp'⟩ := hold j' c' p hc' hp' hlt
      exact h.pd_inj j j' d d' p hd hd' hdp hdp'
    · -- A new domain is that of `t` alone.
      have hnew : ∀ i e, Function.update s.conn t v i = some e → e.pd = some p → i = t := by
        intro i e he hep
        obtain ⟨hi, -⟩ | ⟨-, he⟩ := update_eq_some he
        · exact hi
        · exact absurd (h.pd_lt i e p he hep) hlt
      rw [hnew j c hc hp, hnew j' c' hc' hp']
  · obtain ⟨d, hd, hdp⟩ := hold j c b.pd hc hp (h.buf_pd_lt r b hb)
    exact h.owner r b j d hb hd hdp

theorem Ok.reconnect (h : Ok s) (hc : s.conn t = some c) (ok : Bool) : Ok (s.reconnect t c ok) := by
  refine h.setConn (Nat.le_refl _) (h.conn_lt t c hc) (Nat.le_succ _) fun c' p hv hp => ?_
  cases hv
  cases ok with
  | false => cases hp
  | true =>
    cases hp
    exact .inl ⟨Nat.le_refl _, Nat.lt_succ_self _⟩

theorem Ok.regBuf (h : Ok s) {p : Nat} (hc : s.conn t = some c) (hp : c.pd = some p) :
    Ok { s.setBuf s.bufs ⟨t, o, p, true, true, true, true⟩ with bufs := s.bufs + 1 } where
  buf_lt := by
    intro j x hx
    obtain ⟨rfl, -⟩ | ⟨-, hx⟩ := update_eq_some hx
    · exact Nat.lt_succ_self _
    · exact Nat.lt_succ_of_lt (h.buf_lt j x hx)
  conn_lt := h.conn_lt
  pd_lt := h.pd_lt
  buf_pd_lt := by
    intro j x hx
    obtain ⟨-, hv⟩ | ⟨-, hx⟩ := update_eq_some hx
    · cases hv
      exact h.pd_lt t c p hc hp
    · exact h.buf_pd_lt j x hx
  pd_inj := h.pd_inj
  owner := by
    intro j x t' c' hx hc' he
    obtain ⟨-, hv⟩ | ⟨-, hx⟩ := update_eq_some hx
    · cases hv
      exact h.pd_inj t t' c c' p hc hc' hp he
    · exact h.owner j x t' c' hx hc' he
  keep := by
    intro j x hx
    obtain ⟨-, hv⟩ | ⟨-, hx⟩ := update_eq_some hx
    · cases hv
      exact fun h => h
    · exact h.keep j x hx
  source_registered := by
    intro j x hx
    obtain ⟨-, hv⟩ | ⟨-, hx⟩ := update_eq_some hx
    · cases hv
      exact fun h => h
    · exact h.source_registered j x hx

theorem Ok.step (h : Ok s) (hs : step a s = some s') : Ok s' := by
  cases a with
  | createRdma =>
    cases hs
    exact h.setConn (Nat.le_succ _) (Nat.lt_succ_self _) (Nat.le_refl _) fun c p hv hp => by cases hv; cases hp
  | listen t ok =>
    obtain ⟨c, hc, rfl⟩ := Option.map_eq_some_iff.mp hs
    exact h.reconnect (called_some hc).1 ok
  | accept t =>
    obtain ⟨c, -, rfl⟩ := Option.map_eq_some_iff.mp hs
    exact h
  | connect t host ok =>
    obtain ⟨c, hc, rfl⟩ := Option.map_eq_some_iff.mp hs
    cases host with
    | false => exact h
    | true => exact h.reconnect (called_some hc).1 ok
  | close t =>
    obtain ⟨c, hc, rfl⟩ := Option.map_eq_some_iff.mp hs
    exact h.reconnect (called_some hc).1 false
  | regBuf t o ok =>
    obtain ⟨c, p, hc, hp, -, rfl⟩ | rfl := regBuf_cases hs
    · exact h.regBuf hc hp
    · exact h
  | dropTransport t =>
    obtain ⟨c, hc, rfl⟩ := Option.map_eq_some_iff.mp hs
    have hc := (called_some hc).1
    exact h.setConn (Nat.le_refl _) (h.conn_lt t c hc) (Nat.le_refl _) fun c' p hv hp => by
      cases hv
      exact .inr ⟨c, hc, hp⟩
  | dropBuffer r =>
    obtain ⟨b, hb, rfl⟩ := Option.map_eq_some_iff.mp hs
    obtain ⟨hb, -⟩ := Option.filter_eq_some_iff.mp hb
    exact h.setBuf hb rfl rfl (h.keep r b hb) (h.source_registered r b hb)
  | dropSource o =>
    simp only [Lifetimes.step] at hs
    split at hs
    · cases hs
      exact ⟨h.buf_lt, h.conn_lt, h.pd_lt, h.buf_pd_lt, h.pd_inj, h.owner, h.keep, h.source_registered⟩
    · cases hs
  | destroySource r =>
    obtain ⟨b, hb, rfl⟩ := Option.map_eq_some_iff.mp hs
    obtain ⟨hb, -⟩ := Option.filter_eq_some_iff.mp hb
    exact h.setBuf hb rfl rfl (h.keep r b hb) fun hf => by cases hf
  | destroyScoped r =>
    obtain ⟨b, hb, rfl⟩ := Option.map_eq_some_iff.mp hs
    obtain ⟨hb, hf⟩ := Option.filter_eq_some_iff.mp hb
    simp only [Bool.and_eq_true, Bool.not_eq_true'] at hf
    exact h.setBuf hb rfl rfl (fun hr => by cases hr) fun hr => by simp [hf.1.2] at hr
  | clearPatients r =>
    obtain ⟨b, hb, rfl⟩ := Option.map_eq_some_iff.mp hs
    obtain ⟨hb, hf⟩ := Option.filter_eq_some_iff.mp hb
    simp only [Bool.and_eq_true, Bool.not_eq_true'] at hf
    exact h.setBuf hb rfl rfl (fun hr => by simp [hf.1.2] at hr) fun hr => by simp [hf.1.1.2] at hr
  | destroyTransport t =>
    obtain ⟨c, hc, rfl⟩ := Option.map_eq_some_iff.mp hs
    obtain ⟨hc, -⟩ := Option.filter_eq_some_iff.mp hc
    exact h.setConn (Nat.le_refl _) (h.conn_lt t c hc) (Nat.le_succ _) fun c' p hv => by cases hv

theorem init_ok : Ok init := by
  refine ⟨?_, ?_, ?_, ?_, ?_, ?_, ?_, ?_⟩ <;> simp [init]

/-! ## Nesting, step by step -/

theorem nested_congr (hb : s'.buf = s.buf) (ho : s'.source = s.source) (h : Nested s) :
    Nested s' ↔ s'.fault = false := by
  refine ⟨fun h' => h'.2, fun hf => ⟨fun r b hr hreg => ?_, hf⟩⟩
  have := h.1 r b (hb ▸ hr) hreg
  simpa only [State.Referenced, hb, ho] using this

/-- A step that deallocates a domain. -/
theorem nested_dealloc (h : Ok s) (hn : Nested s) (hc : s.conn t = some c) (hb : s'.buf = s.buf)
    (ho : s'.source = s.source) (hf : s'.fault = (s.fault || s.dealloc c.pd)) : Nested s' ↔ NoRegions s t := by
  rw [nested_congr hb ho hn, hf, hn.2, Bool.false_or, h.dealloc_iff hc]

/-- A step on a buffer that drops no reference to its object. -/
theorem nested_setBuf (hn : Nested s) (hb : s.buf r = some b) (hsrc : b'.src = b.src) (hs : b'.source = b.source)
    (hr : b'.registered = true → b.registered = true) : Nested (s.setBuf r b') := by
  have href : ∀ o, s.Referenced o → (s.setBuf r b').Referenced o := by
    rintro o (ho | ⟨j, x, hx, hxs, hxo⟩)
    · exact .inl ho
    · by_cases hj : j = r
      · subst hj
        rw [hb] at hx
        cases hx
        exact .inr ⟨j, b', by simp [State.setBuf], hs.trans hxs, hsrc.trans hxo⟩
      · exact .inr ⟨j, x, by simp [State.setBuf, hj, hx], hxs, hxo⟩
  refine ⟨fun j x hx hreg => ?_, hn.2⟩
  obtain ⟨rfl, hv⟩ | ⟨-, hx⟩ := update_eq_some hx
  · cases hv
    exact href _ (hsrc ▸ hn.1 j b hb (hr hreg))
  · exact href _ (hn.1 j x hx hreg)

/-- A new buffer has a reference to its own object. -/
theorem nested_regBuf (h : Ok s) (hn : Nested s) {p : Nat} :
    Nested { s.setBuf s.bufs ⟨t, o, p, true, true, true, true⟩ with bufs := s.bufs + 1 } := by
  refine ⟨fun j x hx hreg => ?_, hn.2⟩
  obtain ⟨rfl, hv⟩ | ⟨-, hx⟩ := update_eq_some hx
  · cases hv
    exact .inr ⟨_, _, Function.update_self _ _ _, rfl, rfl⟩
  · refine (hn.1 j x hx hreg).imp (fun ho => ho) ?_
    intro hex
    obtain ⟨i, y, hy, hys, hyo⟩ := hex
    have hi : i ≠ s.bufs := Nat.ne_of_lt (h.buf_lt i y hy)
    exact ⟨i, y, (Function.update_of_ne hi _ _).trans hy, hys, hyo⟩

theorem nested_destroySource (h : Ok s) (hn : Nested s) (hb : s.buf r = some b) (hs : b.source = true) :
    Nested (s.setBuf r { b with source := false }) ↔ Careful s (.destroySource r) := by
  have hget : ∀ j x, (s.setBuf r { b with source := false }).buf j = some x →
      j = r ∧ x = { b with source := false } ∨ j ≠ r ∧ s.buf j = some x := by
    intro j x hx
    obtain ⟨hj, hv⟩ | ⟨hj, hx⟩ := update_eq_some hx
    · exact .inl ⟨hj, (Option.some.inj hv).symm⟩
    · exact .inr ⟨hj, hx⟩
  have hother : ∀ j, j ≠ r → (s.setBuf r { b with source := false }).buf j = s.buf j :=
    fun j hj => Function.update_of_ne hj _ _
  constructor
  · intro hn' x hx
    rw [hb] at hx
    cases hx
    rcases hn'.1 r _ (Function.update_self r _ _) (h.source_registered r b hb hs) with ho | ⟨j, x, hx, hxs, hxo⟩
    · exact .inl ho
    · rcases hget j x hx with ⟨-, rfl⟩ | ⟨hj, hx⟩
      · cases hxs
      · exact .inr ⟨j, x, hj, hx, hxs, hxo⟩
  · intro hc
    have href : ∀ o, s.Referenced o → (s.setBuf r { b with source := false }).Referenced o := by
      rintro o (ho | ⟨j, x, hx, hxs, hxo⟩)
      · exact .inl ho
      · by_cases hj : j = r
        · subst hj
          rw [hb] at hx
          cases hx
          rcases hc b hb with ho | ⟨j', x', hj', hx', hxs', hxo'⟩
          · exact .inl (hxo ▸ ho)
          · exact .inr ⟨j', x', (hother j' hj').trans hx', hxs', hxo'.trans hxo⟩
        · exact .inr ⟨j, x, (hother j hj).trans hx, hxs, hxo⟩
    refine ⟨fun j x hx hreg => ?_, hn.2⟩
    rcases hget j x hx with ⟨-, rfl⟩ | ⟨-, hx⟩
    · exact href b.src (hn.1 r b hb hreg)
    · exact href x.src (hn.1 j x hx hreg)

theorem nested_dropSource (hn : Nested s) :
    Nested { s with source := Function.update s.source o false } ↔ Careful s (.dropSource o) := by
  constructor
  · rintro hn' r b hb hreg - rfl
    rcases hn'.1 r b hb hreg with ho | href
    · simp at ho
    · exact href
  · intro hc
    refine ⟨fun r b hb hreg => ?_, hn.2⟩
    by_cases hbo : b.src = o
    · cases hs : b.source with
      | true => exact .inr ⟨r, b, hb, hs, rfl⟩
      | false =>
        obtain ⟨r', b', hb', hs', ho'⟩ := hc r b hb hreg hs hbo
        exact .inr ⟨r', b', hb', hs', ho'.trans hbo.symm⟩
    · refine (hn.1 r b hb hreg).imp (fun ho => ?_) fun href => href
      simpa [Function.update_of_ne hbo] using ho

/-- From a state where lifetimes nest, they nest after a step exactly when the
step was careful. -/
theorem nested_step (h : Ok s) (hn : Nested s) (hs : step a s = some s') : Nested s' ↔ Careful s a := by
  cases a with
  | createRdma =>
    cases hs
    simp only [Careful, iff_true]
    exact (nested_congr rfl rfl hn).mpr hn.2
  | listen t ok =>
    obtain ⟨c, hc, rfl⟩ := Option.map_eq_some_iff.mp hs
    exact nested_dealloc h hn (called_some hc).1 rfl rfl rfl
  | accept t =>
    obtain ⟨c, -, rfl⟩ := Option.map_eq_some_iff.mp hs
    simpa only [Careful, iff_true] using hn
  | connect t host ok =>
    obtain ⟨c, hc, rfl⟩ := Option.map_eq_some_iff.mp hs
    cases host with
    | false => simpa [Careful] using hn
    | true =>
      simp only [Careful, if_true, forall_const]
      exact nested_dealloc h hn (called_some hc).1 rfl rfl rfl
  | close t =>
    obtain ⟨c, hc, rfl⟩ := Option.map_eq_some_iff.mp hs
    exact nested_dealloc h hn (called_some hc).1 rfl rfl rfl
  | regBuf t o ok =>
    simp only [Careful, iff_true]
    obtain ⟨c, p, -, -, -, rfl⟩ | rfl := regBuf_cases hs
    · exact nested_regBuf h hn
    · exact hn
  | dropTransport t =>
    obtain ⟨c, -, rfl⟩ := Option.map_eq_some_iff.mp hs
    simp only [Careful, iff_true]
    exact (nested_congr rfl rfl hn).mpr hn.2
  | dropBuffer r =>
    obtain ⟨b, hb, rfl⟩ := Option.map_eq_some_iff.mp hs
    simp only [Careful, iff_true]
    exact nested_setBuf hn (Option.filter_eq_some_iff.mp hb).1 rfl rfl fun hr => hr
  | dropSource o =>
    simp only [Lifetimes.step] at hs
    split at hs
    · cases hs
      exact nested_dropSource hn
    · cases hs
  | destroySource r =>
    obtain ⟨b, hb, rfl⟩ := Option.map_eq_some_iff.mp hs
    obtain ⟨hb, hf⟩ := Option.filter_eq_some_iff.mp hb
    simp only [Bool.and_eq_true] at hf
    exact nested_destroySource h hn hb hf.2
  | destroyScoped r =>
    obtain ⟨b, hb, rfl⟩ := Option.map_eq_some_iff.mp hs
    simp only [Careful, iff_true]
    exact nested_setBuf hn (Option.filter_eq_some_iff.mp hb).1 rfl rfl fun hr => by cases hr
  | clearPatients r =>
    obtain ⟨b, hb, rfl⟩ := Option.map_eq_some_iff.mp hs
    simp only [Careful, iff_true]
    exact nested_setBuf hn (Option.filter_eq_some_iff.mp hb).1 rfl rfl fun hr => hr
  | destroyTransport t =>
    obtain ⟨c, hc, rfl⟩ := Option.map_eq_some_iff.mp hs
    obtain ⟨hc, hf⟩ := Option.filter_eq_some_iff.mp hc
    simp only [Bool.and_eq_true, Bool.not_eq_true'] at hf
    simp only [Careful, iff_true]
    have hiff : Nested { s.reconnect t c false with conn := Function.update s.conn t none } ↔ NoRegions s t :=
      nested_dealloc h hn hc rfl rfl rfl
    refine hiff.mpr ?_
    -- A region of its domain would keep the transport alive.
    intro c' p hc' hp r b hb hreg he
    rw [hc] at hc'
    cases hc'
    have hkeep : s.anyBuf (fun b => b.keepAlive && b.transport == t) = true :=
      h.anyBuf_iff.mpr ⟨r, b, hb, by simp [h.keep r b hb hreg, h.owner r b t c hb hc (he ▸ hp)]⟩
    rw [hkeep] at hf
    cases hf.2

theorem init_nested : Nested init := by simp [Nested, init]

/-- In every state of a run lifetimes nest, if and only if every step of the run
was careful. -/
theorem lifetimes_nest_iff (as : List Action) (s : State) (h : system.exec as init = some s) :
    (∀ k t, system.exec (as.take k) init = some t → Nested t) ↔ system.Along Careful as init :=
  Lts.always_iff_along (I := Ok) (G := Nested) (P := Careful) (fun _ _ _ hi hs => hi.step hs)
    (fun _ _ _ hi hn hs => nested_step hi hn hs) init_ok init_nested h

/-- A buffer is registered and dropped, the program holding on to its object,
and the transport is closed after that. -/
theorem lifetimes_nest_iff_tidy :
    (∃ s, system.exec [.createRdma, .listen 0 true, .accept 0, .regBuf 0 7 true, .dropBuffer 0, .destroySource 0,
      .destroyScoped 0, .close 0] init = some s) ∧
    ∀ k t, system.exec ([.createRdma, .listen 0 true, .accept 0, .regBuf 0 7 true, .dropBuffer 0, .destroySource 0,
      .destroyScoped 0, .close 0].take k) init = some t → Nested t := by
  refine ⟨⟨_, rfl⟩, (lifetimes_nest_iff _ _ rfl).mpr ?_⟩
  refine ⟨trivial, fun _ h => ?_⟩
  cases h
  refine ⟨fun c p hc hp => ?_, fun _ h => ?_⟩
  · cases hc
    cases hp
  cases h
  refine ⟨trivial, fun _ h => ?_⟩
  cases h
  refine ⟨trivial, fun _ h => ?_⟩
  cases h
  refine ⟨trivial, fun _ h => ?_⟩
  cases h
  refine ⟨fun b _ => .inl rfl, fun _ h => ?_⟩
  cases h
  refine ⟨trivial, fun _ h => ?_⟩
  cases h
  refine ⟨fun c p _ _ r b hb hreg => ?_, fun _ _ => trivial⟩
  obtain ⟨-, hv⟩ | ⟨hr, hb⟩ := update_eq_some hb
  · cases hv
    cases hreg
  · obtain ⟨hr', -⟩ | ⟨-, hb⟩ := update_eq_some hb
    · exact absurd hr' hr
    obtain ⟨hr', -⟩ | ⟨-, hb⟩ := update_eq_some hb
    · exact absurd hr' hr
    obtain ⟨hr', -⟩ | ⟨-, hb⟩ := update_eq_some hb
    · exact absurd hr' hr
    cases hb

/-- A program that drops its object before the buffer: when `source` is
destroyed the region is still registered, and nothing references the object.
And one that closes its transport under a registered region. -/
theorem lifetimes_do_not_nest :
    (∃ s, system.exec [.createRdma, .listen 0 true, .accept 0, .regBuf 0 7 true, .dropSource 7, .dropBuffer 0,
      .destroySource 0] init = some s ∧ ¬∀ r b, s.buf r = some b → b.registered = true → s.Referenced b.src) ∧
    ∃ s, system.exec [.createRdma, .listen 0 true, .accept 0, .regBuf 0 7 true, .close 0] init = some s ∧
      s.fault = true := by
  refine ⟨⟨_, rfl, fun h => ?_⟩, _, rfl, rfl⟩
  rcases h 0 ⟨0, 7, 0, false, false, true, true⟩ rfl rfl with ho | ⟨r, b, hb, hs, -⟩
  · cases ho
  · obtain ⟨-, hv⟩ | ⟨hr, hb⟩ := update_eq_some hb
    · cases hv
      cases hs
    obtain ⟨hr', -⟩ | ⟨-, hb⟩ := update_eq_some hb
    · exact hr hr'
    obtain ⟨hr', -⟩ | ⟨-, hb⟩ := update_eq_some hb
    · exact hr hr'
    cases hb

end RdmaInfra.Transport.Lifetimes
