/-
The two sides of a phase 1 benchmark meet before either uses the other.

A side that gets past an exchange has the peer's message, and the peer sent it
after everything its own list has before. The client cannot leave `bench_connect`
before the server has the listener on `port + 1` up: in VERBS mode it has the
server's endpoint, sent after both listeners; in CM mode it has seen `ESTABLISHED`,
which follows `rdma_accept`. And neither posts before the exchange on `port + 1`,
where the peer's message says that its queue pair has left INIT, its region is
registered and its doorbell cleared.

The listener goes away after the last `accept`, which the client has then
connected for. That is so of the teardown exchange only as long as the server gets
there, and as long as `accept` itself does not fail.
-/
import RdmaInfra.Verbs.BringUp

namespace RdmaInfra.Verbs.BringUp

open Script (Precedes NotBefore next reach_initial reach_needs)

/-- The calls that stand before the exchange on `port + 1`. -/
def Op.isSetup : Op → Bool
  | .listen _ | .closeListen .ep | .accept .ep _ | .connect .ep _ | .sendInfo .ep _ | .recvInfo .ep _ | .cmListen
  | .cmRequest | .cmDestroyListen | .cmAccept | .cmResolve | .cmConnect | .cmEstablished | .buildQp | .toRtr | .toRts
  | .mrReg | .clearDoorbell | .postRecv => true
  | _ => false

/-- The calls of a data phase. -/
def Op.isData : Op → Bool
  | .clearDoorbell | .malloc | .postRecv | .postSend | .postWrite | .pollCq | .reap _ | .spin _ => true
  | _ => false

theorem windowLoop_data (totalIters depth : Nat) (reaps : List Nat) (scnt ccnt : Nat) :
    ∀ o ∈ (windowLoop totalIters depth reaps scnt ccnt).1, o.isData = true := by
  induction reaps generalizing scnt ccnt with
  | nil =>
    intro o ho
    simp only [windowLoop] at ho
    split at ho
    · obtain ⟨n, -, rfl⟩ := List.mem_map.mp ho
      rfl
    · simp at ho
  | cons ne reaps ih =>
    intro o ho
    simp only [windowLoop] at ho
    split at ho
    · simp only [List.mem_append, List.mem_cons] at ho
      rcases ho with ho | rfl | ho
      · obtain ⟨n, -, rfl⟩ := List.mem_map.mp ho
        rfl
      · rfl
      · exact ih _ _ o ho
    · simp at ho

theorem mem_repost {totalIters prepost i : Nat} {o : Op} (h : o ∈ repost totalIters prepost i) : o = .postRecv := by
  simp only [repost] at h
  split at h
  · simpa using h
  · simp at h

theorem listen_setup (mode : Setup.Mode) : ∀ o ∈ benchListen mode, o.isSetup = true := by
  cases mode <;> decide

theorem accept_setup (mode : Setup.Mode) : ∀ o ∈ benchAccept mode, o.isSetup = true := by
  cases mode <;> decide

theorem connect_setup (mode : Setup.Mode) : ∀ o ∈ benchConnect mode, o.isSetup = true := by
  cases mode <;> decide

variable {cfg : Config} {s : History} {p : Party} {y z : Op} {k : Nat}

theorem setup_setup (cfg : Config) (p : Party) : ∀ o ∈ (cfg.main p).setup, o.isSetup = true := by
  intro o ho
  obtain ⟨bench, mode, totalIters, depth, reaps, failsAt⟩ := cfg
  have hl := listen_setup mode o
  have ha := accept_setup mode o
  have hc := connect_setup mode o
  cases bench <;> cases p <;>
    simp only [Config.main, latSendRecv, bwRdmaWrite, latRdmaWrite, List.mem_append, List.mem_cons, List.not_mem_nil,
      or_false, List.mem_replicate] at ho
  case latSendRecv.server =>
    rcases ho with ((ho | rfl) | ⟨-, rfl⟩) | ho
    · exact hl ho
    · rfl
    · rfl
    · exact ha ho
  case bwRdmaWrite.server =>
    rcases ho with (ho | rfl | rfl) | ho
    · exact hl ho
    · rfl
    · rfl
    · exact ha ho
  case latRdmaWrite.server =>
    rcases ho with ((ho | rfl) | ho) | rfl
    · exact hl ho
    · rfl
    · exact ha ho
    · rfl
  case latSendRecv.client | bwRdmaWrite.client =>
    rcases ho with ho | rfl
    · exact hc ho
    · rfl
  case latRdmaWrite.client =>
    rcases ho with ho | rfl | rfl
    · exact hc ho
    · rfl
    · rfl

theorem calls_data (cfg : Config) (p : Party) : ∀ o ∈ (cfg.main p).calls, o.isData = true := by
  intro o ho
  obtain ⟨bench, mode, totalIters, depth, reaps, failsAt⟩ := cfg
  cases bench <;> cases p
  case latSendRecv.server =>
    simp only [Config.main, latSendRecv, List.mem_flatMap, List.mem_append, List.mem_cons, List.not_mem_nil,
      or_false] at ho
    obtain ⟨i, -, (rfl | ho) | rfl | rfl⟩ := ho
    · rfl
    · rw [mem_repost ho]; rfl
    · rfl
    · rfl
  case latSendRecv.client =>
    simp only [Config.main, latSendRecv, List.mem_flatMap, List.mem_append, List.mem_cons, List.not_mem_nil,
      or_false, List.mem_replicate] at ho
    rcases ho with (rfl | ⟨-, rfl⟩) | ⟨i, -, ho | rfl | rfl | rfl⟩
    · rfl
    · rfl
    · rw [mem_repost ho]; rfl
    · rfl
    · rfl
    · rfl
  case bwRdmaWrite.server =>
    simp only [Config.main, bwRdmaWrite, List.mem_singleton] at ho
    rw [ho]; rfl
  case bwRdmaWrite.client =>
    simp only [Config.main, bwRdmaWrite, List.mem_cons] at ho
    rcases ho with rfl | ho
    · rfl
    · exact windowLoop_data _ _ _ _ _ o ho
  case latRdmaWrite.server =>
    simp only [Config.main, latRdmaWrite, List.mem_flatMap, List.mem_cons, List.not_mem_nil, or_false] at ho
    obtain ⟨i, -, rfl | rfl | rfl⟩ := ho <;> rfl
  case latRdmaWrite.client =>
    simp only [Config.main, latRdmaWrite, List.mem_flatMap, List.mem_cons, List.not_mem_nil, or_false] at ho
    obtain rfl | ⟨i, -, rfl | rfl | rfl⟩ := ho <;> rfl

theorem notMem_setup (hz : z.isSetup = false) : z ∉ (cfg.main p).setup := by
  intro hm
  rw [setup_setup cfg p z hm] at hz
  cases hz

theorem notMem_calls (hz : z.isData = false) : z ∉ (cfg.main p).calls := by
  intro hm
  rw [calls_data cfg p z hm] at hz
  cases hz

theorem exchange_server (cfg : Config) : (cfg.main .server).exchange = oobAccept .mr 0 := by
  obtain ⟨bench, mode, totalIters, depth, reaps, failsAt⟩ := cfg
  cases bench <;> rfl

theorem exchange_client (cfg : Config) : (cfg.main .client).exchange = oobConnect .mr 0 := by
  obtain ⟨bench, mode, totalIters, depth, reaps, failsAt⟩ := cfg
  cases bench <;> rfl

theorem out_client (cfg : Config) : (cfg.main .client).out = clientOut := by
  obtain ⟨bench, mode, totalIters, depth, reaps, failsAt⟩ := cfg
  cases bench <;> rfl

theorem left_server (cfg : Config) : (cfg.main .server).left = true := by
  obtain ⟨bench, mode, totalIters, depth, reaps, failsAt⟩ := cfg
  cases bench <;> rfl

/-- Nothing is made up after the first exchange, whatever fails. -/
theorem rest_sublist (m : Main) (f : Option Nat) : (m.rest f).Sublist (m.calls ++ (m.sync ++ m.out)) := by
  have hbody : m.body.Sublist (m.calls ++ m.sync) := by
    rw [Main.body]
    split
    · exact List.Sublist.refl _
    · exact (List.Sublist.refl _).append (List.nil_sublist _)
  rw [← List.append_assoc, Main.rest]
  split
  · exact ((List.take_sublist ..).trans hbody).append (List.Sublist.refl _)
  · refine hbody.append ?_
    split
    · exact List.Sublist.refl _
    · exact List.nil_sublist _

theorem mem_rest {m : Main} {f : Option Nat} (h : z ∈ m.rest f) : z ∈ m.calls ∨ z ∈ m.sync ∨ z ∈ m.out := by
  simpa only [List.mem_append] using (rest_sublist m f).subset h

theorem mem_server_accept {o : Op} (h : o ∈ benchAccept cfg.mode) : o ∈ (cfg.main .server).setup := by
  obtain ⟨bench, mode, totalIters, depth, reaps, failsAt⟩ := cfg
  cases bench <;> simp [Config.main, latSendRecv, bwRdmaWrite, latRdmaWrite, h]

theorem mem_client_connect {o : Op} (h : o ∈ benchConnect cfg.mode) : o ∈ (cfg.main .client).setup := by
  obtain ⟨bench, mode, totalIters, depth, reaps, failsAt⟩ := cfg
  cases bench <;> simp [Config.main, latSendRecv, bwRdmaWrite, latRdmaWrite, h]

theorem listen_initial (cfg : Config) : benchListen cfg.mode <+: cfg.program .server := by
  obtain ⟨bench, mode, totalIters, depth, reaps, failsAt⟩ := cfg
  cases bench <;> simp [Config.program, Main.run, Config.main, latSendRecv, bwRdmaWrite, latRdmaWrite]

/-! ## Order in a program -/

theorem setup_precedes (hy : y ∈ (cfg.main p).setup) (hz : z.isSetup = false) : Precedes y z (cfg.program p) := by
  have hpre : (cfg.main p).setup <+: cfg.program p := by
    rw [Config.program, Main.run, List.append_assoc]
    exact List.prefix_append _ _
  exact .of_initial hpre hy (notMem_setup hz)

theorem exchange_precedes (hy : y ∈ (cfg.main p).exchange) (hz : z.isSetup = false)
    (hze : z ∉ (cfg.main p).exchange) : Precedes y z (cfg.program p) := by
  refine .of_initial (List.prefix_append _ _) (List.mem_append_right _ hy) ?_
  rw [List.mem_append, not_or]
  exact ⟨notMem_setup hz, hze⟩

/-- The client asks for its last exchange where the server gives it. -/
theorem sync_cases (cfg : Config) :
    (cfg.main .client).sync = [] ∨
      (cfg.main .server).sync = oobAccept .mr 1 ∧ (cfg.main .client).sync = oobConnect .mr 1 := by
  obtain ⟨bench, mode, totalIters, depth, reaps, failsAt⟩ := cfg
  cases bench
  · exact .inl rfl
  · exact .inr ⟨rfl, rfl⟩
  · exact .inr ⟨rfl, rfl⟩

theorem accept_precedes_close (cfg : Config) : Precedes (.accept .mr 0) (.closeListen .mr) (cfg.program .server) :=
  exchange_precedes (by rw [exchange_server]; decide) rfl (by rw [exchange_server]; decide)

/-- The server that gets as far as its teardown `accept` closes the listener after
it. -/
theorem sync_precedes_close (hs : (cfg.main .server).sync = oobAccept .mr 1) (hf : ¬ cfg.Refuses) :
    Precedes (.accept .mr 1) (.closeListen .mr) (cfg.program .server) := by
  have hbody : (cfg.main .server).body =
      (cfg.main .server).calls ++ [.accept .mr 1] ++ [.sendInfo .mr 1, .recvInfo .mr 1] := by
    rw [Main.body, left_server, if_pos rfl, hs, List.append_assoc]
    rfl
  have hrest : (cfg.main .server).calls ++ [.accept .mr 1] <+: (cfg.main .server).rest (cfg.failsAt .server) := by
    rw [Main.rest]
    split
    next k hk =>
      -- What fails comes after the `accept`.
      have hlt : (cfg.main .server).calls.length < k := by
        by_contra hle
        exact hf ⟨k, hk, by omega⟩
      have hall : ((cfg.main .server).calls ++ [Op.accept .mr 1]).take k = (cfg.main .server).calls ++ [.accept .mr 1] :=
        List.take_of_length_le (by rw [List.length_append, List.length_singleton]; omega)
      rw [hbody, List.take_append, hall, List.append_assoc]
      exact List.prefix_append _ _
    next =>
      rw [hbody, List.append_assoc]
      exact List.prefix_append _ _
  refine .of_initial (a := (cfg.main .server).setup ++ (cfg.main .server).exchange ++
    ((cfg.main .server).calls ++ [.accept .mr 1])) ?_ (by simp) ?_
  · exact (List.prefix_append_right_inj _).mpr hrest
  · rw [exchange_server]
    simp only [List.mem_append, not_or]
    exact ⟨⟨notMem_setup rfl, by decide⟩, notMem_calls rfl, by decide⟩

/-- The client makes each of its connections to `port + 1` once. -/
theorem connect_once (cfg : Config) (k : Nat) :
    NotBefore (.connect .mr k) (.connect .mr k) (cfg.program .client) := by
  refine .of_count ?_
  have hset : (cfg.main .client).setup.count (.connect .mr k) = 0 := List.count_eq_zero.mpr (notMem_setup rfl)
  have hcalls : (cfg.main .client).calls.count (.connect .mr k) = 0 := List.count_eq_zero.mpr (notMem_calls rfl)
  have hout : clientOut.count (.connect .mr k) = 0 := by simp [clientOut]
  have hrest := (rest_sublist (cfg.main .client) (cfg.failsAt .client)).count_le (.connect .mr k)
  rw [List.count_append, List.count_append, hcalls, out_client, hout] at hrest
  have hfirst : (oobConnect .mr 0).count (.connect .mr k) = if k = 0 then 1 else 0 := by
    by_cases hk : k = 0 <;> simp [oobConnect, hk, eq_comm]
  have hsync : (cfg.main .client).sync.count (.connect .mr k) ≤ if k = 0 then 0 else 1 := by
    rcases sync_cases cfg with hs | ⟨-, hs⟩
    · simp [hs]
    · rw [hs]
      by_cases hk : k = 0
      · simp [oobConnect, hk]
      · by_cases h1 : k = 1 <;> simp [oobConnect, hk, h1, eq_comm]
  rw [Config.program, Main.run, exchange_client, List.count_append, List.count_append, hset, hfirst]
  split_ifs at hsync ⊢
  all_goals omega

/-- The client connects to `port + 1` once before its data phase, and once more
where there is a teardown exchange. -/
theorem connect_cases (h : Op.connect .mr k ∈ cfg.program .client) :
    k = 0 ∨ k = 1 ∧ (cfg.main .server).sync = oobAccept .mr 1 := by
  rw [Config.program, Main.run, exchange_client, List.mem_append, List.mem_append] at h
  rcases h with (h | h) | h
  · exact absurd h (notMem_setup rfl)
  · simp only [oobConnect, List.mem_cons, Op.connect.injEq, true_and, reduceCtorEq, List.not_mem_nil, or_self,
      or_false] at h
    exact .inl h
  rcases mem_rest h with h | h | h
  · exact absurd h (notMem_calls rfl)
  · rcases sync_cases cfg with hs | ⟨hs, hc⟩
    · rw [hs] at h
      cases h
    · rw [hc] at h
      simp only [oobConnect, List.mem_cons, Op.connect.injEq, true_and, reduceCtorEq, List.not_mem_nil, or_self,
        or_false] at h
      exact .inr ⟨h, hs⟩
  · rw [out_client] at h
    simp [clientOut] at h

/-! ## Order across the two -/

theorem needs_recvInfo {l : Listener} (h : (system cfg).Reach s) (hm : .recvInfo l k ∈ s p) :
    .sendInfo l k ∈ s p.peer :=
  reach_needs (fun _ hr => of_decide_eq_true hr) h hm

theorem needs_established (h : (system cfg).Reach s) (hm : .cmEstablished ∈ s .client) : .cmAccept ∈ s .server :=
  reach_needs (fun _ hr => of_decide_eq_true hr) h hm

/-- A client past `bench_connect` has the server listening on `port + 1`: its
endpoint was sent, or the request accepted, after that. -/
theorem server_listens (h : (system cfg).Reach s) (hn : next cfg.program s .client = some z)
    (hz : z.isSetup = false) : .listen .mr ∈ s .server := by
  have hsrv := listen_initial cfg
  cases hmode : cfg.mode with
  | verbs =>
    have hrecv : .recvInfo .ep 0 ∈ s .client := by
      have hm : Op.recvInfo .ep 0 ∈ (cfg.main .client).setup := mem_client_connect (by rw [hmode]; decide)
      exact (setup_precedes hm hz).of_next (reach_initial h _) hn
    have hpre : [Op.listen .ep, .listen .mr, .buildQp] <+: cfg.program .server := by
      refine .trans ?_ hsrv
      rw [hmode]
      decide
    exact (Precedes.of_initial hpre (by decide) (by decide)).of_mem (reach_initial h _) (needs_recvInfo h hrecv)
  | cm =>
    have hest : .cmEstablished ∈ s .client := by
      have hm : Op.cmEstablished ∈ (cfg.main .client).setup := mem_client_connect (by rw [hmode]; decide)
      exact (setup_precedes hm hz).of_next (reach_initial h _) hn
    rw [hmode] at hsrv
    exact (Precedes.of_initial hsrv (by decide) (by decide)).of_mem (reach_initial h _) (needs_established h hest)

theorem needs_connect (h : (system cfg).Reach s) (hm : .accept .mr k ∈ s .server) : .connect .mr k ∈ s .client :=
  reach_needs (fun _ hr => of_decide_eq_true hr) h hm

/-- The listener is closed only after an `accept` that the client has yet to
connect for. -/
theorem listener_open (h : (system cfg).Reach s) (hc : Precedes (.accept .mr k) (.closeListen .mr) (cfg.program .server))
    (hn : next cfg.program s .client = some (.connect .mr k)) : .closeListen .mr ∉ s .server := by
  intro hm
  have haccept : .accept .mr k ∈ s .server := hc.of_mem (reach_initial h _) hm
  exact (connect_once cfg k).of_next (reach_initial h _) hn (needs_connect h haccept)

/-- A side past the exchange on `port + 1` has the peer's message. -/
theorem exchanged (h : (system cfg).Reach s) (hn : next cfg.program s p = some z) (hz : z.isSetup = false)
    (hze : z ∉ (cfg.main p).exchange) : .sendInfo .mr 0 ∈ s p.peer := by
  have hm : Op.recvInfo .mr 0 ∈ (cfg.main p).exchange := by
    cases p
    · rw [exchange_server]; decide
    · rw [exchange_client]; decide
  exact needs_recvInfo h ((exchange_precedes hm hz hze).of_next (reach_initial h _) hn)

/-- The message is sent after the setup. -/
theorem announced (h : (system cfg).Reach s) (hm : .sendInfo .mr 0 ∈ s p) (hy : y ∈ (cfg.main p).setup) : y ∈ s p :=
  (setup_precedes hy rfl).of_mem (reach_initial h p) hm

theorem setup_leaves_init (cfg : Config) (p : Party) : ∃ o ∈ (cfg.main p).setup, leavesInit p o = true := by
  cases p
  · cases hmode : cfg.mode
    · exact ⟨.cmAccept, mem_server_accept (by rw [hmode]; decide), rfl⟩
    · exact ⟨.toRtr, mem_server_accept (by rw [hmode]; decide), rfl⟩
  · cases hmode : cfg.mode
    · exact ⟨.cmEstablished, mem_client_connect (by rw [hmode]; decide), rfl⟩
    · exact ⟨.toRtr, mem_client_connect (by rw [hmode]; decide), rfl⟩

theorem exchange_notMem (hz : z = .postSend ∨ z = .postWrite) : z ∉ (cfg.main p).exchange := by
  cases p
  · rw [exchange_server]
    rcases hz with rfl | rfl <;> decide
  · rw [exchange_client]
    rcases hz with rfl | rfl <;> decide

theorem postWrite_mem_calls (h : .postWrite ∈ cfg.program p) : .postWrite ∈ (cfg.main p).calls := by
  rw [Config.program, Main.run, List.mem_append, List.mem_append] at h
  rcases h with (h | h) | h
  · exact absurd h (notMem_setup rfl)
  · exact absurd h (exchange_notMem (.inr rfl))
  rcases mem_rest h with h | h
  · exact h
  · obtain ⟨bench, mode, totalIters, depth, reaps, failsAt⟩ := cfg
    cases bench <;> cases p <;>
      simp [Config.main, latSendRecv, bwRdmaWrite, latRdmaWrite, oobAccept, oobConnect, serverOut, clientOut] at h

/-- A region that is written to is registered and its doorbell cleared during
setup: `lat_send_recv` writes to none, `bw_rdma_write` to the server's. -/
theorem written_prepared (hw : .postWrite ∈ (cfg.main p).calls) :
    .mrReg ∈ (cfg.main p.peer).setup ∧ .clearDoorbell ∈ (cfg.main p.peer).setup := by
  obtain ⟨bench, mode, totalIters, depth, reaps, failsAt⟩ := cfg
  cases bench <;> cases p
  case latSendRecv.server =>
    simp only [Config.main, latSendRecv, List.mem_flatMap, List.mem_append, List.mem_cons, reduceCtorEq,
      List.not_mem_nil, or_false, false_or] at hw
    obtain ⟨i, -, hw⟩ := hw
    cases mem_repost hw
  case latSendRecv.client =>
    simp only [Config.main, latSendRecv, List.mem_flatMap, List.mem_append, List.mem_cons, reduceCtorEq,
      List.not_mem_nil, or_false, false_or, List.mem_replicate, and_false] at hw
    obtain ⟨i, -, hw⟩ := hw
    cases mem_repost hw
  case bwRdmaWrite.server => simp [Config.main, bwRdmaWrite] at hw
  case bwRdmaWrite.client => simp [Config.main, bwRdmaWrite, Party.peer]
  case latRdmaWrite.server => simp [Config.main, latRdmaWrite, Party.peer]
  case latRdmaWrite.client => simp [Config.main, latRdmaWrite, Party.peer]

/-- In every interleaving, whatever the benchmark and the mode. When the client
connects to `port + 1` the server listens there and has not closed the socket; of
the teardown exchange this is said where neither a data call of the server fails nor
its `accept` of that exchange. A side
that posts a send or a write has a peer whose queue pair has left INIT, and one that
posts a write a peer with its region registered and its doorbell cleared. -/
theorem bring_up_ordered (cfg : Config) (h : (system cfg).Reach s) :
    (∀ k, next cfg.program s .client = some (.connect .mr k) → k = 0 ∨ ¬ cfg.Refuses → Listening s .mr) ∧
    (∀ p, next cfg.program s p = some .postSend ∨ next cfg.program s p = some .postWrite → LeftInit s p.peer) ∧
    ∀ p, next cfg.program s p = some .postWrite → .mrReg ∈ s p.peer ∧ .clearDoorbell ∈ s p.peer := by
  refine ⟨fun k hn hk => ⟨server_listens h hn rfl, ?_⟩, fun p hn => ?_, fun p hn => ?_⟩
  · rcases connect_cases (List.mem_of_getElem? hn) with rfl | ⟨rfl, hs⟩
    · exact listener_open h (accept_precedes_close cfg) hn
    · have hf : ¬ cfg.Refuses := hk.resolve_left (by decide)
      exact listener_open h (sync_precedes_close hs hf) hn
  · have hsent : .sendInfo .mr 0 ∈ s p.peer := by
      rcases hn with hn | hn
      · exact exchanged h hn rfl (exchange_notMem (.inl rfl))
      · exact exchanged h hn rfl (exchange_notMem (.inr rfl))
    obtain ⟨o, ho, hl⟩ := setup_leaves_init cfg p.peer
    exact ⟨o, announced h hsent ho, hl⟩
  · have hsent : .sendInfo .mr 0 ∈ s p.peer := exchanged h hn rfl (exchange_notMem (.inr rfl))
    obtain ⟨hreg, hclear⟩ := written_prepared (postWrite_mem_calls (List.mem_of_getElem? hn))
    exact ⟨announced h hsent hreg, announced h hsent hclear⟩

/-- `bw_rdma_write` over the connection manager. The client connects to `port + 1`
while the server is still in `rai_cm_accept_qp`, and later posts its first write. -/
theorem bring_up_ordered_bw_cm :
    let cfg : Config := ⟨.bwRdmaWrite, .cm, 21, 16, [16, 5], fun _ => none⟩
    let acts : List Party := [.server, .client, .client, .client, .server, .server, .server, .server, .server, .server,
      .server, .client, .client]
    (∃ s, (system cfg).exec acts (fun _ => []) = some s ∧ next cfg.program s .client = some (.connect .mr 0) ∧
      next cfg.program s .server = some .cmEstablished ∧ Listening s .mr) ∧
    ∃ s, (system cfg).exec (acts ++ [.client, .server, .server, .server, .client, .client, .client]) (fun _ => []) = some s ∧
      next cfg.program s .client = some .postWrite ∧ LeftInit s .server ∧ .mrReg ∈ s .server ∧
      .clearDoorbell ∈ s .server := by
  intro cfg acts
  refine ⟨?_, ?_⟩
  · have hrun : ((system cfg).exec acts fun _ => []).map
        (fun s => (next cfg.program s .client, next cfg.program s .server)) =
        some (some (.connect .mr 0), some .cmEstablished) := by decide +kernel
    obtain ⟨s, hs, heq⟩ := Option.map_eq_some_iff.mp hrun
    simp only [Prod.mk.injEq] at heq
    obtain ⟨hconnect, -, -⟩ := bring_up_ordered cfg (Lts.Reach.exec (Lts.Reach.init rfl) hs)
    exact ⟨s, hs, heq.1, heq.2, hconnect 0 heq.1 (.inl rfl)⟩
  · have hrun : ((system cfg).exec (acts ++ [.client, .server, .server, .server, .client, .client, .client])
        fun _ => []).map (fun s => next cfg.program s .client) = some (some .postWrite) := by decide +kernel
    obtain ⟨s, hs, heq⟩ := Option.map_eq_some_iff.mp hrun
    obtain ⟨-, hleft, hwrite⟩ := bring_up_ordered cfg (Lts.Reach.exec (Lts.Reach.init rfl) hs)
    exact ⟨s, hs, heq, hleft .client (.inr heq), hwrite .client heq⟩

/-- `lat_rdma_write` with one measured iteration. No setup call fails; the one
that fails is the server's last `rai_poll_cq`, after its last write has landed at
the client. The server then closes the listener at `out`, and the client, past its
own loop, connects for the teardown exchange. -/
theorem teardown_connect_refused :
    let cfg : Config := ⟨.latRdmaWrite, .verbs, 21, 16, [], fun | .server => some 62 | .client => none⟩
    let setup : List (Nat × Party) := [(3, .server), (2, .client), (2, .server), (2, .client), (6, .server), (5, .client),
      (2, .server), (3, .client), (1, .server)]
    let iteration : List Party := [.client, .server, .server, .client, .client, .server]
    let acts := setup.flatMap (fun (n, p) => List.replicate n p) ++ (List.replicate 21 iteration).flatten
    (cfg.main .server).calls[62]? = some .pollCq ∧ (cfg.main .server).calls.length = 63 ∧
      ∃ s, (system cfg).exec acts (fun _ => []) = some s ∧ next cfg.program s .client = some (.connect .mr 1) ∧
        ¬ Listening s .mr := by
  intro cfg setup iteration acts
  have hrun : ((system cfg).exec acts fun _ => []).map
      (fun s => (next cfg.program s .client, decide (Listening s .mr))) = some (some (.connect .mr 1), false) := by
    decide +kernel
  obtain ⟨s, hs, heq⟩ := Option.map_eq_some_iff.mp hrun
  simp only [Prod.mk.injEq, decide_eq_false_iff_not] at heq
  exact ⟨rfl, rfl, s, hs, heq.1, heq.2⟩

end RdmaInfra.Verbs.BringUp
