/-
Who owns a slot of the KV pool.

`serve` checks the range of a FREE but not that the slot is allocated, so the
free list is a set exactly as long as clients free only what is allocated
(`owned_iff_frees_allocated`): a FREE of a slot that is free already lists it
twice, and two ALLOCs hand it out to two owners.

For clients that free only what they hold, the free list and the slots held
are together every slot once (`Conserved`). The free list is ordered by when
its slots were last freed, so ALLOC answers with the most recent one.
-/
import Mathlib.Data.List.Perm.Basic
import RdmaInfra.KvCache.Server

namespace RdmaInfra.KvCache

/-! ## Along a run -/

/-- Every request `serve` gets to satisfies `P`, which sees the server as it
takes the request. -/
def Along (P : Server → Msg → Prop) (s : Server) : List Msg → Prop
  | [] => True
  | m :: ms =>
    P s m ∧
    match handle s.pool m with
    | .error _ => True
    | .ok (pool, reply) => Along P ⟨pool, (m, reply) :: s.log⟩ ms

section Run

variable {P : Server → Msg → Prop} {s : Server} {ms : List Msg}

theorem serve_ok {m pool reply} (h : handle s.pool m = .ok (pool, reply)) :
    serve s (m :: ms) = serve ⟨pool, (m, reply) :: s.log⟩ ms := by
  simp only [serve, h]

theorem along_ok {m pool reply} (h : handle s.pool m = .ok (pool, reply)) :
    Along P s (m :: ms) ↔ P s m ∧ Along P ⟨pool, (m, reply) :: s.log⟩ ms := by
  simp only [Along, h]

theorem serve_inv {I : Server → Prop}
    (hs : ∀ s m pool reply, I s → P s m → handle s.pool m = .ok (pool, reply) → I ⟨pool, (m, reply) :: s.log⟩)
    (h : I s) (ha : Along P s ms) : I (serve s ms).1 := by
  induction ms generalizing s with
  | nil => exact h
  | cons m ms ih =>
    rcases hh : handle s.pool m with e | ⟨pool, reply⟩
    · simpa only [serve, hh] using h
    · rw [serve_ok hh]
      rw [along_ok hh] at ha
      exact ih (hs s m pool reply h ha.1 hh) ha.2

theorem Along.take (h : Along P s ms) (k : Nat) : Along P s (ms.take k) := by
  induction ms generalizing s k with
  | nil => rw [List.take_nil]; trivial
  | cons m ms ih =>
    cases k with
    | zero => trivial
    | succ k =>
      rw [List.take_succ_cons]
      rcases hh : handle s.pool m with e | ⟨pool, reply⟩
      · simpa only [Along, hh, and_true] using h
      · rw [along_ok hh] at h ⊢
        exact ⟨h.1, ih h.2 k⟩

end Run

/-! ## Whatever the client sends -/

/-- Every slot is free or allocated, and only slots are free. -/
structure Covered (s : Server) : Prop where
  inRange : ∀ i ∈ s.pool.freeList, 0 ≤ i ∧ i < s.pool.numSlots
  cover : ∀ i, 0 ≤ i → i < s.pool.numSlots → i ∈ s.pool.freeList ∨ i ∈ held s.log

/-- Two ALLOCs answered with one slot have an accepted FREE of it between
them, made while it was allocated. -/
def FreedBetween (log : Log) : Prop :=
  ∀ i, 0 ≤ i → ∀ l e₂ l' e₁ l'', log = l ++ e₂ :: (l' ++ e₁ :: l'') → AllocOf i e₂ → AllocOf i e₁ →
    ∃ a e b, l' = a ++ e :: b ∧ FreeOf i e ∧ i ∈ held (b ++ e₁ :: l'')

/-- No slot has two owners: neither by the log nor by what is still free. -/
structure OwnedOnce (s : Server) : Prop where
  between : FreedBetween s.log
  nodup : s.pool.freeList.Nodup
  disjoint : ∀ i ∈ s.pool.freeList, i ∉ held s.log

/-- A FREE the server accepts names a slot that is allocated. -/
def FreesAllocated (s : Server) (m : Msg) : Prop :=
  m.type = KV_MSG_FREE → 0 ≤ m.payload → m.payload < s.pool.numSlots → m.payload ∈ held s.log

section Any

variable {s : Server} {m : Msg} {pool : KVPool} {reply : Int}

theorem start_covered (n : Nat) : Covered (start n) := by
  refine ⟨fun i hi => mem_initFreeList.mp hi, fun i h0 hn => .inl (mem_initFreeList.mpr ⟨h0, hn⟩)⟩

theorem handle_covered (h : Covered s) (hh : handle s.pool m = .ok (pool, reply)) :
    Covered ⟨pool, (m, reply) :: s.log⟩ := by
  obtain ⟨hn, ⟨ht, hnil, hnil', rfl⟩ | ⟨ht, hl⟩ | ⟨ht, hp, hl⟩⟩ := handle_ok hh
  · refine ⟨by simp [hnil'], fun i h0 hi => .inr ?_⟩
    have hc := h.cover i h0 (hn ▸ hi)
    rw [hnil] at hc
    rw [held_alloc ht]
    simpa using hc
  · have hr := h.inRange
    rw [hl] at hr
    refine ⟨fun i hi => hn ▸ hr i (List.mem_append_left _ hi), fun i h0 hi => ?_⟩
    have hc := h.cover i h0 (hn ▸ hi)
    have h0' : 0 ≤ reply := (hr reply (by simp)).1
    rw [held_alloc ht, if_pos h0', List.mem_cons]
    rw [hl, List.mem_append, List.mem_singleton] at hc
    tauto
  · refine ⟨fun i hi => ?_, fun i h0 hi => ?_⟩
    · rw [hl, List.mem_append, List.mem_singleton] at hi
      rcases hi with hi | rfl
      · exact hn ▸ h.inRange i hi
      · exact hn ▸ hp
    · have hc := h.cover i h0 (hn ▸ hi)
      simp only [held_free ht, hl, List.mem_append, List.mem_singleton, List.mem_filter, decide_eq_true_eq]
      tauto

/-- What is no longer held was freed since. -/
theorem exists_free {i : Int} {base : Log} (hb : i ∈ held base) :
    ∀ l, i ∉ held (l ++ base) → ∃ a e b, l = a ++ e :: b ∧ FreeOf i e ∧ i ∈ held (b ++ base) := by
  intro l
  induction l with
  | nil => intro h; exact absurd hb h
  | cons e l ih =>
    intro h
    by_cases hl : i ∈ held (l ++ base)
    · refine ⟨[], e, l, rfl, ?_, hl⟩
      obtain ⟨m, reply⟩ := e
      simp only [List.cons_append, held] at h
      split at h
      · split at h
        · exact absurd (List.mem_cons_of_mem _ hl) h
        · exact absurd hl h
      · split at h
        next ht =>
          refine ⟨ht, ?_⟩
          by_contra hne
          exact h (List.mem_filter.mpr ⟨hl, decide_eq_true (Ne.symm hne)⟩)
        · exact absurd hl h
    · obtain ⟨a, f, b, rfl, hf, hb'⟩ := ih hl
      exact ⟨e :: a, f, b, rfl, hf, hb'⟩

/-- A slot handed out while it is not held keeps the log clean. -/
theorem FreedBetween.cons {log : Log} {e : Msg × Int} (h : FreedBetween log)
    (he : ∀ i, 0 ≤ i → AllocOf i e → i ∉ held log) : FreedBetween (e :: log) := by
  intro i h0 l e₂ l' e₁ l'' hlog h2 h1
  cases l with
  | nil =>
    rw [List.nil_append, List.cons.injEq] at hlog
    obtain ⟨rfl, rfl⟩ := hlog
    have hb : i ∈ held (e₁ :: l'') := by
      obtain ⟨m, reply⟩ := e₁
      obtain ⟨ht, rfl⟩ := h1
      rw [held_alloc ht, if_pos h0]
      exact List.mem_cons_self
    exact exists_free hb l' (he i h0 h2)
  | cons x l =>
    rw [List.cons_append, List.cons.injEq] at hlog
    exact h i h0 l e₂ l' e₁ l'' hlog.2 h2 h1

theorem handle_owned (hc : Covered s) (h : OwnedOnce s) (hf : FreesAllocated s m)
    (hh : handle s.pool m = .ok (pool, reply)) : OwnedOnce ⟨pool, (m, reply) :: s.log⟩ := by
  obtain ⟨hn, ⟨ht, hnil, hnil', rfl⟩ | ⟨ht, hl⟩ | ⟨ht, ⟨hp0, hpn⟩, hl⟩⟩ := handle_ok hh
  · refine ⟨h.between.cons fun i h0 hi => ?_, by simp [hnil'], by simp [hnil']⟩
    have : (-1 : Int) = i := hi.2
    omega
  · have hnd := h.nodup
    have hdj := h.disjoint
    have hr := hc.inRange
    rw [hl] at hnd hdj hr
    refine ⟨h.between.cons fun i h0 hi => ?_, (List.nodup_append.mp hnd).1, fun i hi => ?_⟩
    · obtain rfl : reply = i := hi.2
      exact hdj reply (by simp)
    · have hne : i ≠ reply := (List.nodup_append.mp hnd).2.2 i hi reply (by simp)
      have hnh := hdj i (List.mem_append_left _ hi)
      rw [held_alloc ht, if_pos (hr reply (by simp)).1, List.mem_cons]
      tauto
  · have hin : m.payload ∈ held s.log := hf ht hp0 hpn
    refine ⟨h.between.cons fun i h0 hi => ?_, ?_, fun i hi => ?_⟩
    · have := ht.symm.trans hi.1
      exact absurd this (by decide)
    · rw [hl, List.nodup_append]
      refine ⟨h.nodup, List.nodup_singleton _, fun a ha b hb => ?_⟩
      intro heq
      subst heq
      rw [List.mem_singleton] at hb
      exact h.disjoint a ha (hb ▸ hin)
    · simp only [hl, List.mem_append, List.mem_singleton] at hi
      simp only [held_free ht, List.mem_filter, decide_eq_true_eq, not_and, not_not]
      intro hhi
      rcases hi with hi | hi
      · exact absurd hhi (h.disjoint i hi)
      · exact hi

/-- A FREE of a slot that is not allocated lists it twice. -/
theorem not_owned_of_free (hc : Covered s) (hf : ¬ FreesAllocated s m) :
    ∃ pool reply, handle s.pool m = .ok (pool, reply) ∧ ¬ OwnedOnce ⟨pool, (m, reply) :: s.log⟩ := by
  simp only [FreesAllocated, Classical.not_imp] at hf
  obtain ⟨ht, h0, hn, hnh⟩ := hf
  have hok : handle s.pool m = .ok ({ s.pool with freeList := s.pool.freeList ++ [m.payload] }, 0) := by
    have hta : ¬ m.type = KV_MSG_ALLOC := by rw [ht]; decide
    have hp : ¬ (m.payload < 0 ∨ m.payload ≥ s.pool.numSlots) := by omega
    simp only [handle, if_neg hta, if_pos ht, if_neg hp]
  refine ⟨_, _, hok, fun h => ?_⟩
  have hin : m.payload ∈ s.pool.freeList := (hc.cover _ h0 hn).resolve_right hnh
  exact (List.nodup_append.mp h.nodup).2.2 _ hin _ (List.mem_singleton_self _) rfl

end Any

theorem start_owned (n : Nat) : OwnedOnce (start n) := by
  refine ⟨fun i _ l e₂ l' e₁ l'' h => ?_, ?_, fun i _ => by simp [start, held]⟩
  · simp [start] at h
  · exact nodup_initFreeList n

/-- No slot ever has two owners, in any state of a history, exactly when every
FREE that `serve` accepts in it names a slot allocated at that moment. -/
theorem owned_iff_frees_allocated (n : Nat) (ms : List Msg) :
    (∀ k, OwnedOnce (serve (start n) (ms.take k)).1) ↔ Along FreesAllocated (start n) ms := by
  constructor
  · suffices hs : ∀ (ms : List Msg) (s : Server), Covered s → (∀ k, OwnedOnce (serve s (ms.take k)).1) →
        Along FreesAllocated s ms from hs ms _ (start_covered n)
    intro ms
    induction ms with
    | nil => intro s _ _; trivial
    | cons m ms ih =>
      intro s hc ho
      have hf : FreesAllocated s m := by
        by_contra hf
        obtain ⟨pool, reply, hh, hno⟩ := not_owned_of_free hc hf
        have := ho 1
        rw [List.take_succ_cons, serve_ok hh] at this
        exact hno this
      rcases hh : handle s.pool m with e | ⟨pool, reply⟩
      · simpa only [Along, hh, and_true] using hf
      · rw [along_ok hh]
        refine ⟨hf, ih _ (handle_covered hc hh) fun k => ?_⟩
        have := ho (k + 1)
        rwa [List.take_succ_cons, serve_ok hh] at this
  · intro ha k
    have hI := serve_inv (I := fun s => Covered s ∧ OwnedOnce s)
      (fun s m pool reply h hf hh => ⟨handle_covered h.1 hh, handle_owned h.1 h.2 hf hh⟩)
      ⟨start_covered n, start_owned n⟩ (ha.take k)
    exact hI.2

/-- A client that frees its slot twice: the next two ALLOCs are both answered
with it. -/
theorem double_free_owned_twice :
    let ms : List Msg := [⟨KV_MSG_ALLOC, 0⟩, ⟨KV_MSG_FREE, 0⟩, ⟨KV_MSG_FREE, 0⟩, ⟨KV_MSG_ALLOC, 0⟩, ⟨KV_MSG_ALLOC, 0⟩]
    ((serve (start 1) ms).1.log.map Prod.snd = [0, 0, 0, 0, 0] ∧ held (serve (start 1) ms).1.log = [0, 0]) ∧
      ¬ (serve (start 1) (ms.take 3)).1.pool.freeList.Nodup ∧
      ¬ ∀ k, OwnedOnce (serve (start 1) (ms.take k)).1 := by
  intro ms
  have hd : ¬ (serve (start 1) (ms.take 3)).1.pool.freeList.Nodup := by decide
  exact ⟨by decide, hd, fun h => hd (h 3).nodup⟩

/-! ## Clients that free what they hold -/

/-- A FREE names a slot the client holds. -/
def FreesHeld (s : Server) (m : Msg) : Prop := m.type = KV_MSG_FREE → m.payload ∈ held s.log

/-- When slot `i` was last freed. Slots never freed come before those that
were, in the order `main` lists them. -/
def stamp (n : Nat) : Log → Int → Int
  | [], i => i
  | (m, _) :: log, i => if m.type = KV_MSG_FREE ∧ m.payload = i then n + log.length else stamp n log i

/-- The free list and the slots held are together every slot once, and the
free list is in the order its slots were last freed. -/
structure Conserved (n : Nat) (s : Server) : Prop where
  numSlots : s.pool.numSlots = n
  perm : (s.pool.freeList ++ held s.log).Perm (initFreeList n)
  lifo : s.pool.freeList.Pairwise fun i j => stamp n s.log i < stamp n s.log j

section WellBehaved

variable {n : Nat} {s : Server} {m : Msg} {pool : KVPool} {reply : Int}

theorem stamp_lt {log : Log} {i : Int} (h : i < n) : stamp n log i < n + log.length := by
  induction log with
  | nil => simpa [stamp] using h
  | cons e log ih =>
    simp only [stamp, List.length_cons]
    split <;> omega

theorem stamp_alloc {log : Log} {i : Int} (h : m.type = KV_MSG_ALLOC) :
    stamp n ((m, reply) :: log) i = stamp n log i := by
  simp [stamp, h, show KV_MSG_ALLOC ≠ KV_MSG_FREE by decide]

theorem stamp_free {log : Log} {i : Int} (h : m.type = KV_MSG_FREE) :
    stamp n ((m, reply) :: log) i = if m.payload = i then (n + log.length : Int) else stamp n log i := by
  simp [stamp, h]

namespace Conserved

theorem nodup (h : Conserved n s) : (s.pool.freeList ++ held s.log).Nodup :=
  h.perm.nodup_iff.mpr (nodup_initFreeList n)

theorem mem_iff (h : Conserved n s) {i : Int} : i ∈ s.pool.freeList ∨ i ∈ held s.log ↔ 0 ≤ i ∧ i < n := by
  rw [← List.mem_append, h.perm.mem_iff, mem_initFreeList]

theorem length (h : Conserved n s) : s.pool.freeList.length + (held s.log).length = n := by
  rw [← List.length_append, h.perm.length_eq]
  simp [initFreeList]

/-- An ALLOC moves the last free slot over to the client. -/
theorem alloc (h : Conserved n s) (ht : m.type = KV_MSG_ALLOC) (hn : pool.numSlots = s.pool.numSlots)
    (hl : s.pool.freeList = pool.freeList ++ [reply]) : Conserved n ⟨pool, (m, reply) :: s.log⟩ := by
  have h0 : 0 ≤ reply := (h.mem_iff.mp (.inl (by rw [hl]; simp))).1
  have hp := h.perm
  have hlifo := h.lifo
  rw [hl] at hp hlifo
  refine ⟨hn.trans h.numSlots, ?_, ?_⟩
  · rw [held_alloc ht, if_pos h0]
    simpa using hp
  · simp only [stamp_alloc ht]
    exact (List.pairwise_append.mp hlifo).1

/-- A FREE of a slot held moves it back, as the most recent. -/
theorem free (h : Conserved n s) (ht : m.type = KV_MSG_FREE) (hin : m.payload ∈ held s.log)
    (hn : pool.numSlots = s.pool.numSlots) (hl : pool.freeList = s.pool.freeList ++ [m.payload]) :
    Conserved n ⟨pool, (m, reply) :: s.log⟩ := by
  obtain ⟨-, hhn, hdj⟩ := List.nodup_append.mp h.nodup
  refine ⟨hn.trans h.numSlots, ?_, ?_⟩
  · have herase : (held s.log).filter (· ≠ m.payload) = (held s.log).erase m.payload := by
      rw [hhn.erase_eq_filter]
      refine List.filter_congr fun i _ => ?_
      simp [bne]
      rfl
    rw [held_free ht, hl, herase, List.append_assoc, List.singleton_append]
    exact ((List.perm_cons_erase hin).symm.append_left _).trans h.perm
  · have hne : ∀ i ∈ s.pool.freeList, m.payload ≠ i := fun i hi he => hdj i hi _ hin he.symm
    simp only [hl, stamp_free ht]
    rw [List.pairwise_append]
    refine ⟨h.lifo.imp_of_mem fun {i j} hi hj hij => ?_, List.pairwise_singleton _ _, fun i hi j hj => ?_⟩
    · rw [if_neg (hne i hi), if_neg (hne j hj)]
      exact hij
    · rw [List.mem_singleton] at hj
      subst hj
      rw [if_neg (hne i hi), if_pos rfl]
      exact stamp_lt (h.mem_iff.mp (.inl hi)).2

theorem handle (h : Conserved n s) (hf : FreesHeld s m) (hh : KvCache.handle s.pool m = .ok (pool, reply)) :
    Conserved n ⟨pool, (m, reply) :: s.log⟩ := by
  obtain ⟨hn, ⟨ht, hnil, hnil', rfl⟩ | ⟨ht, hl⟩ | ⟨ht, -, hl⟩⟩ := handle_ok hh
  · have hp := h.perm
    rw [hnil] at hp
    refine ⟨hn.trans h.numSlots, ?_, by simp [hnil']⟩
    rw [hnil', held_alloc ht]
    exact hp
  · exact h.alloc ht hn hl
  · exact h.free ht (hf ht) hn hl

theorem handle_free (h : Conserved n s) {i : Int} (hi : i ∈ held s.log) :
    KvCache.handle s.pool ⟨KV_MSG_FREE, i⟩ = .ok ({ s.pool with freeList := s.pool.freeList ++ [i] }, 0) := by
  have hr := h.mem_iff.mp (.inr hi)
  have hp : ¬ (i < 0 ∨ i ≥ s.pool.numSlots) := by rw [h.numSlots]; omega
  simp only [KvCache.handle, if_neg hp, show ¬ KV_MSG_FREE = KV_MSG_ALLOC by decide, if_false, if_true]

/-- What ALLOC answers next. -/
theorem next_alloc (h : Conserved n s) (payload : Int) :
    ∃ pool reply, KvCache.handle s.pool ⟨KV_MSG_ALLOC, payload⟩ = .ok (pool, reply) ∧
      (reply = -1 ↔ (held s.log).length = n) ∧
      (reply ≠ -1 → (0 ≤ reply ∧ reply < n) ∧ reply ∉ held s.log ∧
        ∀ j : Int, 0 ≤ j → j < n → j ∉ held s.log → j ≠ reply → stamp n s.log j < stamp n s.log reply) := by
  have hlen := h.length
  rcases hl : s.pool.freeList.getLast? with _ | i
  · have hnil := List.getLast?_eq_none_iff.mp hl
    rw [hnil, List.length_nil] at hlen
    refine ⟨s.pool, -1, by simp [KvCache.handle, hl], by simp; omega, fun h => absurd rfl h⟩
  · have hfl := List.dropLast_append_getLast? _ hl
    have hmem : i ∈ s.pool.freeList := List.mem_of_getLast? hl
    have hr := h.mem_iff.mp (.inl hmem)
    have hpos : 0 < s.pool.freeList.length := List.length_pos_of_mem hmem
    refine ⟨{ s.pool with freeList := s.pool.freeList.dropLast }, i, by simp [KvCache.handle, hl], by omega,
      fun _ => ⟨hr, fun hh => (List.nodup_append.mp h.nodup).2.2 i hmem i hh rfl, fun j h0 hn hnh hne => ?_⟩⟩
    have hj : j ∈ s.pool.freeList := (h.mem_iff.mpr ⟨h0, hn⟩).resolve_right hnh
    have hlifo := h.lifo
    rw [← hfl] at hj hlifo
    rw [List.mem_append, List.mem_singleton] at hj
    exact (List.pairwise_append.mp hlifo).2.2 j (hj.resolve_right hne) i (List.mem_singleton_self i)

/-- Freeing everything held, in any order, is accepted throughout and leaves
every slot free. -/
theorem free_all (h : Conserved n s) {order : List Int} (ho : order.Perm (held s.log)) :
    ∃ s', serve s (order.map fun i => ⟨KV_MSG_FREE, i⟩) = (s', none) ∧ held s'.log = [] ∧
      s'.pool.freeList.Perm (initFreeList n) := by
  induction order generalizing s with
  | nil =>
    have hnil : held s.log = [] := List.nil_perm.mp ho
    have hp := h.perm
    rw [hnil, List.append_nil] at hp
    exact ⟨s, rfl, hnil, hp⟩
  | cons i order ih =>
    have hi : i ∈ held s.log := ho.mem_iff.mp List.mem_cons_self
    have hh := h.handle_free hi
    rw [List.map_cons, serve_ok hh]
    refine ih (h.free rfl hi rfl rfl) ?_
    have hhn := (List.nodup_append.mp h.nodup).2.1
    rw [held_free rfl]
    have hnd : (i :: order).Nodup := ho.nodup_iff.mpr hhn
    have hf := ho.filter (· ≠ i)
    rw [List.filter_cons_of_neg (by simp)] at hf
    rwa [List.filter_eq_self.mpr] at hf
    intro j hj
    have : j ≠ i := fun he => (List.nodup_cons.mp hnd).1 (he ▸ hj)
    simpa using this

end Conserved

theorem start_conserved (n : Nat) : Conserved n (start n) := by
  refine ⟨rfl, by simp [start, held], ?_⟩
  simp only [start, stamp, initFreeList]
  rw [List.pairwise_map]
  exact List.pairwise_lt_range.imp fun h => Int.ofNat_lt.mpr h

theorem serve_conserved {ms : List Msg} (h : Along FreesHeld (start n) ms) : Conserved n (serve (start n) ms).1 :=
  serve_inv (fun _ _ _ _ h hf hh => Conserved.handle h hf hh) (start_conserved n) h

/-- A client that frees only what it holds never hits the range check. -/
theorem serve_no_slotIdxInvalid {ms : List Msg} (h : Conserved n s) (ha : Along FreesHeld s ms) :
    (serve s ms).2 ≠ some .slotIdxInvalid := by
  induction ms generalizing s with
  | nil => simp [serve]
  | cons m ms ih =>
    rcases hh : handle s.pool m with e | ⟨pool, reply⟩
    · simp only [serve, hh, ne_eq, Option.some.injEq]
      intro heq
      subst heq
      simp only [handle] at hh
      split at hh
      · split at hh <;> cases hh
      next hta =>
        split at hh
        next ht =>
          split at hh
          next hp =>
            have := h.mem_iff.mp (.inr (ha.1 ht))
            rw [h.numSlots] at hp
            omega
          · cases hh
        · cases hh
    · rw [serve_ok hh]
      rw [along_ok hh] at ha
      exact ih (h.handle ha.1 hh) ha.2

end WellBehaved

/-- For every history of a client that frees only what it holds, in the state
it leads to: the range check never failed; the free list and the slots held
are every slot once; ALLOC answers -1 just when all slots are held, and
otherwise with a slot not held, the one freed last; and freeing what is held
makes every slot free again. -/
theorem serve_conservation (n : Nat) (ms : List Msg) (h : Along FreesHeld (start n) ms) :
    let s := (serve (start n) ms).1
    (serve (start n) ms).2 ≠ some .slotIdxInvalid ∧
    (s.pool.freeList ++ held s.log).Perm (initFreeList n) ∧
    (∀ payload, ∃ pool reply, handle s.pool ⟨KV_MSG_ALLOC, payload⟩ = .ok (pool, reply) ∧
      (reply = -1 ↔ (held s.log).length = n) ∧
      (reply ≠ -1 → (0 ≤ reply ∧ reply < n) ∧ reply ∉ held s.log ∧
        ∀ j : Int, 0 ≤ j → j < n → j ∉ held s.log → j ≠ reply → stamp n s.log j < stamp n s.log reply)) ∧
    (∀ order : List Int, order.Perm (held s.log) →
      ∃ s', serve s (order.map fun i => ⟨KV_MSG_FREE, i⟩) = (s', none) ∧ held s'.log = [] ∧
        s'.pool.freeList.Perm (initFreeList n)) := by
  have hc := serve_conserved h
  exact ⟨serve_no_slotIdxInvalid (start_conserved n) h, hc.perm, hc.next_alloc, fun _ ho => hc.free_all ho⟩

/-- Two slots taken, the first one given back: it is the one free slot. -/
theorem serve_conservation_two_slots :
    let ms : List Msg := [⟨KV_MSG_ALLOC, 0⟩, ⟨KV_MSG_ALLOC, 0⟩, ⟨KV_MSG_FREE, 1⟩]
    held (serve (start 2) ms).1.log = [0] ∧
      ((serve (start 2) ms).1.pool.freeList ++ held (serve (start 2) ms).1.log).Perm (initFreeList 2) := by
  intro ms
  have ha : Along FreesHeld (start 2) ms :=
    ⟨fun h => absurd h (by decide), fun h => absurd h (by decide), fun _ => by decide, trivial⟩
  exact ⟨by decide, (serve_conservation 2 ms ha).2.1⟩

end RdmaInfra.KvCache
