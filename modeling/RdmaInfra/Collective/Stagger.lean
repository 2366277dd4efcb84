/-
Why the parity stagger of the blocking path cannot deadlock.

In every round a rank sends and receives one length, even ranks sending first
and odd ranks receiving first. Take a rank with as many unfinished rounds as
any. If it waits to send, its right neighbour still has to receive bytes of
the very round it is in, so that neighbour is in the same round, has not
received yet and, since it does not receive now, waits to send first: it is
even. So is its own right neighbour, and so on round the ring, which has an
odd rank. A rank that waits to receive makes its left neighbours all odd in
the same way, and rank 0 is even. The argument compares what is left to move
on the two ends of a link, so it does not matter how the bytes are cut up or
how many the link holds.
-/
import Mathlib.Data.Finset.Max
import Mathlib.Data.Fintype.Basic
import Mathlib.Data.List.Infix
import RdmaInfra.Collective.Chunks

namespace RdmaInfra.Collective

inductive Dir
  | send
  | recv
  deriving DecidableEq, Repr

/-- A transfer: its direction and its length in bytes. -/
abbrev Transfer := Dir × Nat

def Op.transfer : Op → Option Transfer
  | .sendAsync _ len _ _ => some (.send, len)
  | .recvAsync _ len _ _ => some (.recv, len)
  | _ => none

/-- The transfers a program makes, in order. -/
def transfers (ops : List Op) : List Transfer := ops.filterMap Op.transfer

theorem transfers_cons_some {op : Op} {t ops} (h : op.transfer = some t) :
    transfers (op :: ops) = t :: transfers ops := List.filterMap_cons_some h

theorem transfers_cons_none {op : Op} {ops} (h : op.transfer = none) : transfers (op :: ops) = transfers ops :=
  List.filterMap_cons_none h

theorem transfers_append (ops ops' : List Op) : transfers (ops ++ ops') = transfers ops ++ transfers ops' :=
  List.filterMap_append

/-- The bytes `ts` moves in direction `d`. -/
def volume (d : Dir) (ts : List Transfer) : Nat := (ts.map fun t => if t.1 = d then t.2 else 0).sum

/-- What a rank does first in a round, and what second. -/
def firstDir (even : Bool) : Dir := if even then .send else .recv

def secondDir (even : Bool) : Dir := if even then .recv else .send

/-- The transfers of rounds of lengths `ls`. -/
def schedule (even : Bool) (ls : List Nat) : List Transfer :=
  ls.flatMap fun l => [(firstDir even, l), (secondDir even, l)]

theorem schedule_cons (even : Bool) (l ls) :
    schedule even (l :: ls) = (firstDir even, l) :: (secondDir even, l) :: schedule even ls := rfl

theorem volume_cons (d : Dir) (t : Transfer) (ts) :
    volume d (t :: ts) = (if t.1 = d then t.2 else 0) + volume d ts := by
  simp [volume]

theorem volume_append (d : Dir) (ts ts' : List Transfer) : volume d (ts ++ ts') = volume d ts + volume d ts' := by
  simp [volume]

theorem volume_schedule (d : Dir) (even : Bool) (ls : List Nat) : volume d (schedule even ls) = ls.sum := by
  induction ls with
  | nil => rfl
  | cons l ls ih =>
    rw [schedule_cons, volume_cons, volume_cons, ih, List.sum_cons]
    cases even <;> cases d <;> simp [firstDir, secondDir]

/-- `ts` is left to do and `ls` are the rounds not finished: none of the first
is done, or its first half is. -/
inductive RoundsLeft (even : Bool) : List Transfer → List Nat → Prop
  | whole : RoundsLeft even (schedule even ls) ls
  | half : RoundsLeft even ((secondDir even, l) :: schedule even ls) (l :: ls)

theorem exists_roundsLeft {even : Bool} {ts ls} (h : ts <:+ schedule even ls) :
    ∃ left, left <:+ ls ∧ RoundsLeft even ts left := by
  induction ls with
  | nil =>
    obtain rfl : ts = [] := List.suffix_nil.mp h
    have h0 : RoundsLeft even (schedule even []) [] := .whole
    exact ⟨[], List.suffix_rfl, h0⟩
  | cons l ls ih =>
    rw [schedule_cons, List.suffix_cons_iff, List.suffix_cons_iff] at h
    rcases h with h | h | h
    · rw [← schedule_cons] at h
      exact ⟨l :: ls, List.suffix_rfl, h ▸ .whole⟩
    · exact ⟨l :: ls, List.suffix_rfl, h ▸ .half⟩
    · obtain ⟨left, hl, hr⟩ := ih h
      exact ⟨left, hl.trans (List.suffix_cons l ls), hr⟩

namespace RoundsLeft

variable {even : Bool} {ts : List Transfer} {ls : List Nat}

theorem volume_le (d : Dir) (h : RoundsLeft even ts ls) : volume d ts ≤ ls.sum := by
  cases h with
  | whole => rw [volume_schedule]
  | half =>
    rw [volume_cons, volume_schedule, List.sum_cons]
    split <;> simp

/-- A rank about to make the transfer `(d, l)`: `l` is its round, and if it
makes it second, the other direction has nothing of that round left. -/
theorem head {d l} (h : RoundsLeft even ((d, l) :: ts) ls) :
    ∃ rest, ls = l :: rest ∧ volume d ts = rest.sum ∧
      (d = firstDir even ∨ ∀ d', d' ≠ d → volume d' ts = rest.sum) := by
  generalize hc : (d, l) :: ts = cs at h
  cases h with
  | whole =>
    cases ls with
    | nil => cases hc
    | cons l' rest =>
      rw [schedule_cons, List.cons.injEq, Prod.mk.injEq] at hc
      obtain ⟨⟨rfl, rfl⟩, rfl⟩ := hc
      refine ⟨rest, rfl, ?_, .inl rfl⟩
      rw [volume_cons, volume_schedule]
      cases even <;> simp [firstDir, secondDir]
  | half =>
    rw [List.cons.injEq, Prod.mk.injEq] at hc
    obtain ⟨⟨rfl, rfl⟩, rfl⟩ := hc
    exact ⟨_, rfl, volume_schedule .., .inr fun d' _ => volume_schedule ..⟩

theorem eq_nil (h : RoundsLeft even [] ls) : ls = [] := by
  generalize hc : [] = cs at h
  cases h with
  | whole =>
    cases ls with
    | nil => rfl
    | cons => cases hc
  | half => cases hc

end RoundsLeft

/-! ## The ring -/

/-- Of two ranks' unfinished rounds, those of the one that is further on are
all among the later rounds of the other. -/
theorem sum_le_of_suffix {all ls ls' : List Nat} {l} (h : ls <:+ all) (h' : l :: ls' <:+ all)
    (hl : ls.length < (l :: ls').length) : ls.sum ≤ ls'.sum := by
  have hs : ls <:+ l :: ls' := List.suffix_of_suffix_length_le h h' hl.le
  rw [List.suffix_cons_iff] at hs
  rcases hs with rfl | hs
  · exact absurd hl (lt_irrefl _)
  · obtain ⟨a, rfl⟩ := hs
    simp

def isEven (r : Fin N) : Bool := r.val % 2 == 0

/-- The part of `moved` that is of direction `d`, where `ts` is left to do. -/
def movedIn (d : Dir) (ts : List Transfer) (moved : Nat) : Nat :=
  match ts with
  | [] => 0
  | t :: _ => if t.1 = d then moved else 0

/-- The next transfer is of direction `d`, with `moved` bytes of it moved and
some not. -/
def Waits (d : Dir) (ts : List Transfer) (moved : Nat) : Prop := ∃ l rest, ts = (d, l) :: rest ∧ moved < l

section Ring

variable {N : Nat} {all : List Nat} {ts : Fin N → List Transfer} {ls : Fin N → List Nat} {moved : Fin N → Nat}

/-- Rank `q` is in a round of length `l` and no rank has more rounds left. A
rank with bytes of that round to move the other way is in that round too, and
if it waits in the same direction as `q`, it makes that direction first. -/
theorem same_round (hall : ∀ r, ls r <:+ all) (hls : ∀ r, RoundsLeft (isEven r) (ts r) (ls r)) {q : Fin N}
    (q' : Fin N) {d d' : Dir} {l rest} (hd : d' ≠ d) (hq : ls q = l :: rest) (hmax : ∀ r, (ls r).length ≤ (ls q).length)
    (hvol : rest.sum < volume d' (ts q')) :
    ls q' = ls q ∧ ∀ m, Waits d (ts q') m → firstDir (isEven q') = d := by
  have hq' := hq ▸ hall q
  have hle : (ls q).length ≤ (ls q').length := by
    by_contra hc
    have h1 := sum_le_of_suffix (hall q') hq' (by rw [← hq]; omega)
    have h2 := (hls q').volume_le d'
    omega
  have heq : ls q' = ls q :=
    (List.suffix_of_suffix_length_le (hall q') (hall q) (hmax q')).eq_of_length (le_antisymm (hmax q') hle)
  refine ⟨heq, ?_⟩
  rintro m ⟨l', tl, hts, -⟩
  have hr := hls q'
  rw [hts, heq, hq] at hr
  obtain ⟨rest', hc, -, hfirst⟩ := hr.head
  cases hc
  rcases hfirst with h | h
  · exact h.symm
  · have := h d' hd
    rw [hts, volume_cons, if_neg hd.symm] at hvol
    omega

/-- Where every rank is done or waits, no link joins two ranks that wait for
each other, and no link with a waiting receiver has bytes queued, every rank
is done. -/
theorem stagger_done (hN : 2 ≤ N) (queued : Fin N → Nat)
    (hs : ∀ r, ts r <:+ schedule (isEven r) all)
    (hlink : ∀ r, volume .recv (ts (right r)) + movedIn .send (ts r) (moved r) =
      volume .send (ts r) + movedIn .recv (ts (right r)) (moved (right r)) + queued r)
    (hw : ∀ r, ts r = [] ∨ ∃ d, Waits d (ts r) (moved r))
    (hq : ∀ r, Waits .recv (ts (right r)) (moved (right r)) → queued r = 0 ∧ ¬ Waits .send (ts r) (moved r)) :
    ∀ r, ts r = [] := by
  choose ls hall hls using fun r => exists_roundsLeft (hs r)
  have hnil : ∀ r, ls r ≠ [] → ∃ d, Waits d (ts r) (moved r) := by
    intro r hne
    rcases hw r with h | h
    · have hr := hls r
      rw [h] at hr
      have := hr.eq_nil
      exact absurd this hne
    · exact h
  -- `m` is a rank with as many rounds left as any.
  obtain ⟨m, -, hmax⟩ := Finset.exists_max_image Finset.univ (fun r => (ls r).length) ⟨⟨0, by omega⟩, Finset.mem_univ _⟩
  have hmax : ∀ r, (ls r).length ≤ (ls m).length := fun r => hmax r (Finset.mem_univ r)
  by_cases hm : ls m = []
  · intro r
    rcases hw r with h | ⟨d, l, rest, h, -⟩
    · exact h
    · have hr := hls r
      rw [h] at hr
      obtain ⟨_, hc, -⟩ := hr.head
      have := hmax r
      simp [hc, hm] at this
  exfalso
  obtain ⟨d, hd⟩ := hnil m hm
  cases d with
  | send =>
    -- All round the ring to the right: waiting to send, in the same round, even.
    have hstep : ∀ r, (Waits .send (ts r) (moved r) ∧ ls r = ls m) →
        (Waits .send (ts (right r)) (moved (right r)) ∧ ls (right r) = ls m) ∧ isEven (right r) = true := by
      rintro r ⟨hwr, hlr⟩
      obtain ⟨l, tl, hts, hlt⟩ := id hwr
      have hr := hls r
      rw [hts] at hr
      obtain ⟨rest, hc, hv, -⟩ := hr.head
      have hl := hlink r
      rw [hts, volume_cons, if_pos rfl, hv, movedIn, if_pos rfl] at hl
      obtain ⟨heq, hfirst⟩ := same_round hall hls (right r) (show Dir.recv ≠ .send by decide) hc
        (hlr ▸ hmax) (by omega)
      obtain ⟨d, hd⟩ := hnil (right r) (by rw [heq, hlr]; exact hm)
      cases d with
      | recv => exact absurd hwr (hq r hd).2
      | send =>
        refine ⟨⟨hd, heq.trans hlr⟩, ?_⟩
        have := hfirst _ hd
        revert this
        cases isEven (right r) <;> simp [firstDir]
    have hev := (hstep _ (all_of_right (fun r h => (hstep r h).1) ⟨hd, rfl⟩ (left ⟨1, hN⟩))).2
    rw [right_left] at hev
    simp [isEven] at hev
  | recv =>
    -- All round the ring to the left: waiting to receive, in the same round, odd.
    have hstep : ∀ r, (Waits .recv (ts r) (moved r) ∧ ls r = ls m) →
        (Waits .recv (ts (left r)) (moved (left r)) ∧ ls (left r) = ls m) ∧ isEven (left r) = false := by
      rintro r ⟨hwr, hlr⟩
      obtain ⟨l, tl, hts, hlt⟩ := id hwr
      have hr := hls r
      rw [hts] at hr
      obtain ⟨rest, hc, hv, -⟩ := hr.head
      have hl := hlink (left r)
      have hql := hq (left r)
      rw [right_left] at hl hql
      obtain ⟨hq0, hns⟩ := hql hwr
      rw [hts, volume_cons, if_pos rfl, hv, hq0] at hl
      simp only [movedIn, if_true] at hl
      obtain ⟨heq, hfirst⟩ := same_round hall hls (left r) (show Dir.send ≠ .recv by decide) hc
        (hlr ▸ hmax) (by omega)
      obtain ⟨d, hd⟩ := hnil (left r) (by rw [heq, hlr]; exact hm)
      cases d with
      | send => exact absurd hd hns
      | recv =>
        refine ⟨⟨hd, heq.trans hlr⟩, ?_⟩
        have := hfirst _ hd
        revert this
        cases isEven (left r) <;> simp [firstDir]
    have hev := (hstep _ (all_of_left (fun r h => (hstep r h).1) ⟨hd, rfl⟩ (right ⟨0, by omega⟩))).2
    rw [left_right] at hev
    simp [isEven] at hev

end Ring

end RdmaInfra.Collective
