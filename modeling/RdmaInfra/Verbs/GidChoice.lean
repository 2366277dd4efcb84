/-
The preference order of `find_roce_v2_gid`: IPv4-mapped, then anything that
is not link-local, then link-local, and within each the smallest index.

The loop makes one pass with an early return and two remembered candidates.
`findRoceV2GidFrom_eq` says what a pass from any index with any candidates
answers; the rest reads it at the start of the table.
-/
import Mathlib.Order.Bounds.Basic
import RdmaInfra.Verbs.Gid

namespace RdmaInfra.Verbs

/-- The entry of a table slot is a readable RoCE v2 GID that passes `p`. -/
def offers (p : Gid → Bool) : Option GidEntry → Bool
  | none => false
  | some e => e.gidType = .roceV2 ∧ p e.gid

/-- The indices of a table's readable RoCE v2 entries whose GID passes `p`. -/
def GidTable.roceV2 (table : GidTable) (p : Gid → Bool) : Set Nat :=
  {i | ∃ e, table[i]? = some (some e) ∧ e.gidType = .roceV2 ∧ p e.gid}

def gidIsRoutable (g : Gid) : Bool := !gidIsLinkLocal g

namespace GidTable

theorem mem_roceV2_iff {table : GidTable} {p : Gid → Bool} {i : Nat} :
    i ∈ table.roceV2 p ↔ ∃ h : i < table.length, offers p table[i] := by
  unfold roceV2
  simp only [Set.mem_ofPred_eq, List.getElem?_eq_some_iff]
  constructor
  · intro h
    obtain ⟨e, ⟨hi, he⟩, ht, hp⟩ := h
    exact ⟨hi, by simp [offers, he, ht, hp]⟩
  · intro h
    obtain ⟨hi, ho⟩ := h
    cases he : table[i] with
    | none => simp [offers, he] at ho
    | some e =>
      simp only [offers, he, decide_eq_true_eq] at ho
      exact ⟨e, ⟨hi, he⟩, ho⟩

/-- A scan that finds an index finds the smallest one. -/
theorem isLeast_of_findIdx? {table : GidTable} {p : Gid → Bool} {i : Nat}
    (h : table.findIdx? (offers p) = some i) : IsLeast (table.roceV2 p) i := by
  obtain ⟨hi, ho, hlt⟩ := List.findIdx?_eq_some_iff_getElem.mp h
  refine ⟨mem_roceV2_iff.mpr ⟨hi, ho⟩, fun j hj => ?_⟩
  obtain ⟨hjl, hjo⟩ := mem_roceV2_iff.mp hj
  by_contra hc
  exact hlt j (by omega) hjo

theorem roceV2_eq_empty_iff {table : GidTable} {p : Gid → Bool} :
    table.roceV2 p = ∅ ↔ table.findIdx? (offers p) = none := by
  rw [List.findIdx?_eq_none_iff]
  constructor
  · intro h o ho
    obtain ⟨i, hi, rfl⟩ := List.getElem_of_mem ho
    by_contra hc
    have hmem : i ∈ table.roceV2 p := mem_roceV2_iff.mpr ⟨hi, by simpa using hc⟩
    simp [h] at hmem
  · intro h
    refine Set.eq_empty_iff_forall_notMem.mpr fun i hi => ?_
    obtain ⟨hl, ho⟩ := mem_roceV2_iff.mp hi
    rw [h _ (List.getElem_mem hl)] at ho
    exact absurd ho (by simp)

theorem findIdx?_of_nonempty {table : GidTable} {p : Gid → Bool} (h : (table.roceV2 p).Nonempty) :
    ∃ i, table.findIdx? (offers p) = some i := by
  refine Option.ne_none_iff_exists'.mp fun hn => ?_
  exact h.ne_empty (roceV2_eq_empty_iff.mpr hn)

end GidTable

/-! ## The pass -/

/-- A remembered candidate (`-1` where unset) after a scan from index `i`. -/
def candidate (cur : Int) (i : Nat) (found : Option Nat) : Int :=
  if cur < 0 then
    match found with
    | some k => i + k
    | none => cur
  else cur

@[simp] theorem candidate_none (cur : Int) (i : Nat) : candidate cur i none = cur := by
  unfold candidate
  split <;> rfl

theorem candidate_succ (cur : Int) (i : Nat) (found : Option Nat) :
    candidate cur (i + 1) found = candidate cur i (found.map (· + 1)) := by
  unfold candidate
  cases found with
  | none => rfl
  | some k =>
    simp only [Option.map_some, Int.natCast_add, Int.natCast_one]
    split <;> omega

/-- The slot at hand sets the candidate, unless an earlier one has. -/
theorem candidate_set (cur : Int) (i : Nat) (found : Option Nat) :
    candidate (if cur < 0 then (i : Int) else cur) (i + 1) found = candidate cur i (some 0) := by
  unfold candidate
  by_cases h : cur < 0
  · have hi : ¬ (i : Int) < 0 := by omega
    simp [h, hi]
  · simp [h]

/-- What the pass answers: an IPv4-mapped entry at once, else a candidate at the end. -/
def answer (i : Nat) (mapped : Option Nat) (routable linkLocal : Int) : Int :=
  match mapped with
  | some k => i + k
  | none => if routable ≥ 0 then routable else linkLocal

theorem answer_succ (i : Nat) (mapped : Option Nat) (routable linkLocal : Int) :
    answer (i + 1) mapped routable linkLocal = answer i (mapped.map (· + 1)) routable linkLocal := by
  unfold answer
  cases mapped with
  | none => rfl
  | some k =>
    simp only [Option.map_some, Int.natCast_add, Int.natCast_one]
    omega

theorem findRoceV2GidFrom_eq (table : GidTable) (i : Nat) (routable linkLocal : Int) :
    findRoceV2GidFrom table i routable linkLocal =
      answer i (table.findIdx? (offers gidIsIpv4Mapped))
        (candidate routable i (table.findIdx? (offers gidIsRoutable)))
        (candidate linkLocal i (table.findIdx? (offers gidIsLinkLocal))) := by
  induction table generalizing i routable linkLocal with
  | nil => simp [findRoceV2GidFrom, answer]
  | cons o t ih =>
    cases o with
    | none =>
      unfold findRoceV2GidFrom
      rw [ih, answer_succ, candidate_succ, candidate_succ]
      simp [offers, List.findIdx?_cons]
    | some e =>
      unfold findRoceV2GidFrom
      by_cases ht : e.gidType = .roceV2
      · rw [if_neg (not_not.mpr ht)]
        by_cases hm : gidIsIpv4Mapped e.gid
        · simp [offers, ht, hm, answer, List.findIdx?_cons]
        · rw [if_neg hm]
          cases hl : gidIsLinkLocal e.gid with
          | true =>
            rw [if_pos rfl, ih, candidate_set, answer_succ, candidate_succ]
            simp [offers, ht, hm, hl, gidIsRoutable, List.findIdx?_cons]
          | false =>
            rw [if_neg Bool.false_ne_true, ih, candidate_set, answer_succ, candidate_succ]
            simp [offers, ht, hm, hl, gidIsRoutable, List.findIdx?_cons]
      · rw [if_pos ht, ih, answer_succ, candidate_succ, candidate_succ]
        simp [offers, ht, List.findIdx?_cons]

/-! ## The preference order -/

theorem candidate_start_some (k : Nat) : candidate (-1) 0 (some k) = k := by simp [candidate]

theorem findRoceV2Gid_of_mapped {table : GidTable} (h : (table.roceV2 gidIsIpv4Mapped).Nonempty) :
    ∃ i : Nat, findRoceV2Gid table = i ∧ IsLeast (table.roceV2 gidIsIpv4Mapped) i := by
  obtain ⟨k, hk⟩ := GidTable.findIdx?_of_nonempty h
  refine ⟨k, ?_, GidTable.isLeast_of_findIdx? hk⟩
  unfold findRoceV2Gid
  rw [findRoceV2GidFrom_eq, hk]
  simp [answer]

theorem findRoceV2Gid_of_routable {table : GidTable} (hm : table.roceV2 gidIsIpv4Mapped = ∅)
    (h : (table.roceV2 gidIsRoutable).Nonempty) :
    ∃ i : Nat, findRoceV2Gid table = i ∧ IsLeast (table.roceV2 gidIsRoutable) i := by
  obtain ⟨k, hk⟩ := GidTable.findIdx?_of_nonempty h
  refine ⟨k, ?_, GidTable.isLeast_of_findIdx? hk⟩
  unfold findRoceV2Gid
  rw [findRoceV2GidFrom_eq, GidTable.roceV2_eq_empty_iff.mp hm, hk, candidate_start_some]
  simp [answer]

theorem findRoceV2Gid_of_linkLocal {table : GidTable} (hm : table.roceV2 gidIsIpv4Mapped = ∅)
    (hr : table.roceV2 gidIsRoutable = ∅) (h : (table.roceV2 gidIsLinkLocal).Nonempty) :
    ∃ i : Nat, findRoceV2Gid table = i ∧ IsLeast (table.roceV2 gidIsLinkLocal) i := by
  obtain ⟨k, hk⟩ := GidTable.findIdx?_of_nonempty h
  refine ⟨k, ?_, GidTable.isLeast_of_findIdx? hk⟩
  unfold findRoceV2Gid
  rw [findRoceV2GidFrom_eq, GidTable.roceV2_eq_empty_iff.mp hm, GidTable.roceV2_eq_empty_iff.mp hr, hk,
    candidate_start_some]
  simp [answer]

theorem findRoceV2Gid_of_none {table : GidTable} (hm : table.roceV2 gidIsIpv4Mapped = ∅)
    (hr : table.roceV2 gidIsRoutable = ∅) (hl : table.roceV2 gidIsLinkLocal = ∅) : findRoceV2Gid table = -1 := by
  unfold findRoceV2Gid
  rw [findRoceV2GidFrom_eq, GidTable.roceV2_eq_empty_iff.mp hm, GidTable.roceV2_eq_empty_iff.mp hr,
    GidTable.roceV2_eq_empty_iff.mp hl]
  simp [answer]

/-- Every RoCE v2 GID is routable or link-local. -/
theorem GidTable.roceV2_split (table : GidTable) :
    table.roceV2 (fun _ => true) = table.roceV2 gidIsRoutable ∪ table.roceV2 gidIsLinkLocal := by
  ext i
  unfold roceV2
  simp only [Set.mem_union, Set.mem_ofPred_eq]
  constructor
  · intro h
    obtain ⟨e, he, ht, -⟩ := h
    cases hl : gidIsLinkLocal e.gid with
    | true => exact Or.inr ⟨e, he, ht, hl⟩
    | false => exact Or.inl ⟨e, he, ht, by simp [gidIsRoutable, hl]⟩
  · intro h
    obtain ⟨e, he, ht, -⟩ | ⟨e, he, ht, -⟩ := h
    all_goals exact ⟨e, he, ht, trivial⟩

/-- IPv4-mapped GIDs are not link-local. -/
theorem gidIsRoutable_of_mapped {g : Gid} (h : gidIsIpv4Mapped g) : gidIsRoutable g := by
  have h0 : g.raw 0 = 0 := by
    simp only [gidIsIpv4Mapped, decide_eq_true_eq, List.ofFn_succ, List.take_succ_cons, List.cons.injEq] at h
    exact h.1
  simp [gidIsRoutable, gidIsLinkLocal, h0]

theorem GidTable.mapped_subset_routable (table : GidTable) :
    table.roceV2 gidIsIpv4Mapped ⊆ table.roceV2 gidIsRoutable := by
  intro i hi
  obtain ⟨e, he, ht, hm⟩ := hi
  exact ⟨e, he, ht, gidIsRoutable_of_mapped hm⟩

theorem GidTable.mapped_eq_empty {table : GidTable} (h : table.roceV2 gidIsRoutable = ∅) :
    table.roceV2 gidIsIpv4Mapped = ∅ :=
  Set.subset_empty_iff.mp (h ▸ table.mapped_subset_routable)

/-- The index is the smallest of the first class that has an entry, and `-1`
just where the table has no readable RoCE v2 entry. -/
theorem findRoceV2Gid_preference (table : GidTable) :
    ((table.roceV2 gidIsIpv4Mapped).Nonempty →
      ∃ i : Nat, findRoceV2Gid table = i ∧ IsLeast (table.roceV2 gidIsIpv4Mapped) i) ∧
    (table.roceV2 gidIsIpv4Mapped = ∅ → (table.roceV2 gidIsRoutable).Nonempty →
      ∃ i : Nat, findRoceV2Gid table = i ∧ IsLeast (table.roceV2 gidIsRoutable) i) ∧
    (table.roceV2 gidIsIpv4Mapped = ∅ → table.roceV2 gidIsRoutable = ∅ →
      (table.roceV2 gidIsLinkLocal).Nonempty →
      ∃ i : Nat, findRoceV2Gid table = i ∧ IsLeast (table.roceV2 gidIsLinkLocal) i) ∧
    (findRoceV2Gid table = -1 ↔ table.roceV2 (fun _ => true) = ∅) := by
  refine ⟨findRoceV2Gid_of_mapped, findRoceV2Gid_of_routable, findRoceV2Gid_of_linkLocal, ?_⟩
  rw [GidTable.roceV2_split, Set.union_empty_iff]
  constructor
  · -- A class with an entry gives an index, so no class has one.
    intro hneg
    have hm : table.roceV2 gidIsIpv4Mapped = ∅ := by
      refine Set.not_nonempty_iff_eq_empty.mp fun h => ?_
      obtain ⟨i, hi, -⟩ := findRoceV2Gid_of_mapped h
      omega
    have hr : table.roceV2 gidIsRoutable = ∅ := by
      refine Set.not_nonempty_iff_eq_empty.mp fun h => ?_
      obtain ⟨i, hi, -⟩ := findRoceV2Gid_of_routable hm h
      omega
    refine ⟨hr, Set.not_nonempty_iff_eq_empty.mp fun h => ?_⟩
    obtain ⟨i, hi, -⟩ := findRoceV2Gid_of_linkLocal hm hr h
    omega
  · intro h
    exact findRoceV2Gid_of_none (GidTable.mapped_eq_empty h.1) h.1 h.2

end RdmaInfra.Verbs
