/-
The GID perftest is pinned to (`gid_index` of `run_phase1_sweep.sh`), against
the one `find_roce_v2_gid` picks.

The script reads the table through sysfs: one file per index, named by the
index in decimal and holding the GID as eight groups of hex digits. Its loop
visits the files in the order of their names, so entry 10 before entry 2, and
tests texts where the C code tests bytes.
-/
import Mathlib.Data.Char
import Mathlib.Data.Fin.VecNotation
import Mathlib.Data.List.Lex
import Mathlib.Data.List.Sort
import RdmaInfra.Verbs.GidChoice

namespace RdmaInfra.Verbs

/-- `%02x`. -/
def hexByte (b : UInt8) : List Char := [Nat.digitChar (b.toNat / 16), Nat.digitChar (b.toNat % 16)]

/-- A GID as sysfs prints it. -/
def gidText (g : Gid) : List Char :=
  List.intercalate [':'] (List.ofFn fun k : Fin 8 =>
    hexByte (g.raw ⟨2 * k, by omega⟩) ++ hexByte (g.raw ⟨2 * k + 1, by omega⟩))

/-- The file `gids/<idx>`: an empty slot reads as the zero GID. -/
def GidTable.sysfsGid (table : GidTable) (idx : Nat) : List Char :=
  match table[idx]?.join with
  | none => gidText ⟨fun _ => 0⟩
  | some e => gidText e.gid

/-- The file `gid_attrs/types/<idx>` holds `RoCE v2` (an empty slot has no type to read). -/
def GidTable.sysfsRoceV2 (table : GidTable) (idx : Nat) : Bool :=
  match table[idx]?.join with
  | none => false
  | some e => e.gidType = .roceV2

/-- The name of an index's file. -/
def decimalName (idx : Nat) : List Char := Nat.toDigits 10 idx

/-- The order `gids/*` expands in. -/
def globOrder (n : Nat) : List Nat :=
  (List.range n).insertionSort fun i j => decimalName i ≤ decimalName j

/-- The script's loop over the files still to visit. -/
def gidIndexFrom (table : GidTable) : List Nat → Option Nat → Nat
  | [], fallback => fallback.getD 0
  | idx :: rest, fallback =>
    if table.sysfsGid idx = "0000:0000:0000:0000:0000:0000:0000:0000".toList then gidIndexFrom table rest fallback
    else if ¬ table.sysfsRoceV2 idx then gidIndexFrom table rest fallback
    else if "0000:0000:0000:0000:0000:ffff:".toList.isPrefixOf (table.sysfsGid idx) then idx
    else if "fe80:".toList.isPrefixOf (table.sysfsGid idx) then gidIndexFrom table rest fallback
    else gidIndexFrom table rest (fallback.or (some idx))

/-- The index `gid_index` prints. -/
def gidIndex (table : GidTable) : Nat := gidIndexFrom table (globOrder table.length) none

/-! ## Texts and bytes -/

/-- The script's reading of link-local: `fe80:` only, where the C code masks for `fe80::/10`. -/
def gidIsFe80 (g : Gid) : Bool := g.raw 0 = 0xfe ∧ g.raw 1 = 0x80

/-- A GID that can become the script's fallback. -/
def gidIsFallback (g : Gid) : Bool := ¬ (∀ k, g.raw k = 0) ∧ ¬ gidIsIpv4Mapped g ∧ ¬ gidIsFe80 g

theorem byte_eq_iff (b c : UInt8) :
    b = c ↔ b.toNat / 16 = c.toNat / 16 ∧ b.toNat % 16 = c.toNat % 16 := by
  rw [← UInt8.toNat_inj]
  omega

theorem gidText_zero_iff (g : Gid) :
    gidText g = "0000:0000:0000:0000:0000:0000:0000:0000".toList ↔ ∀ k, g.raw k = 0 := by
  simp [gidText, List.ofFn_succ, hexByte, List.intercalate, List.intersperse, byte_eq_iff,
    Fin.forall_fin_succ, and_assoc]

theorem gidText_mapped_iff (g : Gid) :
    "0000:0000:0000:0000:0000:ffff:".toList.isPrefixOf (gidText g) ↔ gidIsIpv4Mapped g := by
  simp [gidText, List.ofFn_succ, hexByte, List.intercalate, List.intersperse, byte_eq_iff,
    gidIsIpv4Mapped, and_assoc]

theorem gidText_fe80_iff (g : Gid) : "fe80:".toList.isPrefixOf (gidText g) ↔ gidIsFe80 g := by
  simp [gidText, List.ofFn_succ, hexByte, List.intercalate, List.intersperse, byte_eq_iff,
    gidIsFe80, and_assoc]

theorem not_mapped_of_zero {g : Gid} (h : ∀ k, g.raw k = 0) : ¬ gidIsIpv4Mapped g := by
  simp [gidIsIpv4Mapped, List.ofFn_succ, h]

/-! ## The loop -/

/-- What the script finds: the first IPv4-mapped entry it visits, else the
fallback it holds or meets, else `0`. -/
theorem gidIndexFrom_eq (table : GidTable) (order : List Nat) (fallback : Option Nat) :
    gidIndexFrom table order fallback =
      ((order.find? fun i => offers gidIsIpv4Mapped table[i]?.join).or
        (fallback.or (order.find? fun i => offers gidIsFallback table[i]?.join))).getD 0 := by
  induction order generalizing fallback with
  | nil => simp [gidIndexFrom]
  | cons idx rest ih =>
    unfold gidIndexFrom GidTable.sysfsGid GidTable.sysfsRoceV2
    rw [List.find?_cons, List.find?_cons]
    cases table[idx]?.join with
    | none =>
      rw [if_pos ((gidText_zero_iff _).mpr fun _ => rfl), ih]
      simp [offers]
    | some e =>
      simp only [gidText_zero_iff, gidText_mapped_iff, gidText_fe80_iff]
      by_cases hz : ∀ k, e.gid.raw k = 0
      · rw [if_pos hz, ih]
        have hm := not_mapped_of_zero hz
        simp [offers, hm, gidIsFallback, hz]
      · rw [if_neg hz]
        by_cases ht : e.gidType = .roceV2
        · rw [if_neg (by simp [ht])]
          by_cases hm : gidIsIpv4Mapped e.gid
          · simp [offers, ht, hm]
          · rw [if_neg hm]
            by_cases hf : gidIsFe80 e.gid
            · rw [if_pos hf, ih]
              simp [offers, hm, gidIsFallback, hf]
            · rw [if_neg hf, ih]
              have hb : offers gidIsFallback (some e) = true := by
                simp [offers, gidIsFallback, ht, not_forall.mp hz, hm, hf]
              simp only [hb, Option.or_assoc]
              simp [offers, hm, Option.some_or]
        · rw [if_pos (by simp [ht]), ih]
          simp [offers, ht]

/-! ## The order of names -/

/-- The member of `s` whose name the shell puts first. -/
def FirstByName (s : Set Nat) (i : Nat) : Prop := i ∈ s ∧ ∀ j ∈ s, decimalName i ≤ decimalName j

theorem decimalName_injective {i j : Nat} (h : decimalName i = decimalName j) : i = j := by
  have hi : Nat.ofDigitChars 10 (decimalName i) 0 = i := Nat.ofDigitChars_ten_toDigits
  have hj : Nat.ofDigitChars 10 (decimalName j) 0 = j := Nat.ofDigitChars_ten_toDigits
  rw [← hi, ← hj, h]

theorem FirstByName.unique {s : Set Nat} {i j : Nat} (hi : FirstByName s i) (hj : FirstByName s j) : i = j :=
  decimalName_injective (le_antisymm (hi.2 j hj.1) (hj.2 i hi.1))

theorem globOrder_pairwise (n : Nat) :
    (globOrder n).Pairwise fun i j => decimalName i ≤ decimalName j := by
  have : Std.Total fun i j : Nat => decimalName i ≤ decimalName j := ⟨fun i j => le_total _ _⟩
  have : IsTrans Nat fun i j => decimalName i ≤ decimalName j := ⟨fun _ _ _ => le_trans⟩
  exact List.pairwise_insertionSort _ _

theorem mem_globOrder {n i : Nat} : i ∈ globOrder n ↔ i < n := by
  unfold globOrder
  rw [List.mem_insertionSort, List.mem_range]

theorem firstByName_of_find? {n i : Nat} {p : Nat → Bool} (h : (globOrder n).find? p = some i) :
    FirstByName {j | j < n ∧ p j} i := by
  obtain ⟨hp, as, bs, hl, has⟩ := List.find?_eq_some_iff_append.mp h
  have hi : i ∈ globOrder n := List.mem_of_find?_eq_some h
  refine ⟨⟨mem_globOrder.mp hi, hp⟩, fun j hj => ?_⟩
  obtain ⟨hjn, hjp⟩ := hj
  have hmem := mem_globOrder.mpr hjn
  have hsort := globOrder_pairwise n
  rw [hl] at hmem hsort
  simp only [List.mem_append, List.mem_cons] at hmem
  obtain hj | hj | hj := hmem
  · have := has j hj
    simp [hjp] at this
  · exact hj ▸ le_rfl
  · exact (List.pairwise_cons.mp (List.pairwise_append.mp hsort).2.1).1 j hj

/-! ## The two choices -/

theorem GidTable.roceV2_eq_join (table : GidTable) (p : Gid → Bool) :
    {i | i < table.length ∧ offers p table[i]?.join} = table.roceV2 p := by
  ext i
  rw [mem_roceV2_iff]
  constructor
  · intro h
    obtain ⟨hi, ho⟩ := h
    rw [List.getElem?_eq_getElem hi] at ho
    exact ⟨hi, ho⟩
  · intro h
    obtain ⟨hi, ho⟩ := h
    refine ⟨hi, ?_⟩
    rw [List.getElem?_eq_getElem hi]
    exact ho

theorem find?_globOrder_none_iff {table : GidTable} {p : Gid → Bool} :
    ((globOrder table.length).find? fun i => offers p table[i]?.join) = none ↔ table.roceV2 p = ∅ := by
  rw [List.find?_eq_none, ← table.roceV2_eq_join, Set.eq_empty_iff_forall_notMem]
  constructor
  · intro h i hi
    exact h i (mem_globOrder.mpr hi.1) hi.2
  · intro h i hi ho
    exact h i ⟨mem_globOrder.mp hi, ho⟩

theorem find?_globOrder_some {table : GidTable} {p : Gid → Bool} (h : (table.roceV2 p).Nonempty) :
    ∃ i, ((globOrder table.length).find? fun i => offers p table[i]?.join) = some i ∧
      FirstByName (table.roceV2 p) i := by
  obtain ⟨i, hi⟩ := Option.ne_none_iff_exists'.mp fun hn => h.ne_empty (find?_globOrder_none_iff.mp hn)
  exact ⟨i, hi, table.roceV2_eq_join p ▸ firstByName_of_find? hi⟩

theorem gidIndex_of_mapped {table : GidTable} (h : (table.roceV2 gidIsIpv4Mapped).Nonempty) :
    FirstByName (table.roceV2 gidIsIpv4Mapped) (gidIndex table) := by
  obtain ⟨i, hi, hfirst⟩ := find?_globOrder_some h
  unfold gidIndex
  rw [gidIndexFrom_eq, hi]
  exact hfirst

theorem gidIndex_of_fallback {table : GidTable} (hm : table.roceV2 gidIsIpv4Mapped = ∅)
    (h : (table.roceV2 gidIsFallback).Nonempty) : FirstByName (table.roceV2 gidIsFallback) (gidIndex table) := by
  obtain ⟨i, hi, hfirst⟩ := find?_globOrder_some h
  unfold gidIndex
  rw [gidIndexFrom_eq, find?_globOrder_none_iff.mpr hm, hi]
  exact hfirst

theorem gidIndex_of_none {table : GidTable} (hm : table.roceV2 gidIsIpv4Mapped = ∅)
    (h : table.roceV2 gidIsFallback = ∅) : gidIndex table = 0 := by
  unfold gidIndex
  rw [gidIndexFrom_eq, find?_globOrder_none_iff.mpr hm, find?_globOrder_none_iff.mpr h]
  rfl

/-- Perftest is pinned to the GID the implementation picks, where it picks one. -/
def SameGid (table : GidTable) : Prop := 0 ≤ findRoceV2Gid table → (gidIndex table : Int) = findRoceV2Gid table

instance (table : GidTable) : Decidable (SameGid table) :=
  inferInstanceAs (Decidable (0 ≤ findRoceV2Gid table → (gidIndex table : Int) = findRoceV2Gid table))

/-- Without an IPv4-mapped entry, the smallest index of the class `c` the C
code falls back on is the one the script ends with: the first name among its
own fallbacks, or `0` where it has none. -/
def FallbackAgrees (table : GidTable) (c : Set Nat) : Prop :=
  (∃ i, IsLeast c i ∧ FirstByName (table.roceV2 gidIsFallback) i) ∨
    (0 ∈ c ∧ table.roceV2 gidIsFallback = ∅)

theorem sameGid_iff_of_fallback {table : GidTable} {c : Set Nat} {a : Nat}
    (hm : table.roceV2 gidIsIpv4Mapped = ∅) (ha : findRoceV2Gid table = a) (hc : IsLeast c a) :
    SameGid table ↔ FallbackAgrees table c := by
  have hsame : SameGid table ↔ gidIndex table = a := by
    unfold SameGid
    rw [ha]
    omega
  rw [hsame]
  unfold FallbackAgrees
  by_cases h : table.roceV2 gidIsFallback = ∅
  · rw [gidIndex_of_none hm h]
    constructor
    · intro h0
      exact Or.inr ⟨h0 ▸ hc.1, h⟩
    · intro hor
      obtain ⟨i, -, hi⟩ | ⟨h0, -⟩ := hor
      · have := hi.1
        simp [h] at this
      · have := hc.2 h0
        omega
  · have hfirst := gidIndex_of_fallback hm (Set.nonempty_iff_ne_empty.mpr h)
    constructor
    · intro hi
      exact Or.inl ⟨a, hc, hi ▸ hfirst⟩
    · intro hor
      obtain ⟨i, hi, hf⟩ | ⟨-, he⟩ := hor
      · rw [hc.unique hi]
        exact hfirst.unique hf
      · exact absurd he h

theorem sameGid_iff_of_mapped {table : GidTable} (h : (table.roceV2 gidIsIpv4Mapped).Nonempty) :
    SameGid table ↔
      ∃ i, IsLeast (table.roceV2 gidIsIpv4Mapped) i ∧ FirstByName (table.roceV2 gidIsIpv4Mapped) i := by
  obtain ⟨a, ha, hleast⟩ := findRoceV2Gid_of_mapped h
  have hfirst := gidIndex_of_mapped h
  unfold SameGid
  rw [ha]
  constructor
  · intro hs
    have hi : gidIndex table = a := by omega
    exact ⟨a, hleast, hi ▸ hfirst⟩
  · intro hex _
    obtain ⟨i, hi, hf⟩ := hex
    rw [hfirst.unique hf, hleast.unique hi]

/-- The two choices agree just where the scan by number and the scan by name
stop at one entry, class by class. -/
theorem sameGid_iff (table : GidTable) :
    SameGid table ↔
      table.roceV2 (fun _ => true) = ∅ ∨
      (∃ i, IsLeast (table.roceV2 gidIsIpv4Mapped) i ∧ FirstByName (table.roceV2 gidIsIpv4Mapped) i) ∨
      (table.roceV2 gidIsIpv4Mapped = ∅ ∧ (table.roceV2 gidIsRoutable).Nonempty ∧
        FallbackAgrees table (table.roceV2 gidIsRoutable)) ∨
      (table.roceV2 gidIsRoutable = ∅ ∧ FallbackAgrees table (table.roceV2 gidIsLinkLocal)) := by
  rw [GidTable.roceV2_split, Set.union_empty_iff]
  by_cases hm : (table.roceV2 gidIsIpv4Mapped).Nonempty
  · have hr : (table.roceV2 gidIsRoutable).Nonempty := hm.mono table.mapped_subset_routable
    simp only [sameGid_iff_of_mapped hm, hm.ne_empty, hr.ne_empty, false_and, false_or, or_false]
  · have hm' := Set.not_nonempty_iff_eq_empty.mp hm
    -- No entry of the first class, so no smallest one.
    have hnone : ¬ ∃ i, IsLeast (table.roceV2 gidIsIpv4Mapped) i ∧
        FirstByName (table.roceV2 gidIsIpv4Mapped) i := fun h => hm (h.choose_spec.1.nonempty)
    by_cases hr : (table.roceV2 gidIsRoutable).Nonempty
    · obtain ⟨a, ha, hleast⟩ := findRoceV2Gid_of_routable hm' hr
      simp only [sameGid_iff_of_fallback hm' ha hleast, hm', hr, hr.ne_empty, hm' ▸ hnone, true_and, false_and,
        false_or, or_false]
    · have hr' := Set.not_nonempty_iff_eq_empty.mp hr
      by_cases hl : (table.roceV2 gidIsLinkLocal).Nonempty
      · obtain ⟨a, ha, hleast⟩ := findRoceV2Gid_of_linkLocal hm' hr' hl
        simp only [sameGid_iff_of_fallback hm' ha hleast, hr', hl.ne_empty, hnone, Set.not_nonempty_empty,
          true_and, and_false, false_and, false_or]
      · have hl' := Set.not_nonempty_iff_eq_empty.mp hl
        have hneg := findRoceV2Gid_of_none hm' hr' hl'
        simp [SameGid, hneg, hr', hl']

/-- The link-local GID of a port with no address yet. -/
def linkLocalGid : Gid := ⟨![0xfe, 0x80, 0, 0, 0, 0, 0, 0, 0, 0, 0, 0, 0, 0, 0, 1]⟩

/-- `::ffff:10.0.0.1`. -/
def mappedGid : Gid := ⟨![0, 0, 0, 0, 0, 0, 0, 0, 0, 0, 0xff, 0xff, 10, 0, 0, 1]⟩

/-- A port with only its link-local GID pins perftest to entry 0, which is of
type RoCE v1; one with IPv4-mapped entries at 2 and 10, to entry 10. -/
theorem sameGid_fails :
    ¬ SameGid [some ⟨linkLocalGid, .roceV1⟩, some ⟨linkLocalGid, .roceV2⟩] ∧
    ¬ SameGid ([none, none, some ⟨mappedGid, .roceV2⟩] ++ List.replicate 7 none ++
        [some ⟨mappedGid, .roceV2⟩]) := by
  decide +kernel

end RdmaInfra.Verbs
