/-
Byte memory, and the 4-byte words a `float` array is read as.

A region is an offset and a length in bytes; a transfer reads or writes a
list of bytes. `Mem.word m e` is element `e` of the memory seen as an array
of 4-byte words. `byteOf f` is the byte image of an array `f` of words, so
that "the region holds these words" is said byte by byte, whatever part of a
word a transfer has moved so far.
-/
import Mathlib.Data.List.Basic
import Mathlib.Tactic.Ring

namespace RdmaInfra

/-- A memory of bytes `β`. -/
abbrev Mem (β : Type) := Nat → β

/-- The 4 bytes of one array element. -/
abbrev Word (β : Type) := Fin 4 → β

namespace Mem

variable {β : Type}

/-- The `n` bytes from `a` on. -/
def read (m : Mem β) (a n : Nat) : List β := (List.range n).map fun j => m (a + j)

/-- `bs` written from `a` on. -/
def write (m : Mem β) (a : Nat) (bs : List β) : Mem β := fun i =>
  if a ≤ i then bs[i - a]?.getD (m i) else m i

/-- Element `e`. -/
def word (m : Mem β) (e : Nat) : Word β := fun k => m (4 * e + k)

/-- Element `e` set to `w`. -/
def setWord (m : Mem β) (e : Nat) (w : Word β) : Mem β := fun i =>
  if i / 4 = e then w ⟨i % 4, Nat.mod_lt _ (by decide)⟩ else m i

@[simp] theorem length_read {m : Mem β} {a n} : (m.read a n).length = n := by simp [read]

theorem getElem?_read {m : Mem β} {a n j} (h : j < n) : (m.read a n)[j]? = some (m (a + j)) := by
  simp [read, h]

theorem write_inside {m : Mem β} {a} {bs : List β} {j b} (h : bs[j]? = some b) :
    m.write a bs (a + j) = b := by
  simp [write, h]

theorem write_outside {m : Mem β} {a} {bs : List β} {i} (h : i < a ∨ a + bs.length ≤ i) :
    m.write a bs i = m i := by
  simp only [write]
  split
  · rw [List.getElem?_eq_none (by omega)]; rfl
  · rfl

theorem read_write {m : Mem β} {a n} {bs : List β} (h : bs.length = n) : (m.write a bs).read a n = bs := by
  apply List.ext_getElem?
  intro j
  by_cases hj : j < n
  · have hb := List.getElem?_eq_getElem (show j < bs.length by omega)
    rw [getElem?_read hj, write_inside hb, hb]
  · rw [List.getElem?_eq_none (by simp; omega), List.getElem?_eq_none (by omega)]

theorem read_write_disjoint {m : Mem β} {a b n} {bs : List β} (h : a + n ≤ b ∨ b + bs.length ≤ a) :
    (m.write b bs).read a n = m.read a n := by
  simp only [read]
  refine List.map_congr_left fun j hj => write_outside ?_
  rw [List.mem_range] at hj
  omega

/-- A part of a region copied whole. -/
theorem read_copy {m m' : Mem β} {a b k l n} (h : k + l ≤ n) :
    (m.write a (m'.read b n)).read (a + k) l = m'.read (b + k) l := by
  simp only [read]
  refine List.map_congr_left fun j hj => ?_
  rw [List.mem_range] at hj
  rw [Nat.add_assoc, Nat.add_assoc]
  exact write_inside (getElem?_read (by omega))

theorem read_add (m : Mem β) (a k n : Nat) : m.read a (k + n) = m.read a k ++ m.read (a + k) n := by
  simp only [read, List.range_add, List.map_append, List.map_map]
  congr 1
  refine List.map_congr_left fun j _ => ?_
  rw [Function.comp_apply, Nat.add_assoc]

theorem write_nil (m : Mem β) (a : Nat) : m.write a [] = m := by
  funext i
  simp [write]

/-- Two writes in a row, as one. -/
theorem write_append (m : Mem β) (a : Nat) (bs cs : List β) :
    (m.write a bs).write (a + bs.length) cs = m.write a (bs ++ cs) := by
  funext i
  by_cases h1 : i < a + bs.length
  · rw [write_outside (Or.inl h1)]
    simp only [write]
    split
    · rw [List.getElem?_append_left (by omega)]
    · rfl
  · obtain ⟨j, rfl⟩ : ∃ j, i = a + bs.length + j := ⟨i - (a + bs.length), by omega⟩
    have hout : m.write a bs (a + bs.length + j) = m (a + bs.length + j) := write_outside (by omega)
    have ha : a ≤ a + bs.length + j := by omega
    have hi : a + bs.length + j - a = bs.length + j := by omega
    have hlb : a + bs.length ≤ a + bs.length + j := by omega
    rw [write, if_pos hlb, hout, write, if_pos ha, hi, List.getElem?_append_right (by omega),
      Nat.add_sub_cancel_left, Nat.add_sub_cancel_left]

theorem setWord_outside {m : Mem β} {e w i} (h : i / 4 ≠ e) : m.setWord e w i = m i := by
  simp [setWord, h]

theorem word_setWord_self {m : Mem β} {e w} : (m.setWord e w).word e = w := by
  funext k
  have h1 : (4 * e + k.val) / 4 = e := by omega
  have h2 : (4 * e + k.val) % 4 = k := by omega
  simp [word, setWord, h1, h2]

theorem word_setWord_ne {m : Mem β} {e e' w} (h : e ≠ e') : (m.setWord e' w).word e = m.word e := by
  funext k
  exact setWord_outside (by omega)

end Mem

/-- The byte image of an array of words. -/
def byteOf {β : Type} (f : Nat → Word β) (a : Nat) : β := f (a / 4) ⟨a % 4, Nat.mod_lt _ (by decide)⟩

theorem byteOf_word {β} {f : Nat → Word β} {e} {k : Fin 4} : byteOf f (4 * e + k) = f e k := by
  have h1 : (4 * e + k.val) / 4 = e := by omega
  have h2 : (4 * e + k.val) % 4 = k := by omega
  simp [byteOf, h1, h2]

theorem byteOf_self {β} (m : Mem β) (a : Nat) : byteOf m.word a = m a := by
  simp only [byteOf, Mem.word, Nat.div_add_mod]

/-- A memory that agrees with `f` on an element's bytes holds that element. -/
theorem Mem.word_eq {β} {m : Mem β} {f : Nat → Word β} {e e'}
    (h : ∀ k, k < 4 → m (4 * e + k) = byteOf f (4 * e' + k)) : m.word e = f e' := by
  funext k
  rw [Mem.word, h k k.isLt, byteOf_word]

end RdmaInfra
