/-
C's fixed-width integers, as the naturals and integers they hold, and the
conversions between them.
-/
import Mathlib.Tactic.Ring

namespace RdmaInfra

/-- Converted to `size_t` (or `uint64_t`). -/
def sizeT (n : Nat) : Nat := n % 2 ^ 64

/-- Converted to `uint32_t`. -/
def u32 (n : Nat) : Nat := n % 2 ^ 32

/-- An `int` converted to `size_t`. -/
def intToSizeT (i : Int) : Nat := (i % 2 ^ 64).toNat

/-- An integer converted to `int`. -/
def toInt (i : Int) : Int := (i + 2 ^ 31) % 2 ^ 32 - 2 ^ 31

/-- The values of an `int`. -/
def IsInt (i : Int) : Prop := -2 ^ 31 ≤ i ∧ i < 2 ^ 31

instance {i : Int} : Decidable (IsInt i) := inferInstanceAs (Decidable (_ ∧ _))

theorem sizeT_of_lt {n} (h : n < 2 ^ 64) : sizeT n = n := Nat.mod_eq_of_lt h

theorem u32_of_lt {n} (h : n < 2 ^ 32) : u32 n = n := Nat.mod_eq_of_lt h

theorem intToSizeT_of_nonneg {i : Int} (h : IsInt i) (h0 : 0 ≤ i) : intToSizeT i = i.toNat := by
  obtain ⟨-, hi⟩ := h
  rw [intToSizeT, Int.emod_eq_of_lt h0 (by omega)]

/-- A negative `int` becomes a value near the top of the range. -/
theorem intToSizeT_of_neg {i : Int} (h : IsInt i) (h0 : i < 0) : intToSizeT i = 2 ^ 64 - (-i).toNat := by
  obtain ⟨hi, -⟩ := h
  rw [intToSizeT, Int.emod_eq_add_self_emod, Int.emod_eq_of_lt (by omega) (by omega)]
  omega

theorem toInt_isInt (i : Int) : IsInt (toInt i) := by
  simp only [toInt, IsInt]
  omega

/-- `atoi`: leading white space, a sign and digits, up to the first character
that is none. A value outside `long` is clamped, and outside `int` wrapped, as
glibc does where the standard leaves it open. -/
def atoi (s : String) : Int :=
  let digits (cs : List Char) : Int := (cs.takeWhile Char.isDigit).foldl (fun n c => 10 * n + (c.toNat - '0'.toNat)) 0
  let space (c : Char) : Bool := c = ' ' ∨ (9 ≤ c.toNat ∧ c.toNat ≤ 13)
  let long (i : Int) : Int := max (-2 ^ 63) (min i (2 ^ 63 - 1))
  toInt <| long <|
    match s.toList.dropWhile space with
    | '-' :: cs => -digits cs
    | '+' :: cs => digits cs
    | cs => digits cs

example : (atoi "  -42x", atoi "+7", atoi "x7", atoi "4294967297") = (-42, 7, 0, 1) := by decide

theorem atoi_isInt (s : String) : IsInt (atoi s) := toInt_isInt _

end RdmaInfra
