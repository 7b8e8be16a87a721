import Mathlib.Algebra.Order.Ring.Int

/-!
# 64-bit machine words

Unsigned words are natural numbers below `2 ^ 64`, signed ones are integers
in `[-2 ^ 63, 2 ^ 63)`.  Unsigned arithmetic wraps; signed arithmetic that
leaves its range has no defined result.
-/

namespace Mtdp.Lib.Word

/-- An integer reduced to an unsigned word. -/
def wrap (i : Int) : Nat := (i % 2 ^ 64).toNat

/-- An unsigned word converted to a signed one. -/
def toSigned (n : Nat) : Int := if n < 2 ^ 63 then n else n - 2 ^ 64

/-- The result of a signed operation, if it is representable. -/
def checkSigned (i : Int) : Option Int :=
  if -(2 ^ 63) ≤ i ∧ i < 2 ^ 63 then some i else none

theorem wrap_lt (i : Int) : wrap i < 2 ^ 64 := by
  unfold wrap
  omega

theorem wrap_of_lt {i : Int} (hnonneg : 0 ≤ i) (hlt : i < 2 ^ 64) : wrap i = i.toNat := by
  unfold wrap
  rw [Int.emod_eq_of_lt hnonneg hlt]

@[simp] theorem wrap_natCast {n : Nat} (hlt : n < 2 ^ 64) : wrap n = n := by
  rw [wrap_of_lt (by omega) (by omega)]
  rfl

theorem toSigned_of_lt {n : Nat} (hlt : n < 2 ^ 63) : toSigned n = n := if_pos hlt

theorem toSigned_of_le {n : Nat} (hle : 2 ^ 63 ≤ n) : toSigned n = n - 2 ^ 64 :=
  if_neg (Nat.not_lt.mpr hle)

theorem checkSigned_of_mem {i : Int} (hlo : -(2 ^ 63) ≤ i) (hhi : i < 2 ^ 63) :
    checkSigned i = some i := if_pos ⟨hlo, hhi⟩

theorem eq_of_checkSigned {i d : Int} (h : checkSigned i = some d) :
    d = i ∧ -(2 ^ 63) ≤ i ∧ i < 2 ^ 63 := by
  unfold checkSigned at h
  split at h
  · exact ⟨(Option.some.inj h).symm, ‹_›⟩
  · cases h

end Mtdp.Lib.Word
