import Mathlib.Logic.Function.Basic

/-!
# Moving cells inside one memory

A loop that copies one cell after the other.  The cells it reads and those it
writes may overlap; what counts is that no cell is written before it has been
read.

## Main results

* `moved_source` — a cell still holds what it held at the start when the loop
  comes to read it.
* `moved_target` — in the end every target holds what its source held.
* `moved_row` — the loop that moves a part of a row to its right end, last cell
  first.
-/

namespace Mtdp.Lib.Move

universe u v

variable {A : Type u} {V : Type v}

/-- No copy writes a cell that a later one reads. -/
def ReadsFirst (source target : Nat → A) (n : Nat) : Prop :=
  ∀ i k, i < k → k < n → target i ≠ source k

/-- No two copies write the same cell. -/
def WritesOnce (target : Nat → A) (n : Nat) : Prop :=
  ∀ i k, i < k → k < n → target i ≠ target k

section Loop

variable [DecidableEq A] {source target : Nat → A} {memory : A → V} {n : Nat}

/-- The memory after `n` copies, copy `k` from `source k` to `target k`. -/
def moved (source target : Nat → A) (memory : A → V) : Nat → A → V
  | 0 => memory
  | n + 1 =>
      let memory := moved source target memory n
      Function.update memory (target n) (memory (source n))

/-- A cell that no copy writes is left alone. -/
theorem moved_of_not_target {a : A} (ha : ∀ i, i < n → a ≠ target i) :
    moved source target memory n a = memory a := by
  induction n with
  | zero => rfl
  | succ n ih =>
      rw [moved, Function.update_of_ne (ha n (Nat.lt_succ_self n))]
      exact ih fun i hi => ha i (Nat.lt_succ_of_lt hi)

/-- Copy `k` reads what its source held before the first copy. -/
theorem moved_source (hreads : ReadsFirst source target n) {k : Nat} (hk : k < n) :
    moved source target memory k (source k) = memory (source k) :=
  moved_of_not_target fun i hi => (hreads i k hi hk).symm

/-- After the loop a target holds what its source held before. -/
theorem moved_target (hreads : ReadsFirst source target n) (hwrites : WritesOnce target n)
    {k : Nat} (hk : k < n) : moved source target memory n (target k) = memory (source k) := by
  induction n with
  | zero => exact absurd hk (Nat.not_lt_zero k)
  | succ n ih =>
      rw [moved]
      by_cases hkn : k = n
      · subst hkn
        rw [Function.update_self]
        exact moved_source hreads hk
      · have hlt : k < n := by omega
        rw [Function.update_of_ne (hwrites k n hlt (Nat.lt_succ_self n))]
        exact ih (fun i k hik hkn => hreads i k hik (Nat.lt_succ_of_lt hkn))
          (fun i k hik hkn => hwrites i k hik (Nat.lt_succ_of_lt hkn)) hlt

end Loop

/-! ## Rows of cells -/

/-- The cells `cell 0, …, cell (total - 1)` are different. -/
def Row (cell : Nat → A) (total : Nat) : Prop :=
  ∀ p q, p < total → q < total → cell p = cell q → p = q

/-- What `size` cells of a row look like after they were moved from `offset` to
the right end of the row. -/
structure AtRightEnd (cell : Nat → A) (total offset size : Nat) (before after : A → V) :
    Prop where
  elements : ∀ j, j < size → after (cell (total - size + j)) = before (cell (offset + j))
  others : ∀ a, (∀ p, total - size ≤ p → p < total → a ≠ cell p) → after a = before a

section RightEnd

variable {cell : Nat → A} {total offset size : Nat} {source target : Nat → A}

/-- A move to the right that starts with the last cell reads first. -/
theorem readsFirst_of_row (hrow : Row cell total) (hfits : offset + size ≤ total)
    (hsource : ∀ i, i < size → source i = cell (offset + size - 1 - i))
    (htarget : ∀ i, i < size → target i = cell (total - 1 - i)) :
    ReadsFirst source target size := by
  intro i k hik hk heq
  rw [hsource k hk, htarget i (by omega)] at heq
  have := hrow _ _ (by omega) (by omega) heq
  omega

theorem writesOnce_of_row (hrow : Row cell total) (hsize : size ≤ total)
    (htarget : ∀ i, i < size → target i = cell (total - 1 - i)) : WritesOnce target size := by
  intro i k hik hk heq
  rw [htarget i (by omega), htarget k hk] at heq
  have := hrow _ _ (by omega) (by omega) heq
  omega

/-- **The move to the right end.** -/
theorem moved_row [DecidableEq A] (memory : A → V) (hrow : Row cell total)
    (hfits : offset + size ≤ total)
    (hsource : ∀ i, i < size → source i = cell (offset + size - 1 - i))
    (htarget : ∀ i, i < size → target i = cell (total - 1 - i)) :
    AtRightEnd cell total offset size memory (moved source target memory size) := by
  have hreads := readsFirst_of_row hrow hfits hsource htarget
  have hwrites := writesOnce_of_row hrow (by omega) htarget
  constructor
  · intro j hj
    -- element `j` is the one copy `size - 1 - j` moves
    have hk : size - 1 - j < size := by omega
    have htarget' : target (size - 1 - j) = cell (total - size + j) := by
      rw [htarget _ hk]
      congr 1
      omega
    have hsource' : source (size - 1 - j) = cell (offset + j) := by
      rw [hsource _ hk]
      congr 1
      omega
    rw [← htarget', ← hsource']
    exact moved_target hreads hwrites hk
  · intro a ha
    apply moved_of_not_target
    intro i hi
    rw [htarget i hi]
    exact ha _ (by omega) (by omega)

end RightEnd

end Mtdp.Lib.Move
