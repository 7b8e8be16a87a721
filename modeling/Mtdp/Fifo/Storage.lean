import Mathlib.Tactic.NormNum
import Mathlib.Tactic.Linarith
import Mathlib.Tactic.Positivity
import Mtdp.Fifo.Destroy

/-!
# The storage of the heap FIFO follows its occupancy

Blocks are never given back before `mtdp_buffer_fifo_destroy`.  A push asks for
one only when the FIFO is filled to the configured ratio, and the vector doubles
only when all its slots are live; so both are bounded by the largest number of
elements that were ever queued, also when the vector has doubled and the block
is then refused.

## Main results

* `callStep_growth` — what one call does to the vector.
* `storage_bounded` — blocks and slots after any run.
-/

namespace Mtdp.Fifo

open Lib.Transition

variable {α : Type}

/-! ## What a call does to the vector -/

/-- A block comes only for a well-filled deque, slots come only for a full
vector. -/
structure Growth (c : Config) (f f' : BufferFifo) : Prop where
  le : f.blocks.size ≤ f'.blocks.size
  size : f'.blocks.size = f.blocks.size ∨
    f'.blocks.size = f.blocks.size + 1 ∧ wantsMoreMemory c f = true
  capacity : f'.blocks.capacity = f.blocks.capacity ∨
    f.blocks.capacity = f.blocks.size ∧ f'.blocks.capacity = 2 * f.blocks.size

/-- The vector is as large as it was. -/
theorem Growth.of_same {c : Config} {f f' : BufferFifo} (hsize : f'.blocks.size = f.blocks.size)
    (hcapacity : f'.blocks.capacity = f.blocks.capacity) : Growth c f f' :=
  ⟨Nat.le_of_eq hsize.symm, .inl hsize, .inl hcapacity⟩

theorem tryReserveABlock_capacity {f f' : BufferFifo} {h h' : Heap α} {reserved : Bool}
    (hv : BlocksInv f.blocks h.nextBlock)
    (hrun : tryReserveABlock f h = some (reserved, f', h')) :
    f'.blocks.capacity = f.blocks.capacity ∨
      f.blocks.capacity = f.blocks.size ∧ f'.blocks.capacity = 2 * f.blocks.size := by
  unfold tryReserveABlock at hrun
  split at hrun
  · next hfull =>
      cases hok : h.fails h.allocations with
      | true =>
          simp only [Heap.attempt, hok, Bool.not_true, Bool.false_eq_true, if_false] at hrun
          cases hrun
          exact .inl rfl
      | false =>
          have hdouble := doubledCapacity hv.capacity_pow
          rw [hfull] at hdouble
          obtain ⟨v', hloop, _, hcapacity, _⟩ :=
            blockShiftLoop_spec (v := { f.blocks with capacity := 2 * f.blocks.size })
              (Nat.le_refl _) f.blocks.size (Nat.le_refl _)
          simp only [Heap.attempt, hok, Bool.not_false, if_true, hfull, hdouble, hloop,
            Option.bind_eq_bind, Option.bind_some] at hrun
          cases hrun
          exact .inr ⟨hfull, hcapacity⟩
  · cases hrun
    exact .inl rfl

/-- The first `if` of a push. -/
theorem allocateOnTheLeft_growth {c : Config} {s s' : PushState α}
    (hv : BlocksInv s.fifo.blocks s.heap.nextBlock) (hrun : allocateOnTheLeft c s = some s') :
    Growth c s.fifo s'.fifo := by
  unfold allocateOnTheLeft at hrun
  split at hrun
  · next hgrow =>
      have hwants : wantsMoreMemory c s.fifo = true := (Bool.and_eq_true_iff.mp hgrow).2
      obtain ⟨reserved, f', h', hreserve, hres⟩ := tryReserveABlock_spec hv
      have hcapacity := tryReserveABlock_capacity hv hreserve
      have hsize := hres.same.size
      simp only [hreserve, Option.bind_eq_bind, Option.bind_some] at hrun
      cases reserved with
      | false =>
          simp only [Bool.false_eq_true, if_false] at hrun
          cases hrun
          exact ⟨Nat.le_of_eq hsize.symm, .inl hsize, hcapacity⟩
      | true =>
          have hroom : f'.blocks.size < f'.blocks.capacity := by
            rw [hsize]
            exact hres.room rfl
          cases hblock : h'.fails h'.allocations with
          | true =>
              -- doubled in vain
              simp only [if_true, blockAlloc, Heap.attempt, hblock, Bool.not_true,
                Bool.false_eq_true, if_false] at hrun
              cases hrun
              exact ⟨Nat.le_of_eq hsize.symm, .inl hsize, hcapacity⟩
          | false =>
              simp only [if_true, blockAlloc, Heap.attempt, hblock, Bool.not_false,
                checkedSub_of_le (show f'.blocks.size + 1 ≤ f'.blocks.capacity by omega),
                Option.bind_some, Blocks.set, if_pos (show
                  f'.blocks.capacity - (f'.blocks.size + 1) < f'.blocks.capacity by omega)]
                at hrun
              cases hrun
              rw [← hsize] at hcapacity
              refine ⟨?_, .inr ⟨?_, hwants⟩, ?_⟩
              · simp only [hsize]
                exact Nat.le_succ _
              · simp only [hsize]
              · rw [Blocks.put_capacity, ← hsize]
                exact hcapacity
  · cases hrun
    exact .of_same rfl rfl

/-- A pop leaves the vector as large as it was. -/
theorem popFront_growth {c : Config} {f f' : BufferFifo} {h : Heap α} {r : Option α}
    (hf : Inv c f h) (hrun : popFront c f h false = some (r, f')) : Growth c f f' := by
  by_cases hne : f.size = 0
  · simp only [popFront, shiftFrontLeft, hne, if_true, Option.bind_eq_bind,
      Option.bind_some] at hrun
    cases hrun
    exact .of_same rfl rfl
  rw [popFront_eq hf hne] at hrun
  split at hrun
  · next hrotate =>
      obtain ⟨v', moved, hrotated, _, _, _, hsize, hcapacity, _⟩ :=
        rotate_dropOldest hf hne hrotate
      rw [hrotated] at hrun
      cases hrun
      exact .of_same hsize hcapacity
  · cases hrun
    exact .of_same rfl rfl

/-- **One call.** -/
theorem callStep_growth {c : Config} {s s' : BufferFifo × Heap α} {call : FifoCall α}
    (hs : Inv c s.1 s.2) (hcall : GrowsFilled c s call) (hstep : callStep c s call = some s') :
    Growth c s.1 s'.1 := by
  obtain ⟨f, h⟩ := s
  cases call with
  | pushBack e =>
      rw [callStep_pushBack, Option.map_eq_some_iff] at hstep
      obtain ⟨⟨ok, f', h'⟩, hrun, rfl⟩ := hstep
      obtain ⟨s₁, hrun₁, hblocks, _⟩ := pushBack_parts (hcall e rfl) hs hrun
      have hgrowth := allocateOnTheLeft_growth hs.blocks hrun₁
      constructor <;> simp only [hblocks]
      · exact hgrowth.le
      · exact hgrowth.size
      · exact hgrowth.capacity
  | popFront =>
      rw [callStep_popFront, Option.map_eq_some_iff] at hstep
      obtain ⟨⟨r, f'⟩, hrun, rfl⟩ := hstep
      exact popFront_growth hs hrun

/-! ## Storage and occupancy -/

/-- The storage is in proportion to an occupancy of `P` elements. -/
structure Proportional (c : Config) (P : Nat) (f : BufferFifo) : Prop where
  blocks : ((f.blocks.size - 1 : Nat) : ℚ) * c.blockSize * c.shiftFillingRatio ≤ P
  slots : f.blocks.capacity ≤ 2 * f.blocks.size

theorem Proportional.growth {c : Config} {P : Nat} {f f' : BufferFifo}
    (hf : Proportional c P f) (hP : f.size ≤ P) (hgrowth : Growth c f f') :
    Proportional c P f' := by
  constructor
  · rcases hgrowth.size with hsame | ⟨hmore, hwants⟩
    · rw [hsame]
      exact hf.blocks
    · have hthreshold : (f.blocks.size * c.blockSize : ℚ) * c.shiftFillingRatio ≤ f.size := by
        simpa [wantsMoreMemory] using hwants
      rw [hmore, Nat.add_sub_cancel]
      exact hthreshold.trans (by exact_mod_cast hP)
  · have hle := hgrowth.le
    have hslots := hf.slots
    rcases hgrowth.capacity with hsame | ⟨_, hdouble⟩ <;> omega

/-- The slots of the vector, too, are bounded by the occupancy. -/
theorem Proportional.capacity_le {c : Config} {P : Nat} {f : BufferFifo}
    (hf : Proportional c P f) (hpos : 0 < f.blocks.size) :
    (f.blocks.capacity : ℚ) * c.blockSize * c.shiftFillingRatio ≤
      2 * (P + c.blockSize * c.shiftFillingRatio) := by
  have hblock : (0 : ℚ) ≤ c.blockSize * c.shiftFillingRatio :=
    mul_nonneg (Nat.cast_nonneg _) c.ratio_nonneg
  have hslots : (f.blocks.capacity : ℚ) ≤ 2 * ((f.blocks.size - 1 : Nat) + 1) := by
    have := hf.slots
    exact_mod_cast (by omega : f.blocks.capacity ≤ 2 * (f.blocks.size - 1 + 1))
  calc (f.blocks.capacity : ℚ) * c.blockSize * c.shiftFillingRatio
      = f.blocks.capacity * (c.blockSize * c.shiftFillingRatio) := mul_assoc _ _ _
    _ ≤ 2 * ((f.blocks.size - 1 : Nat) + 1) * (c.blockSize * c.shiftFillingRatio) :=
        mul_le_mul_of_nonneg_right hslots hblock
    _ = 2 * ((f.blocks.size - 1 : Nat) * c.blockSize * c.shiftFillingRatio +
          c.blockSize * c.shiftFillingRatio) := by ring
    _ ≤ 2 * (P + c.blockSize * c.shiftFillingRatio) := by linarith [hf.blocks]

/-- One block in a vector of one slot. -/
theorem init_proportional {c : Config} {h₀ h : Heap α} {f : BufferFifo}
    (hinit : init c h₀ = (some f, h)) (P : Nat) : Proportional c P f := by
  unfold init blocksInit blockAlloc Heap.attempt at hinit
  by_cases hvec : h₀.fails h₀.allocations = true
  · simp [hvec] at hinit
  by_cases hblock : h₀.fails (h₀.allocations + 1) = true
  · simp [hvec, hblock] at hinit
  simp only [hvec, hblock, Bool.not_false, if_true, Prod.mk.injEq, Option.some.injEq] at hinit
  obtain ⟨rfl, rfl⟩ := hinit
  exact ⟨by simp, (by decide : 1 ≤ 2 * 1)⟩

/-- A run in which never more than `P` elements are queued. -/
theorem run_proportional {c : Config} (hr : 0 < c.shiftFillingRatio) {P : Nat}
    {s t : BufferFifo × Heap α} {calls : List (FifoCall α)} (hs : Inv c s.1 s.2)
    (hstart : Proportional c P s.1)
    (hvisits : Visits (callStep c) (fun s => s.1.size ≤ P) s calls)
    (hrun : run (callStep c) s calls = some t) :
    Inv c t.1 t.2 ∧ Proportional c P t.1 := by
  apply run_invariant_of_takes (I := fun s => Inv c s.1 s.2 ∧ Proportional c P s.1)
    _ ⟨hs, hstart⟩ hvisits.takes hrun
  rintro s call s' ⟨hs, hproportional⟩ hP hstep
  have hcall := growsFilled_of_ratio_pos hr hs call
  exact ⟨callStep_inv hs hcall hstep,
    hproportional.growth hP (callStep_growth hs hcall hstep)⟩

/-- **Storage.**  After any run from a successful `mtdp_buffer_fifo_init`, blocks
and slots are in proportion to the largest number of elements ever queued; as
long as that stays below a bound, so does the storage. -/
theorem storage_bounded (c : Config) (hr : 0 < c.shiftFillingRatio) (h₀ h : Heap α)
    (f : BufferFifo) (hinit : init c h₀ = (some f, h)) (calls : List (FifoCall α)) :
    ∃ f' h', run (callStep c) (f, h) calls = some (f', h') ∧
      ((f'.blocks.size - 1 : Nat) : ℚ) * c.blockSize * c.shiftFillingRatio ≤
        peak (callStep c) (fun s => s.1.size) (f, h) calls ∧
      (∃ k, f'.blocks.capacity = 2 ^ k) ∧
      f'.blocks.size ≤ f'.blocks.capacity ∧ f'.blocks.capacity ≤ 2 * f'.blocks.size ∧
      ∀ P, Visits (callStep c) (fun s => s.1.size ≤ P) (f, h) calls →
        (f'.blocks.capacity : ℚ) * c.blockSize * c.shiftFillingRatio ≤
          2 * (P + c.blockSize * c.shiftFillingRatio) := by
  have hinv : Inv c f h := (init_spec hinit).1
  have hstart := init_proportional hinit
  have htakes : Takes (callStep c) (GrowsFilled c) (f, h) calls := takes_growsFilled hr hinv calls
  obtain ⟨⟨f', h'⟩, hrun⟩ := run_defined hinv htakes
  obtain ⟨hinv', hpeak⟩ := run_proportional hr hinv (hstart _)
    (visits_le_peak (fun s => s.1.size) (f, h) calls) hrun
  refine ⟨f', h', hrun, hpeak.blocks, hinv'.blocks.capacity_pow, hinv'.blocks.size_le_capacity,
    hpeak.slots, ?_⟩
  intro P hvisits
  exact (run_proportional hr hinv (hstart P) hvisits hrun).2.capacity_le hinv'.blocks.size_pos

/-- Blocks of two cells; the vector doubles for the third push, and the block is
refused. -/
theorem storage_bounded_refused :
    ∃ f' h', run (callStep ⟨2, 1 / 2, by decide, by norm_num, by norm_num⟩)
        (⟨⟨Function.update (fun _ => 0) 0 0, 1, 1⟩, 0, 2⟩,
          (⟨fun _ _ => 0, fun _ => 0, 1, 2, fun k => k == 3⟩ : Heap Nat))
        [.pushBack 5, .pushBack 6, .pushBack 7, .popFront, .pushBack 8, .pushBack 9] =
          some (f', h') ∧
      (∃ k, f'.blocks.capacity = 2 ^ k) ∧ f'.blocks.capacity ≤ 2 * f'.blocks.size := by
  obtain ⟨f', h', hrun, _, hpow, _, hslots, _⟩ :=
    storage_bounded ⟨2, 1 / 2, by decide, by norm_num, by norm_num⟩ (by norm_num)
      ⟨fun _ _ => 0, fun _ => 0, 0, 0, fun k => k == 3⟩
      ⟨fun _ _ => 0, fun _ => 0, 1, 2, fun k => k == 3⟩
      ⟨⟨Function.update (fun _ => 0) 0 0, 1, 1⟩, 0, 2⟩ rfl
      [.pushBack 5, .pushBack 6, .pushBack 7, .popFront, .pushBack 8, .pushBack 9]
  exact ⟨f', h', hrun, hpow, hslots⟩

end Mtdp.Fifo
