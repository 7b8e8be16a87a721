import Mathlib.Tactic.NormNum
import Mtdp.Fifo.Refinement
import Mtdp.Lib.Transition

/-!
# Which slots the heap FIFO touches

Every index into the block vector is computed from the right end, by a
formula of the C code.  The lists below name the slots that a push and a pop
touch, each with the capacity and the number of blocks its index was computed
from.  No list of accesses runs the deque on its own: they follow the states
of the definitions in `Mtdp.Fifo.Model`.

A filling ratio of zero lets a push allocate a block for a deque without
elements.  The only element then lies left of the last block, where the next
pop does not look for it.  With any ratio, a push that doubled the vector and
was refused the block goes on with the old capacity, and reaches its cell
through the copies the doubling left behind.

## Main results

* `contract_iff` — one call is safe exactly if it gives no block to an empty
  deque.
* `claimsLive_iff` — when the slot of the claimed cell is live in the vector as
  it is then.
* `accesses_in_range_iff` — the runs all of whose calls are safe.
-/

namespace Mtdp.Fifo

open Lib.Transition

variable {α : Type}

/-! ## Accesses -/

/-- An access to slot `slot` of the block vector; `capacity` and `size` are
those its index was computed with. -/
structure Access where
  slot : Nat
  capacity : Nat
  size : Nat
  deriving DecidableEq, Repr

/-- The slot holds one of the live blocks. -/
def Access.InRange (a : Access) : Prop :=
  a.size ≤ a.capacity ∧ a.capacity - a.size ≤ a.slot ∧ a.slot < a.capacity

/-- The loop of `mtdp_buffer_fifo_try_reserve_a_block`; it reads the slots as
they were before the `realloc`. -/
def reserveAccesses (f : BufferFifo) (h : Heap α) : List Access :=
  if f.blocks.capacity = f.blocks.size ∧ h.fails h.allocations = false then
    let cap := 2 ^ (1 + Nat.clog 2 f.blocks.capacity)
    (List.range' 1 f.blocks.size).flatMap fun i =>
      [⟨f.blocks.size - i, f.blocks.capacity, f.blocks.size⟩, ⟨cap - i, cap, f.blocks.size⟩]
  else []

/-- The slot that is filled with a new block. -/
def fillAccesses (f : BufferFifo) (h : Heap α) : List Access :=
  match tryReserveABlock f h with
  | some (true, f, h) =>
      if (blockAlloc h).1.isSome then
        [⟨f.blocks.capacity - (f.blocks.size + 1), f.blocks.capacity, f.blocks.size + 1⟩]
      else []
  | _ => []

/-- The first `if` of `mtdp_buffer_fifo_shift_back_left`. -/
def allocateAccesses (c : Config) (s : PushState α) : List Access :=
  if !s.freeSpaceOnTheLeft && wantsMoreMemory c s.fifo then
    reserveAccesses s.fifo s.heap ++ fillAccesses s.fifo s.heap
  else []

/-- The second `if`: the loop of `mtdp_buffer_fifo_rightshift_elements`. -/
def shiftAccesses (c : Config) (s : PushState α) : List Access :=
  if !s.freeSpaceOnTheLeft && s.fifo.size != s.fifo.blocks.size * c.blockSize then
    let v := s.fifo.blocks
    let delta := v.size * c.blockSize - (s.fifo.firstElementOffset + s.fifo.size)
    (List.range s.fifo.size).flatMap fun i =>
      [⟨v.capacity - 1 - (i + delta) / c.blockSize, v.capacity, v.size⟩,
        ⟨v.capacity - 1 - i / c.blockSize, v.capacity, v.size⟩]
  else []

/-- The third `if`. -/
def claimAccesses (c : Config) (s : PushState α) : List Access :=
  if s.freeSpaceOnTheLeft then
    [⟨s.capacity - s.fifo.blocks.size + (s.fifo.firstElementOffset - 1) / c.blockSize,
      s.capacity, s.fifo.blocks.size⟩]
  else []

/-- What `mtdp_buffer_fifo_shift_back_left` starts from. -/
def pushStart (f : BufferFifo) (h : Heap α) : PushState α :=
  ⟨f, h, f.blocks.capacity, f.firstElementOffset != 0⟩

/-- `mtdp_buffer_fifo_push_back` -/
def pushAccesses (c : Config) (f : BufferFifo) (h : Heap α) : Option (List Access) := do
  let s₁ ← allocateOnTheLeft c (pushStart f h)
  let s₂ ← shiftOnTheLeft c s₁
  some (allocateAccesses c (pushStart f h) ++ shiftAccesses c s₁ ++ claimAccesses c s₂)

/-- `mtdp_buffer_fifo_pop_front` -/
def popAccesses (c : Config) (f : BufferFifo) : List Access :=
  if f.size = 0 then []
  else
    let v := f.blocks
    ⟨v.capacity - 1, v.capacity, v.size⟩ ::
      if v.size * c.blockSize - (f.size + f.firstElementOffset) = c.blockSize - 1 ∧ v.size ≠ 1 then
        let moved := (f.firstElementOffset % c.blockSize + (f.size - 1)) / c.blockSize
        (List.range' 1 moved).flatMap
            (fun i => [⟨v.capacity - i - 1, v.capacity, v.size⟩,
              ⟨v.capacity - i, v.capacity, v.size⟩]) ++
          [⟨v.capacity - (moved + 1), v.capacity, v.size⟩]
      else []

def accesses (c : Config) (s : BufferFifo × Heap α) : FifoCall α → Option (List Access)
  | .pushBack _ => pushAccesses c s.1 s.2
  | .popFront => some (popAccesses c s.1)

/-! ## What is promised -/

/-- The two inequalities that keep the index of the oldest element in range. -/
structure StateOk (c : Config) (f : BufferFifo) : Prop where
  fits : f.firstElementOffset + f.size ≤ f.blocks.size * c.blockSize
  lastBlock : 0 < f.size → (f.blocks.size - 1) * c.blockSize < f.firstElementOffset + f.size

def callStep (c : Config) (s : BufferFifo × Heap α) (call : FifoCall α) :
    Option (BufferFifo × Heap α) := (fifoCall c s call).map (·.2)

/-- The call is defined, leads to a good state, and touches live slots only. -/
structure Contract (c : Config) (s : BufferFifo × Heap α) (call : FifoCall α) : Prop where
  defined : ∃ s', callStep c s call = some s' ∧ StateOk c s'.1
  touched : ∃ as, accesses c s call = some as ∧ ∀ a ∈ as, a.InRange

/-- The cell a push claims is reached through a slot that is live in the
vector as it is then, whatever the local `capacity` says. -/
def ClaimsLive (c : Config) (s : BufferFifo × Heap α) : FifoCall α → Prop
  | .pushBack _ => ∀ s₁ s₂, allocateOnTheLeft c (pushStart s.1 s.2) = some s₁ →
      shiftOnTheLeft c s₁ = some s₂ → ∀ a ∈ claimAccesses c s₂,
        Access.InRange ⟨a.slot, s₂.fifo.blocks.capacity, a.size⟩
  | .popFront => True

/-- The vector is doubled for a block that is then refused. -/
def DoublesInVain (c : Config) (f : BufferFifo) (h : Heap α) : Prop :=
  f.firstElementOffset = 0 ∧ wantsMoreMemory c f = true ∧ f.blocks.capacity = f.blocks.size ∧
    h.fails h.allocations = false ∧ h.fails (h.allocations + 1) = true

/-- The push doubles the vector in vain and then makes room by shifting. -/
def ShiftsDoubled (c : Config) (s : BufferFifo × Heap α) (call : FifoCall α) : Prop :=
  ∃ e, call = .pushBack e ∧ DoublesInVain c s.1 s.2 ∧
    s.1.size ≠ s.1.blocks.size * c.blockSize

/-- The call gives no block to a deque without elements. -/
def GrowsFilled (c : Config) (s : BufferFifo × Heap α) (call : FifoCall α) : Prop :=
  ∀ e, call = .pushBack e → ¬ GrowsEmpty c s.1 s.2

/-! ## In range -/

theorem Inv.stateOk {c : Config} {f : BufferFifo} {h : Heap α} (hf : Inv c f h) :
    StateOk c f := by
  constructor
  · exact hf.fits
  · intro hpos
    rcases hf.lastBlock with hlast | ⟨_, _, hzero⟩
    · exact hlast
    · omega

/-- The `j`-th slot from the right, for a live `j`. -/
theorem inRange_of_right {capacity size slot : Nat} (hle : size ≤ capacity) {j : Nat}
    (hj : j < size) (hslot : slot = capacity - 1 - j) : Access.InRange ⟨slot, capacity, size⟩ := by
  subst hslot
  refine ⟨hle, ?_, ?_⟩
  · simp only
    omega
  · simp only
    omega

theorem reserveAccesses_inRange {f : BufferFifo} {h : Heap α} {nextBlock : Nat}
    (hv : BlocksInv f.blocks nextBlock) : ∀ a ∈ reserveAccesses f h, a.InRange := by
  intro a ha
  unfold reserveAccesses at ha
  split at ha
  · next hfull =>
      have hdouble := doubledCapacity hv.capacity_pow
      have hle := hv.size_le_capacity
      simp only [List.mem_flatMap, List.mem_range'_1, List.mem_cons, List.not_mem_nil,
        or_false] at ha
      obtain ⟨i, ⟨hlo, hhi⟩, rfl | rfl⟩ := ha
      · apply inRange_of_right hle (show i - 1 < f.blocks.size by omega)
        omega
      · rw [hdouble]
        apply inRange_of_right (by omega) (show i - 1 < f.blocks.size by omega)
        omega
  · cases ha

theorem fillAccesses_inRange {f : BufferFifo} {h : Heap α}
    (hv : BlocksInv f.blocks h.nextBlock) : ∀ a ∈ fillAccesses f h, a.InRange := by
  intro a ha
  obtain ⟨reserved, f', h', hrun, hres⟩ := tryReserveABlock_spec hv
  unfold fillAccesses at ha
  rw [hrun] at ha
  cases reserved with
  | false => cases ha
  | true =>
      have hroom := hres.room rfl
      rw [← hres.same.size] at hroom
      simp only at ha
      split at ha
      · rw [List.mem_singleton] at ha
        subst ha
        apply inRange_of_right hroom (Nat.lt_succ_self _)
        omega
      · cases ha

theorem allocateAccesses_inRange {c : Config} {s : PushState α}
    (hv : BlocksInv s.fifo.blocks s.heap.nextBlock) : ∀ a ∈ allocateAccesses c s, a.InRange := by
  intro a ha
  unfold allocateAccesses at ha
  split at ha
  · rcases List.mem_append.mp ha with ha | ha
    · exact reserveAccesses_inRange hv a ha
    · exact fillAccesses_inRange hv a ha
  · cases ha

theorem shiftAccesses_inRange {c : Config} {s : PushState α} (hs : Inv c s.fifo s.heap) :
    ∀ a ∈ shiftAccesses c s, a.InRange := by
  intro a ha
  have hfits := hs.fits
  have hle := hs.blocks.size_le_capacity
  unfold shiftAccesses at ha
  split at ha
  · simp only [List.mem_flatMap, List.mem_range, List.mem_cons, List.not_mem_nil, or_false] at ha
    obtain ⟨i, hi, rfl | rfl⟩ := ha
    · exact inRange_of_right hle (cell_lt_blocks (by omega)) rfl
    · exact inRange_of_right hle (cell_lt_blocks (B := c.blockSize) (by omega)) rfl
  · cases ha

/-- The local capacity may be older than the vector; the index it leads to is
that of a live block all the same. -/
theorem claimAccesses_inRange {c : Config} {h₀ : Heap α} {q : List α} {s : PushState α}
    (hs : PushInv c h₀ q s) : ∀ a ∈ claimAccesses c s, a.InRange := by
  intro a ha
  have hfits := hs.inv.fits
  have hcap := hs.capacity
  unfold claimAccesses at ha
  split at ha
  · next hfree =>
      have hoffset : 0 < s.fifo.firstElementOffset := (claimOnTheLeft_spec hs hfree).1
      have hdiv : (s.fifo.firstElementOffset - 1) / c.blockSize < s.fifo.blocks.size :=
        cell_lt_blocks (by omega)
      rw [List.mem_singleton] at ha
      subst ha
      refine ⟨hcap, Nat.le_add_right _ _, ?_⟩
      generalize (s.fifo.firstElementOffset - 1) / c.blockSize = j at hdiv
      simp only
      omega
  · cases ha

theorem pushStart_inv {c : Config} {f : BufferFifo} {h : Heap α} (hf : Inv c f h) :
    PushInv c h (contents c f h) (pushStart f h) where
  inv := hf
  contents := rfl
  capacity := hf.blocks.size_le_capacity
  left := left_of_capacity hf.blocks
  flag := rfl
  fails := rfl
  allocations := Nat.le_refl _

theorem pushAccesses_inRange {c : Config} {f : BufferFifo} {h : Heap α}
    (hempty : ¬ GrowsEmpty c f h) (hf : Inv c f h) :
    ∃ as, pushAccesses c f h = some as ∧ ∀ a ∈ as, a.InRange := by
  obtain ⟨s₁, hrun₁, hs₁, _⟩ := allocateOnTheLeft_spec hempty (pushStart_inv hf) rfl rfl
  obtain ⟨s₂, hrun₂, hs₂, _⟩ := shiftOnTheLeft_spec hs₁
  have hrun : pushAccesses c f h = some (allocateAccesses c (pushStart f h) ++
      shiftAccesses c s₁ ++ claimAccesses c s₂) := by
    simp only [pushAccesses, hrun₁, hrun₂, Option.bind_eq_bind, Option.bind_some]
  refine ⟨_, hrun, ?_⟩
  intro a ha
  rcases List.mem_append.mp ha with ha | ha
  · rcases List.mem_append.mp ha with ha | ha
    · exact allocateAccesses_inRange hf.blocks a ha
    · exact shiftAccesses_inRange hs₁.inv a ha
  · exact claimAccesses_inRange hs₂ a ha

theorem popAccesses_inRange {c : Config} {f : BufferFifo} {h : Heap α} (hf : Inv c f h) :
    ∀ a ∈ popAccesses c f, a.InRange := by
  intro a ha
  have hpos := hf.blocks.size_pos
  have hle := hf.blocks.size_le_capacity
  unfold popAccesses at ha
  split at ha
  · cases ha
  next hne =>
  simp only [List.mem_cons] at ha
  rcases ha with rfl | ha
  · exact inRange_of_right hle hpos rfl
  split at ha
  · next hrotate =>
      have hrow := hf.gap_add_size
      have hpred := pred_mul_add c.blockSize hpos
      have hB := c.blockSize_pos
      have hlast : f.firstElementOffset + (f.size - 1) = (f.blocks.size - 1) * c.blockSize := by
        omega
      have hmoved : (f.firstElementOffset % c.blockSize + (f.size - 1)) / c.blockSize <
          f.blocks.size := by
        rw [moved_eq hB hlast]
        exact Nat.lt_of_le_of_lt (Nat.sub_le _ _) (Nat.sub_lt hpos Nat.one_pos)
      generalize (f.firstElementOffset % c.blockSize + (f.size - 1)) / c.blockSize = moved at *
      simp only [List.mem_append, List.mem_flatMap, List.mem_range'_1, List.mem_cons,
        List.not_mem_nil, or_false] at ha
      rcases ha with ⟨i, ⟨hlo, hhi⟩, rfl | rfl⟩ | rfl
      · apply inRange_of_right hle (show i < f.blocks.size by omega)
        omega
      · apply inRange_of_right hle (show i - 1 < f.blocks.size by omega)
        omega
      · apply inRange_of_right hle (show moved < f.blocks.size by omega)
        omega
  · cases ha

/-! ## A vector doubled in vain -/

/-- The vector after a call of `mtdp_buffer_fifo_try_reserve_a_block`. -/
theorem tryReserveABlock_cases {f f' : BufferFifo} {h h' : Heap α} {reserved : Bool}
    (hv : BlocksInv f.blocks h.nextBlock)
    (hrun : tryReserveABlock f h = some (reserved, f', h')) :
    (f.blocks.capacity = f.blocks.size ∧ h.fails h.allocations = false ∧ reserved = true ∧
      f'.blocks.capacity = 2 * f.blocks.size ∧ h' = h.attempt.2) ∨
    (f.blocks.capacity = f.blocks.size ∧ h.fails h.allocations = true ∧ reserved = false ∧
      f'.blocks.capacity = f.blocks.capacity) ∨
    (f.blocks.capacity ≠ f.blocks.size ∧ f'.blocks.capacity = f.blocks.capacity) := by
  unfold tryReserveABlock at hrun
  split at hrun
  · next hfull =>
      have hdouble := doubledCapacity hv.capacity_pow
      rw [hfull] at hdouble
      cases hok : h.fails h.allocations with
      | true =>
          simp only [Heap.attempt, hok, Bool.not_true, Bool.false_eq_true, if_false] at hrun
          cases hrun
          exact .inr (.inl ⟨hfull, rfl, rfl, rfl⟩)
      | false =>
          obtain ⟨v', hloop, _, hcapacity, _⟩ := blockShiftLoop_spec
            (v := { f.blocks with capacity := 2 * f.blocks.size }) (Nat.le_refl _) f.blocks.size
            (Nat.le_refl _)
          simp only [Heap.attempt, hok, Bool.not_false, if_true, hfull, hdouble, hloop,
            Option.bind_eq_bind, Option.bind_some] at hrun
          cases hrun
          exact .inl ⟨hfull, rfl, rfl, hcapacity, rfl⟩
  · next hfull =>
      cases hrun
      exact .inr (.inr ⟨hfull, rfl⟩)

theorem Blocks.set_capacity {v v' : Blocks} {i b : Nat} (hset : v.set i b = some v') :
    v'.capacity = v.capacity := by
  unfold Blocks.set at hset
  split at hset
  · cases hset
    rfl
  · cases hset

/-- After the first `if` the local `capacity` is out of date exactly if the
vector was doubled in vain. -/
theorem allocateOnTheLeft_capacity {c : Config} {f : BufferFifo} {h : Heap α} {s : PushState α}
    (hv : BlocksInv f.blocks h.nextBlock)
    (hrun : allocateOnTheLeft c (pushStart f h) = some s) :
    (DoublesInVain c f h ∧ s.freeSpaceOnTheLeft = false ∧ s.capacity = f.blocks.size ∧
      s.fifo.blocks.capacity = 2 * f.blocks.size ∧ s.fifo.blocks.size = f.blocks.size ∧
      s.fifo.size = f.size) ∨
    (¬ DoublesInVain c f h ∧ s.capacity = s.fifo.blocks.capacity) := by
  unfold allocateOnTheLeft at hrun
  split at hrun
  · next hgrow =>
      simp only [pushStart, Bool.and_eq_true, Bool.not_eq_true', bne_eq_false_iff_eq] at hgrow
      obtain ⟨hoffset, hwants⟩ := hgrow
      obtain ⟨reserved, f', h', hreserve, hres⟩ := tryReserveABlock_spec (f := f) (h := h) hv
      simp only [pushStart, hreserve, Option.bind_eq_bind, Option.bind_some] at hrun
      rcases tryReserveABlock_cases hv hreserve with
        ⟨hfull, hvector, rfl, hcapacity, rfl⟩ | ⟨hfull, hvector, rfl, hcapacity⟩ |
          ⟨hfull, hcapacity⟩
      · cases hblock : h.fails (h.allocations + 1) with
        | true =>
            simp only [if_true, blockAlloc, Heap.attempt, hblock, Bool.not_true,
              Bool.false_eq_true, if_false] at hrun
            cases hrun
            left
            refine ⟨⟨hoffset, hwants, hfull, hvector, hblock⟩, ?_, hfull, hcapacity,
              hres.same.size, hres.size⟩
            simp [hoffset]
        | false =>
            right
            constructor
            · rintro ⟨_, _, _, _, hrefused⟩
              rw [hblock] at hrefused
              cases hrefused
            · simp only [if_true, blockAlloc, Heap.attempt, hblock, Bool.not_false,
                Option.bind_eq_some_iff] at hrun
              obtain ⟨slot, _, blocks, hset, hdone⟩ := hrun
              cases hdone
              exact (Blocks.set_capacity hset).symm
      · right
        constructor
        · rintro ⟨_, _, _, hok, _⟩
          rw [hvector] at hok
          cases hok
        · simp only [Bool.false_eq_true, if_false] at hrun
          cases hrun
          exact hcapacity.symm
      · right
        constructor
        · rintro ⟨_, _, hdoubled, _⟩
          exact hfull hdoubled
        · cases reserved with
          | false =>
              simp only [Bool.false_eq_true, if_false] at hrun
              cases hrun
              exact hcapacity.symm
          | true =>
              simp only [if_true] at hrun
              split at hrun
              · simp only [Option.bind_eq_some_iff] at hrun
                obtain ⟨slot, _, blocks, hset, hdone⟩ := hrun
                cases hdone
                exact (Blocks.set_capacity hset).symm
              · cases hrun
                exact hcapacity.symm
  · next hgrow =>
      cases hrun
      right
      constructor
      · rintro ⟨hoffset, hwants, _⟩
        apply hgrow
        simp [pushStart, hoffset, hwants]
      · rfl

theorem shiftOnTheLeft_same {c : Config} {s s' : PushState α}
    (hrun : shiftOnTheLeft c s = some s') :
    s'.capacity = s.capacity ∧ s'.fifo.blocks = s.fifo.blocks := by
  unfold shiftOnTheLeft at hrun
  split at hrun
  · simp only [rightshiftElements, Option.bind_eq_bind, Option.bind_eq_some_iff] at hrun
    obtain ⟨shifted, ⟨delta, _, capacity, _, h', _, hshift⟩, hdone⟩ := hrun
    cases hshift
    cases hdone
    exact ⟨rfl, rfl⟩
  · cases hrun
    exact ⟨rfl, rfl⟩

/-- **The slot of the claimed cell.**  It is live in the vector as it is then,
except after a vain doubling; there it is one of the copies the doubling left
behind. -/
theorem claimsLive_iff {c : Config} {s : BufferFifo × Heap α} {call : FifoCall α}
    (hs : Inv c s.1 s.2) (hcall : GrowsFilled c s call) :
    ClaimsLive c s call ↔ ¬ ShiftsDoubled c s call := by
  cases call with
  | popFront => exact iff_of_true trivial fun ⟨_, heq, _⟩ => by cases heq
  | pushBack e =>
      obtain ⟨s₁, hrun₁, hs₁, _⟩ :=
        allocateOnTheLeft_spec (hcall e rfl) (pushStart_inv hs) rfl rfl
      obtain ⟨s₂, hrun₂, hs₂, hfree⟩ := shiftOnTheLeft_spec hs₁
      obtain ⟨hcapacity, hblocks⟩ := shiftOnTheLeft_same hrun₂
      constructor
      · -- the claimed slot lies left of the doubled vector's middle
        rintro hlive ⟨_, _, hdoubled, hroom⟩
        rcases allocateOnTheLeft_capacity hs.blocks hrun₁ with
          ⟨_, _, hold, hnew, hsize₁, hcount⟩ | ⟨hnot, _⟩
        · have hspace : s₂.freeSpaceOnTheLeft = true := by
            by_contra hno
            rw [Bool.not_eq_true] at hno
            obtain ⟨_, hfull⟩ := hfree hno
            rw [hsize₁, hcount] at hfull
            exact hroom hfull
          have hoffset := (claimOnTheLeft_spec hs₂ hspace).1
          have hfits := hs₂.inv.fits
          have hdiv : (s₂.fifo.firstElementOffset - 1) / c.blockSize < s₂.fifo.blocks.size :=
            cell_lt_blocks (by omega)
          have hin := hlive s₁ s₂ hrun₁ hrun₂ _ (by
            unfold claimAccesses
            rw [if_pos hspace]
            exact List.mem_singleton_self _)
          have hlow := hin.2.1
          simp only [hcapacity, hold, hblocks, hnew, hsize₁] at hlow hdiv
          omega
        · exact hnot hdoubled
      · intro hnot t₁ t₂ hrun₁' hrun₂' a ha
        rw [hrun₁] at hrun₁'
        cases hrun₁'
        rw [hrun₂] at hrun₂'
        cases hrun₂'
        have hin := claimAccesses_inRange hs₂ a ha
        rcases allocateOnTheLeft_capacity hs.blocks hrun₁ with
          ⟨hdoubled, hfree₁, _, _, hsize₁, hcount⟩ | ⟨_, hcurrent⟩
        · -- the deque is full, and nothing is claimed
          have hfull : s.1.size = s.1.blocks.size * c.blockSize := by
            by_contra hroom
            exact hnot ⟨e, rfl, hdoubled, hroom⟩
          have hsame : s₂ = s₁ := by
            unfold shiftOnTheLeft at hrun₂
            rw [hsize₁, hcount, hfull] at hrun₂
            simpa using hrun₂.symm
          unfold claimAccesses at ha
          rw [hsame, hfree₁] at ha
          cases ha
        · unfold claimAccesses at ha
          split at ha
          · rw [List.mem_singleton] at ha
            subst ha
            have hcap : s₂.fifo.blocks.capacity = s₂.capacity := by
              rw [hblocks, hcapacity, hcurrent]
            rw [hcap]
            exact hin
          · cases ha

/-! ## Empty deques -/

/-- A block that is not refused is given. -/
theorem reserved_of_not_refused {f f' : BufferFifo} {h h' : Heap α} {reserved : Bool}
    (hrun : tryReserveABlock f h = some (reserved, f', h')) (hgiven : growthRefused f h = false) :
    reserved = true ∧ h'.fails h'.allocations = false := by
  unfold tryReserveABlock at hrun
  unfold growthRefused at hgiven
  split at hrun
  · next hfull =>
      rw [if_pos hfull, Bool.or_eq_false_iff] at hgiven
      simp only [Heap.attempt, hgiven.1, Bool.not_false, if_true, Option.bind_eq_bind,
        Option.bind_eq_some_iff, Option.some.injEq, Prod.mk.injEq] at hrun
      obtain ⟨blocks, _, rfl, _, rfl⟩ := hrun
      exact ⟨rfl, hgiven.2⟩
  · next hfull =>
      rw [if_neg hfull] at hgiven
      cases hrun
      exact ⟨rfl, hgiven⟩

/-- The first element of a deque that was given a block while it was empty
lies left of the last block. -/
theorem pushBack_growsEmpty {c : Config} {f f' : BufferFifo} {h h' : Heap α} {e : α} {ok : Bool}
    (hf : Inv c f h) (hempty : GrowsEmpty c f h)
    (hrun : pushBack c f h e = some (ok, f', h')) : ¬ StateOk c f' := by
  obtain ⟨hzero, hoffset, hwants, hgiven⟩ := hempty
  have hB := c.blockSize_pos
  have hone : f.blocks.size = 1 := by
    rcases hf.lastBlock with hlast | ⟨hone, _, _⟩
    · omega
    · exact hone
  obtain ⟨reserved, f₁, h₁, hreserve, hres⟩ := tryReserveABlock_spec hf.blocks
  obtain ⟨rfl, hblock⟩ := reserved_of_not_refused hreserve hgiven
  have hroom : f₁.blocks.size < f₁.blocks.capacity := by
    rw [hres.same.size]
    exact hres.room rfl
  have hsize : f₁.size = 0 := hres.size.trans hzero
  have hblocks : f₁.blocks.size = 1 := hres.same.size.trans hone
  simp only [pushBack, shiftBackLeft, allocateOnTheLeft, hoffset, hwants, hreserve, blockAlloc,
    Heap.attempt, hblock, bne_self_eq_false, Bool.not_false, Bool.and_self, if_true,
    Option.bind_eq_bind, Option.bind_some,
    checkedSub_of_le (show f₁.blocks.size + 1 ≤ f₁.blocks.capacity by omega), Blocks.set,
    if_pos (show f₁.blocks.capacity - (f₁.blocks.size + 1) < f₁.blocks.capacity by omega),
    shiftOnTheLeft, Bool.not_true, Bool.false_and, Bool.false_eq_true, if_false, claimOnTheLeft,
    checkedSub_of_le (show 1 ≤ c.blockSize by omega), Option.bind_eq_some_iff] at hrun
  obtain ⟨claimed, ⟨block, _, hclaim⟩, hwrite⟩ := hrun
  rw [Option.some.injEq] at hclaim
  subst hclaim
  simp only [Option.bind_eq_some_iff] at hwrite
  obtain ⟨h₃, _, hdone⟩ := hwrite
  cases hdone
  intro hok
  have hlast := hok.lastBlock (Nat.succ_pos _)
  simp only [hsize, hblocks] at hlast
  omega

/-! ## Runs -/

theorem callStep_pushBack {c : Config} {f : BufferFifo} {h : Heap α} {e : α} :
    callStep c (f, h) (.pushBack e) = (pushBack c f h e).map (·.2) := by
  simp only [callStep, fifoCall, Option.bind_eq_bind]
  cases pushBack c f h e <;> rfl

theorem callStep_popFront {c : Config} {f : BufferFifo} {h : Heap α} :
    callStep c (f, h) .popFront = (popFront c f h false).map fun r => (r.2, h) := by
  simp only [callStep, fifoCall, Option.bind_eq_bind]
  cases popFront c f h false <;> rfl

/-- A call that gives no block to an empty deque. -/
theorem callStep_spec {c : Config} {s : BufferFifo × Heap α} {call : FifoCall α}
    (hs : Inv c s.1 s.2) (hcall : GrowsFilled c s call) :
    ∃ s', callStep c s call = some s' ∧ Inv c s'.1 s'.2 := by
  obtain ⟨f, h⟩ := s
  cases call with
  | pushBack e =>
      obtain ⟨ok, f', h', hrun, hinv, _⟩ := pushBack_spec_of_not_growsEmpty (hcall e rfl) hs e
      exact ⟨(f', h'), by rw [callStep_pushBack, hrun]; rfl, hinv⟩
  | popFront =>
      obtain ⟨r, f', hrun, hinv, _⟩ := popFront_spec hs
      exact ⟨(f', h), by rw [callStep_popFront, hrun]; rfl, hinv⟩

theorem accesses_inRange {c : Config} {s : BufferFifo × Heap α} {call : FifoCall α}
    (hs : Inv c s.1 s.2) (hcall : GrowsFilled c s call) :
    ∃ as, accesses c s call = some as ∧ ∀ a ∈ as, a.InRange := by
  cases call with
  | pushBack e => exact pushAccesses_inRange (hcall e rfl) hs
  | popFront => exact ⟨_, rfl, popAccesses_inRange hs⟩

/-- **One call.**  In a state in good order, the safe calls are those that give
no block to an empty deque. -/
theorem contract_iff {c : Config} {s : BufferFifo × Heap α} (hs : Inv c s.1 s.2)
    (call : FifoCall α) : Contract c s call ↔ GrowsFilled c s call := by
  constructor
  · intro hcontract e heq hempty
    subst heq
    obtain ⟨s', hstep, hok⟩ := hcontract.defined
    rw [show s = (s.1, s.2) from rfl, callStep_pushBack, Option.map_eq_some_iff] at hstep
    obtain ⟨⟨ok, f', h'⟩, hrun, rfl⟩ := hstep
    exact pushBack_growsEmpty hs hempty hrun hok
  · intro hcall
    obtain ⟨s', hstep, hinv⟩ := callStep_spec hs hcall
    exact ⟨⟨s', hstep, hinv.stateOk⟩, accesses_inRange hs hcall⟩

/-- With a positive filling ratio no call gives a block to an empty deque. -/
theorem growsFilled_of_ratio_pos {c : Config} (hr : 0 < c.shiftFillingRatio)
    {s : BufferFifo × Heap α} (hs : Inv c s.1 s.2) (call : FifoCall α) : GrowsFilled c s call :=
  fun _ _ => not_growsEmpty hr s.2 hs.blocks.size_pos

theorem callStep_inv {c : Config} {s s' : BufferFifo × Heap α} {call : FifoCall α}
    (hs : Inv c s.1 s.2) (hcall : GrowsFilled c s call) (hstep : callStep c s call = some s') :
    Inv c s'.1 s'.2 := by
  obtain ⟨t, ht, hinv⟩ := callStep_spec hs hcall
  rw [hstep, Option.some.injEq] at ht
  rw [ht]
  exact hinv

/-- With a positive filling ratio every run gives blocks to filled deques only. -/
theorem takes_growsFilled {c : Config} (hr : 0 < c.shiftFillingRatio)
    {s : BufferFifo × Heap α} (hs : Inv c s.1 s.2) (calls : List (FifoCall α)) :
    Takes (callStep c) (GrowsFilled c) s calls := by
  apply takes_of_invariant (I := fun s => Inv c s.1 s.2) _ _ hs
  · intro s call s' hs hstep
    exact callStep_inv hs (growsFilled_of_ratio_pos hr hs call) hstep
  · intro s call hs
    exact growsFilled_of_ratio_pos hr hs call

/-- A run all of whose calls are of one kind, as long as the deque stays in
good order. -/
theorem takes_iff {c : Config} {P Q : BufferFifo × Heap α → FifoCall α → Prop}
    (hone : ∀ s call, Inv c s.1 s.2 → (P s call ↔ Q s call))
    (hgrows : ∀ s call, Q s call → GrowsFilled c s call) {s : BufferFifo × Heap α}
    (hs : Inv c s.1 s.2) (calls : List (FifoCall α)) :
    Takes (callStep c) P s calls ↔ Takes (callStep c) Q s calls := by
  constructor
  · intro htakes
    apply Takes.of_invariant (I := fun s => Inv c s.1 s.2) _ _ hs htakes
    · intro s call s' hs hP hstep
      exact callStep_inv hs (hgrows s call ((hone s call hs).mp hP)) hstep
    · intro s call hs hP
      exact (hone s call hs).mp hP
  · intro htakes
    apply Takes.of_invariant (I := fun s => Inv c s.1 s.2) _ _ hs htakes
    · intro s call s' hs hQ hstep
      exact callStep_inv hs (hgrows s call hQ) hstep
    · intro s call hs hQ
      exact (hone s call hs).mpr hQ

/-- A run that gives no block to an empty deque never leaves the memory of the
deque. -/
theorem run_defined {c : Config} {s : BufferFifo × Heap α} {calls : List (FifoCall α)}
    (hs : Inv c s.1 s.2) (htakes : Takes (callStep c) (GrowsFilled c) s calls) :
    ∃ t, run (callStep c) s calls = some t := by
  have hcontract : Takes (callStep c) (Contract c) s calls :=
    (takes_iff (fun s call hs => contract_iff hs call) (fun s call hcall => hcall) hs calls).mpr
      htakes
  exact hcontract.run_eq_some fun s call hcall => hcall.defined.imp fun s' hs' => hs'.1

/-- **Runs.**  For every block size, every filling ratio and every pattern of
refused allocations: from a successful `mtdp_buffer_fifo_init`, all calls of a
run are safe exactly if none of them gives a block to an empty deque.  The
slots of all claimed cells are live in the vector as it is then exactly if, on
top of that, no call shifts in a vector doubled in vain. -/
theorem accesses_in_range_iff (c : Config) (h₀ h : Heap α) (f : BufferFifo)
    (hinit : init c h₀ = (some f, h)) (calls : List (FifoCall α)) :
    (StateOk c f ∧ Takes (callStep c) (Contract c) (f, h) calls ↔
      Takes (callStep c) (GrowsFilled c) (f, h) calls) ∧
    (StateOk c f ∧
        Takes (callStep c) (fun s call => Contract c s call ∧ ClaimsLive c s call) (f, h) calls ↔
      Takes (callStep c) (fun s call => GrowsFilled c s call ∧ ¬ ShiftsDoubled c s call)
        (f, h) calls) := by
  have hinv : Inv c f h := (init_spec hinit).1
  rw [and_iff_right hinv.stateOk, and_iff_right hinv.stateOk]
  constructor
  · apply takes_iff _ _ hinv
    · intro s call hs
      exact contract_iff hs call
    · intro s call hcall
      exact hcall
  · apply takes_iff _ _ hinv
    · intro s call hs
      rw [contract_iff hs call]
      constructor
      · rintro ⟨hcall, hlive⟩
        exact ⟨hcall, (claimsLive_iff hs hcall).mp hlive⟩
      · rintro ⟨hcall, hnot⟩
        exact ⟨hcall, (claimsLive_iff hs hcall).mpr hnot⟩
    · intro s call hcall
      exact hcall.1

/-- One cell a block, and a filling ratio of zero. -/
def zeroRatio : Config := ⟨1, 0, by decide, by norm_num, by norm_num⟩

/-- The deque of a first `mtdp_buffer_fifo_init` with these settings. -/
def oneCell : BufferFifo := ⟨⟨Function.update (fun _ => 0) 0 0, 1, 1⟩, 0, 1⟩

/-- The second block is refused. -/
theorem accesses_in_range_iff_refused :
    (StateOk zeroRatio oneCell ∧
        Takes (callStep zeroRatio) (Contract zeroRatio)
          (oneCell, (⟨fun _ _ => 0, fun _ => 0, 1, 2, fun k => k == 3⟩ : Heap Nat))
          [.pushBack 5, .popFront, .pushBack 6, .popFront] ↔
      Takes (callStep zeroRatio) (GrowsFilled zeroRatio)
        (oneCell, (⟨fun _ _ => 0, fun _ => 0, 1, 2, fun k => k == 3⟩ : Heap Nat))
        [.pushBack 5, .popFront, .pushBack 6, .popFront]) ∧
    (StateOk zeroRatio oneCell ∧
        Takes (callStep zeroRatio)
          (fun s call => Contract zeroRatio s call ∧ ClaimsLive zeroRatio s call)
          (oneCell, (⟨fun _ _ => 0, fun _ => 0, 1, 2, fun k => k == 3⟩ : Heap Nat))
          [.pushBack 5, .popFront, .pushBack 6, .popFront] ↔
      Takes (callStep zeroRatio)
        (fun s call => GrowsFilled zeroRatio s call ∧ ¬ ShiftsDoubled zeroRatio s call)
        (oneCell, (⟨fun _ _ => 0, fun _ => 0, 1, 2, fun k => k == 3⟩ : Heap Nat))
        [.pushBack 5, .popFront, .pushBack 6, .popFront]) :=
  accesses_in_range_iff zeroRatio ⟨fun _ _ => 0, fun _ => 0, 0, 0, fun k => k == 3⟩
    ⟨fun _ _ => 0, fun _ => 0, 1, 2, fun k => k == 3⟩ oneCell rfl
    [.pushBack 5, .popFront, .pushBack 6, .popFront]

/-- Where nothing is refused, the second block comes with the second element.
The pop after it would read cell `BLOCK_SIZE - front_index_in_block - 1`, which
is below zero. -/
theorem zero_ratio_pop_wraps :
    ¬ ∀ (c : Config) (h₀ h : Heap Nat) (f : BufferFifo), init c h₀ = (some f, h) →
      ∀ calls, StateOk c f ∧ Takes (callStep c) (Contract c) (f, h) calls := by
  intro hclaim
  let h : Heap Nat := ⟨fun _ _ => 0, fun _ => 0, 1, 2, fun _ => false⟩
  obtain ⟨_, htakes⟩ := hclaim zeroRatio ⟨fun _ _ => 0, fun _ => 0, 0, 0, fun _ => false⟩ h
    oneCell rfl [.pushBack 5, .popFront, .pushBack 6, .popFront]
  obtain ⟨t, hrun⟩ := htakes.run_eq_some fun s call hcontract =>
    hcontract.defined.imp fun s' hs' => hs'.1
  have hnone : (run (callStep zeroRatio) (oneCell, h)
      [.pushBack 5, .popFront, .pushBack 6, .popFront]).isNone = true := by decide +kernel
  rw [hrun] at hnone
  cases hnone

end Mtdp.Fifo
