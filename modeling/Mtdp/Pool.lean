import Mathlib.Data.Nat.Log
import Mtdp.Lib.Word
import Mtdp.Memory

/-!
# The buffer pool

`mtdp_buffer_pool` of `src/buffer.c` in its heap configuration: an array of
buffers that grows by `realloc`, used as a stack.

A result of `none` means that the C program has accessed the array out of
its bounds, has handed an array that was freed to `realloc`, or that a signed
subtraction has overflowed.
-/

namespace Mtdp

open Lib.Word

/-- `mtdp_buffer`, a `void*`; `none` is `NULL`. -/
abbrev Buffer := Option Nat

/-- `sizeof(mtdp_buffer)` -/
def sizeofBuffer : Nat := 8

/-- `mtdp_buffer_pool` -/
structure BufferPool where
  buffers : Nat → Buffer
  size : Nat
  capacity : Nat
  /-- `realloc` has freed the array that `buffers` points to -/
  freed : Bool

namespace BufferPool

/-- How many elements the array can hold.  It was allocated with
`capacity * sizeof(mtdp_buffer)` bytes, and that product is a `size_t`. -/
def cells (p : BufferPool) : Nat :=
  if p.freed then 0 else p.capacity * sizeofBuffer % 2 ^ 64 / sizeofBuffer

/-- `realloc` is asked for an array of no bytes, because the product has
wrapped: it frees the old array and returns `NULL`. -/
def frees (p : BufferPool) (elements : Nat) : Bool :=
  p.capacity != 0 && elements * sizeofBuffer % 2 ^ 64 == 0

/-- The allocator refuses an array of `elements` buffers and leaves the old one
alone: it has run out of memory, or `calloc` finds that the array has more
bytes than a `size_t` can count. -/
def refused (p : BufferPool) (h : Heap Buffer) (elements : Nat) : Bool :=
  !p.frees elements &&
    (h.fails h.allocations || (p.capacity == 0 && decide (2 ^ 64 ≤ elements * sizeofBuffer)))

/-- `mtdp_buffer_pool_realloc`.  `realloc` keeps the old elements and leaves
the new ones uninitialised; `calloc` sets all of them to `NULL`. -/
def realloc (p : BufferPool) (h : Heap Buffer) (elements : Nat) :
    Option (Bool × BufferPool × Heap Buffer) :=
  let buffers := if p.capacity = 0 then fun _ => none else p.buffers
  if p.freed then none
  -- `realloc(buffers, 0)`; the fields keep their values, and `buffers` dangles
  else if p.frees elements then some (false, { p with freed := true }, h.attempt.2)
  else if p.refused h elements then some (false, p, h.attempt.2)
  else some (true, { p with buffers, capacity := elements }, h.attempt.2)

/-- `mtdp_buffer_pool_has_space_for` -/
def hasSpaceFor (p : BufferPool) (elements : Nat) : Bool :=
  decide (elements ≤ wrap (p.capacity - p.size))

/-- `MIN_ALLOC_CAP` -/
def minAllocCap : Nat := 16

/-- `mtdp_buffer_pool_preventive_realloc` -/
def preventiveRealloc (p : BufferPool) (h : Heap Buffer) (elements : Nat) :
    Option (Bool × BufferPool × Heap Buffer) :=
  if !p.hasSpaceFor elements then
    let cap := 2 ^ Nat.clog 2 (p.size + elements)
    p.realloc h (if cap > minAllocCap then cap else minAllocCap)
  else some (true, p, h)

/-- `mtdp_buffer_pool_init`; the array is left as it was found. -/
def init (buffers : Nat → Buffer) : BufferPool :=
  { buffers, size := 0, capacity := 0, freed := false }

/-- `mtdp_buffer_pool_push_back` -/
def pushBack (p : BufferPool) (h : Heap Buffer) (e : Buffer) :
    Option (Bool × BufferPool × Heap Buffer) := do
  let (ok, p, h) ← p.preventiveRealloc h 1
  if !ok then some (false, p, h)
  else if p.size < p.cells then
    some (true, { p with buffers := Function.update p.buffers p.size e, size := p.size + 1 }, h)
  else none

/-- `mtdp_buffer_pool_pop_back` -/
def popBack (p : BufferPool) : Option (Buffer × BufferPool) :=
  if p.size ≠ 0 then
    if p.size - 1 < p.cells then
      some (p.buffers (p.size - 1), { p with size := p.size - 1 })
    else none
  else some (none, p)

/-- `mtdp_buffer_pool_resize` -/
def resize (p : BufferPool) (h : Heap Buffer) (size : Nat) :
    Option (Bool × BufferPool × Heap Buffer) := do
  let delta ← checkSigned (toSigned size - toSigned p.capacity)
  if delta < 0 then
    some (true, { p with size := wrap (p.size + delta) }, h)
  else if delta > 0 then
    let (ret, p, h) ← p.realloc h size
    if ret then some (true, { p with size := wrap (p.size + delta) }, h)
    else some (false, p, h)
  else some (true, p, h)

/-! ## Contents -/

/-- The first `n` elements of the array. -/
def take (p : BufferPool) (n : Nat) : List Buffer := (List.range n).map p.buffers

/-- The buffers in the pool, provided that the array holds that many. -/
def entries (p : BufferPool) : Option (List Buffer) :=
  if p.size ≤ p.cells then some (p.take p.size) else none

@[simp] theorem length_take (p : BufferPool) (n : Nat) : (p.take n).length = n := by
  simp [take]

theorem take_congr {p p' : BufferPool} {n : Nat} (h : ∀ i < n, p'.buffers i = p.buffers i) :
    p'.take n = p.take n := by
  apply List.map_congr_left
  intro i hi
  exact h i (List.mem_range.mp hi)

theorem take_succ (p : BufferPool) (n : Nat) : p.take (n + 1) = p.take n ++ [p.buffers n] := by
  simp [take, List.range_succ]

theorem take_isPrefix (p : BufferPool) {m n : Nat} (hle : m ≤ n) : p.take m <+: p.take n := by
  obtain ⟨k, rfl⟩ := Nat.exists_eq_add_of_le hle
  induction k with
  | zero => exact List.prefix_refl _
  | succ k ih =>
      rw [← Nat.add_assoc, take_succ]
      exact (ih (Nat.le_add_right m k)).trans (List.prefix_append _ _)

theorem take_take (p : BufferPool) {m n : Nat} (hle : m ≤ n) :
    (p.take n).take m = p.take m := by
  obtain ⟨suffix, hsuffix⟩ := p.take_isPrefix hle
  rw [← hsuffix, List.take_left' (length_take p m)]

theorem entries_of_le {p : BufferPool} (hle : p.size ≤ p.cells) :
    p.entries = some (p.take p.size) := if_pos hle

theorem entries_eq_some {p : BufferPool} {es : List Buffer} :
    p.entries = some es ↔ p.size ≤ p.cells ∧ es = p.take p.size := by
  unfold entries
  split <;> simp_all [eq_comm]

/-- The array never has room for more than `capacity` elements. -/
theorem cells_le_capacity (p : BufferPool) : p.cells ≤ p.capacity := by
  unfold cells sizeofBuffer
  split <;> omega

theorem cells_of_lt {p : BufferPool} (hthere : p.freed = false) (hlt : p.capacity < 2 ^ 61) :
    p.cells = p.capacity := by
  unfold cells sizeofBuffer
  rw [hthere, if_neg Bool.false_ne_true]
  omega

theorem cells_lt (p : BufferPool) : p.cells < 2 ^ 61 := by
  unfold cells sizeofBuffer
  split <;> omega

/-! ## Requests of no bytes -/

/-- A product that does not wrap is zero only for an array of no elements. -/
theorem frees_of_lt (p : BufferPool) {elements : Nat} (hpos : 0 < elements)
    (hlt : elements < 2 ^ 61) : p.frees elements = false := by
  have hbytes : elements * sizeofBuffer % 2 ^ 64 ≠ 0 := by
    unfold sizeofBuffer
    omega
  rw [frees, beq_eq_false_iff_ne.mpr hbytes, Bool.and_false]

theorem refused_of_frees {p : BufferPool} {elements : Nat} (h : Heap Buffer)
    (hfrees : p.frees elements = true) : p.refused h elements = false := by
  simp [refused, hfrees]

theorem keeps_of_refused {p : BufferPool} {h : Heap Buffer} {elements : Nat}
    (hrefused : p.refused h elements = true) : p.frees elements = false := by
  simp only [refused, Bool.and_eq_true, Bool.not_eq_true'] at hrefused
  exact hrefused.1

/-- What `mtdp_buffer_pool_realloc` does with an array that is there. -/
theorem realloc_of_there {p : BufferPool} (h : Heap Buffer) (elements : Nat)
    (hthere : p.freed = false) :
    p.realloc h elements =
      if p.frees elements then some (false, { p with freed := true }, h.attempt.2)
      else if p.refused h elements then some (false, p, h.attempt.2)
      else some (true,
        { p with
          buffers := if p.capacity = 0 then fun _ => none else p.buffers
          capacity := elements }, h.attempt.2) := by
  rw [realloc, hthere, if_neg Bool.false_ne_true]

/-! ## Push -/

/-- The capacity asked for when a pool of `size` buffers is full. -/
def grownCapacity (size : Nat) : Nat := max (2 ^ Nat.clog 2 (size + 1)) minAllocCap

theorem lt_grownCapacity (size : Nat) : size < grownCapacity size :=
  Nat.lt_of_lt_of_le (Nat.lt_of_succ_le (Nat.le_pow_clog (by omega) _)) (Nat.le_max_left _ _)

theorem grownCapacity_le {size k : Nat} (hlt : size < 2 ^ k) (hk : 4 ≤ k) :
    grownCapacity size ≤ 2 ^ k := by
  have hclog : Nat.clog 2 (size + 1) ≤ k := by
    rw [Nat.clog_le_iff_le_pow (by omega)]
    omega
  exact max_le (Nat.pow_le_pow_right (by omega) hclog)
    (show 2 ^ 4 ≤ 2 ^ k from Nat.pow_le_pow_right (by omega) hk)

/-- A pool with space does not ask the allocator. -/
theorem preventiveRealloc_of_lt {p : BufferPool} (h : Heap Buffer) (hsize : p.size < p.capacity)
    (hcap : p.capacity < 2 ^ 64) : p.preventiveRealloc h 1 = some (true, p, h) := by
  have hspace : p.hasSpaceFor 1 = true := by
    simp only [hasSpaceFor, decide_eq_true_eq]
    unfold wrap
    omega
  simp [preventiveRealloc, hspace]

/-- A full pool does. -/
theorem preventiveRealloc_of_full {p : BufferPool} (h : Heap Buffer) (hfull : p.size = p.capacity) :
    p.preventiveRealloc h 1 = p.realloc h (grownCapacity p.size) := by
  have hspace : p.hasSpaceFor 1 = false := by
    simp only [hasSpaceFor, decide_eq_false_iff_not]
    unfold wrap
    omega
  have hmax (a b : Nat) : (if a > b then a else b) = max a b := by
    split <;> omega
  simp [preventiveRealloc, hspace, hmax, grownCapacity]

/-- **Push.**  While the pool has space, the buffer goes on top. -/
theorem pushBack_of_lt {p : BufferPool} (h : Heap Buffer) (e : Buffer)
    (hthere : p.freed = false) (hsize : p.size < p.capacity) (hcap : p.capacity < 2 ^ 61) :
    p.pushBack h e = some (true,
      { p with buffers := Function.update p.buffers p.size e, size := p.size + 1 }, h) := by
  simp [pushBack, preventiveRealloc_of_lt h hsize (by omega), cells_of_lt hthere hcap, hsize]

/-- A full pool grows first, and stays as it is when it cannot. -/
theorem pushBack_of_full {p : BufferPool} (h : Heap Buffer) (e : Buffer)
    (hthere : p.freed = false) (hfull : p.size = p.capacity)
    (hcap : grownCapacity p.size < 2 ^ 61) :
    p.pushBack h e =
      if p.refused h (grownCapacity p.size) then some (false, p, h.attempt.2)
      else some (true,
        { buffers := Function.update (if p.capacity = 0 then fun _ => none else p.buffers) p.size e
          size := p.size + 1
          capacity := grownCapacity p.size
          freed := false }, h.attempt.2) := by
  have hlt := lt_grownCapacity p.size
  simp only [pushBack, preventiveRealloc_of_full h hfull, realloc_of_there h _ hthere,
    p.frees_of_lt (Nat.zero_lt_of_lt hlt) hcap, Bool.false_eq_true, if_false]
  cases p.refused h (grownCapacity p.size) with
  | true => simp
  | false =>
      simp only [Bool.false_eq_true, if_false, Option.bind_eq_bind, Option.bind_some, Bool.not_true]
      rw [if_pos, hthere]
      apply hlt.trans_eq
      symm
      apply cells_of_lt
      · exact hthere
      · exact hcap

/-! ## Resizing the pool -/

variable {p p' : BufferPool} {h h' : Heap Buffer}

theorem resize_of_lt {size : Nat} (hcap : p.capacity < 2 ^ 63) (hlt : size < p.capacity) :
    p.resize h size =
      some (true, { p with size := wrap (p.size + ((size : Int) - p.capacity)) }, h) := by
  simp only [resize, toSigned_of_lt (Nat.lt_trans hlt hcap), toSigned_of_lt hcap,
    checkSigned_of_mem (i := (size : Int) - p.capacity) (by omega) (by omega),
    Option.bind_eq_bind, Option.bind_some]
  rw [if_pos (by omega)]

theorem resize_of_eq {size : Nat} (hcap : p.capacity < 2 ^ 63) (heq : size = p.capacity) :
    p.resize h size = some (true, p, h) := by
  subst heq
  simp [resize, toSigned_of_lt hcap, checkSigned]

/-- A larger array is asked for. -/
theorem resize_of_gt {size : Nat} (hsize : size < 2 ^ 63) (hgt : p.capacity < size) :
    p.resize h size = (p.realloc h size).map fun r =>
      if r.1 then (true,
        { r.2.1 with size := wrap (r.2.1.size + ((size : Int) - p.capacity)) }, r.2.2)
      else (false, r.2.1, r.2.2) := by
  simp only [resize, toSigned_of_lt hsize, toSigned_of_lt (Nat.lt_trans hgt hsize),
    checkSigned_of_mem (i := (size : Int) - p.capacity) (by omega) (by omega),
    Option.bind_eq_bind, Option.bind_some]
  rw [if_neg (by omega), if_pos (by omega)]
  rcases p.realloc h size with _ | ⟨ret, q, g⟩
  · rfl
  · cases ret <;> rfl

theorem resize_of_frees {size : Nat} (hsize : size < 2 ^ 63) (hgt : p.capacity < size)
    (hthere : p.freed = false) (hfrees : p.frees size = true) :
    p.resize h size = some (false, { p with freed := true }, h.attempt.2) := by
  rw [resize_of_gt hsize hgt, realloc_of_there h size hthere, hfrees]
  rfl

theorem resize_of_refused {size : Nat} (hsize : size < 2 ^ 63) (hgt : p.capacity < size)
    (hthere : p.freed = false) (hrefused : p.refused h size = true) :
    p.resize h size = some (false, p, h.attempt.2) := by
  rw [resize_of_gt hsize hgt, realloc_of_there h size hthere, keeps_of_refused hrefused,
    hrefused]
  rfl

theorem resize_of_granted {size : Nat} (hsize : size < 2 ^ 63) (hgt : p.capacity < size)
    (hthere : p.freed = false) (hkeeps : p.frees size = false)
    (hgranted : p.refused h size = false) :
    p.resize h size = some (true,
      { buffers := if p.capacity = 0 then fun _ => none else p.buffers
        size := wrap (p.size + ((size : Int) - p.capacity))
        capacity := size
        freed := false }, h.attempt.2) := by
  rw [resize_of_gt hsize hgt, realloc_of_there h size hthere, hkeeps, hgranted, hthere]
  rfl

/-! ## Pools in use -/

/-- The capacity is a signed number, and an array that was freed has been
there. -/
structure Sound (p : BufferPool) : Prop where
  capacity_lt : p.capacity < 2 ^ 63
  freed : p.freed = true → p.capacity ≠ 0

theorem init_sound (buffers : Nat → Buffer) : (init buffers).Sound :=
  ⟨Nat.two_pow_pos 63, nofun⟩

/-- What `mtdp_buffer_pool_realloc` makes of a pool. -/
theorem realloc_cases {elements : Nat} {ok : Bool}
    (hrun : p.realloc h elements = some (ok, p', h')) :
    p.freed = false ∧ h' = h.attempt.2 ∧
      ((ok = false ∧ p.frees elements = true ∧ p' = { p with freed := true }) ∨
        (ok = false ∧ p.refused h elements = true ∧ p' = p) ∨
        (ok = true ∧ p.frees elements = false ∧ p' =
          { buffers := if p.capacity = 0 then fun _ => none else p.buffers
            size := p.size
            capacity := elements
            freed := false })) := by
  cases hfreed : p.freed with
  | true => simp [realloc, hfreed] at hrun
  | false =>
      rw [realloc_of_there h elements hfreed] at hrun
      split at hrun
      · next hfrees =>
          cases hrun
          exact ⟨rfl, rfl, .inl ⟨rfl, hfrees, rfl⟩⟩
      next hkeeps =>
        split at hrun
        · next hrefused =>
            cases hrun
            exact ⟨rfl, rfl, .inr (.inl ⟨rfl, hrefused, rfl⟩)⟩
        · cases hrun
          rw [hfreed]
          exact ⟨rfl, rfl, .inr (.inr ⟨rfl, Bool.eq_false_of_not_eq_true hkeeps, rfl⟩)⟩

/-- What a function of the pool does to the array and to the heap: nothing, or
one call of `mtdp_buffer_pool_realloc` for at least one element. -/
inductive ArrayStep (p p' : BufferPool) (h h' : Heap Buffer) : Prop
  | keep : p'.capacity = p.capacity → p'.freed = p.freed → h' = h → ArrayStep p p' h h'
  | realloc {elements : Nat} {ok : Bool} {q : BufferPool} :
      0 < elements → (ok = true → elements < 2 ^ 63) →
      p.realloc h elements = some (ok, q, h') → p'.capacity = q.capacity → p'.freed = q.freed →
      ArrayStep p p' h h'

/-- `mtdp_buffer_pool_resize` never asks for a capacity that is negative as a
signed number. -/
theorem resize_arrayStep {size : Nat} {r : Bool} (hcap : p.capacity < 2 ^ 63)
    (hword : size < 2 ^ 64) (hrun : p.resize h size = some (r, p', h')) :
    ArrayStep p p' h h' := by
  simp only [resize, Option.bind_eq_bind, Option.bind_eq_some_iff] at hrun
  obtain ⟨delta, hdelta, hrun⟩ := hrun
  obtain ⟨rfl, _, _⟩ := eq_of_checkSigned hdelta
  split at hrun
  · cases hrun
    exact .keep rfl rfl rfl
  split at hrun
  · have hsize : 0 < size ∧ size < 2 ^ 63 := by
      rw [toSigned_of_lt hcap] at *
      unfold toSigned at *
      split at * <;> omega
    simp only [Option.bind_eq_some_iff] at hrun
    obtain ⟨⟨ret, q, g⟩, hrealloc, hrun⟩ := hrun
    split at hrun
    · cases hrun
      exact .realloc hsize.1 (fun _ => hsize.2) hrealloc rfl rfl
    · cases hrun
      exact .realloc hsize.1 (fun _ => hsize.2) hrealloc rfl rfl
  · cases hrun
    exact .keep rfl rfl rfl

/-- `mtdp_buffer_pool_preventive_realloc` keeps the pool or asks for a larger
array. -/
theorem preventiveRealloc_cases {elements : Nat} {ok : Bool}
    (hrun : p.preventiveRealloc h elements = some (ok, p', h')) :
    (ok = true ∧ p' = p ∧ h' = h) ∨
      p.realloc h (max (2 ^ Nat.clog 2 (p.size + elements)) minAllocCap) = some (ok, p', h') := by
  have hmax (a b : Nat) : (if a > b then a else b) = max a b := by
    split <;> omega
  simp only [preventiveRealloc, hmax] at hrun
  split at hrun
  · exact .inr hrun
  · cases hrun
    exact .inl ⟨rfl, rfl, rfl⟩

/-- A push whose element found a cell did not ask for a huge array. -/
theorem grown_lt_of_cell {ok : Bool}
    (hrealloc : p.realloc h (grownCapacity p.size) = some (ok, p', h'))
    (hroom : ok = true → p'.size < p'.cells) (hok : ok = true) :
    grownCapacity p.size < 2 ^ 63 := by
  have hcell := (hroom hok).trans p'.cells_lt
  obtain ⟨_, _, ⟨hfalse, _⟩ | ⟨hfalse, _⟩ | ⟨_, _, rfl⟩⟩ := realloc_cases hrealloc
  · rw [hok] at hfalse
    cases hfalse
  · rw [hok] at hfalse
    cases hfalse
  · exact Nat.lt_of_le_of_lt (grownCapacity_le hcell (by decide)) (by decide)

theorem pushBack_arrayStep {e : Buffer} {r : Bool} (hrun : p.pushBack h e = some (r, p', h')) :
    ArrayStep p p' h h' := by
  simp only [pushBack, Option.bind_eq_bind, Option.bind_eq_some_iff] at hrun
  obtain ⟨⟨ok, q, g⟩, hprevent, hrun⟩ := hrun
  have hparts : p'.capacity = q.capacity ∧ p'.freed = q.freed ∧ h' = g ∧
      (ok = true → q.size < q.cells) := by
    cases ok with
    | false =>
        cases hrun
        exact ⟨rfl, rfl, rfl, nofun⟩
    | true =>
        simp only [Bool.not_true, Bool.false_eq_true, if_false] at hrun
        split at hrun
        · next hroom =>
            cases hrun
            exact ⟨rfl, rfl, rfl, fun _ => hroom⟩
        · cases hrun
  obtain ⟨hcap, hfreed, rfl, hroom⟩ := hparts
  rcases preventiveRealloc_cases hprevent with ⟨_, rfl, rfl⟩ | hrealloc
  · exact .keep hcap hfreed rfl
  · exact .realloc (Nat.zero_lt_of_lt (lt_grownCapacity p.size))
      (grown_lt_of_cell hrealloc hroom) hrealloc hcap hfreed

theorem popBack_arrayStep {r : Buffer} (hrun : p.popBack = some (r, p')) :
    ArrayStep p p' h h := by
  unfold popBack at hrun
  split at hrun
  · split at hrun <;> cases hrun
    exact .keep rfl rfl rfl
  · cases hrun
    exact .keep rfl rfl rfl

namespace ArrayStep

theorem nextBlock (hstep : ArrayStep p p' h h') : h'.nextBlock = h.nextBlock := by
  cases hstep with
  | keep _ _ hheap => rw [hheap]
  | realloc _ _ hrealloc _ _ =>
      obtain ⟨_, rfl, _⟩ := realloc_cases hrealloc
      rfl

/-- An array of at least one element stays one, or is freed. -/
theorem capacity_ne (hstep : ArrayStep p p' h h') (hne : p.capacity ≠ 0) : p'.capacity ≠ 0 := by
  cases hstep with
  | keep hcap _ _ => rwa [hcap]
  | realloc hpos _ hrealloc hcap _ =>
      rw [hcap]
      obtain ⟨_, _, ⟨_, _, rfl⟩ | ⟨_, _, rfl⟩ | ⟨_, _, rfl⟩⟩ := realloc_cases hrealloc
      · exact hne
      · exact hne
      · exact Nat.ne_of_gt hpos

theorem freed (hstep : ArrayStep p p' h h') (hfreed : p.freed = true) : p'.freed = true := by
  cases hstep with
  | keep _ hsame _ => rwa [hsame]
  | realloc _ _ hrealloc _ _ =>
      obtain ⟨hthere, _⟩ := realloc_cases hrealloc
      rw [hthere] at hfreed
      cases hfreed

theorem sound (hstep : ArrayStep p p' h h') (hp : p.Sound) : p'.Sound := by
  cases hstep with
  | keep hcap hfreed _ =>
      constructor
      · rw [hcap]
        exact hp.capacity_lt
      · rw [hcap, hfreed]
        exact hp.freed
  | realloc _ hlt hrealloc hcap hfreed =>
      obtain ⟨hthere, _, ⟨_, hfrees, rfl⟩ | ⟨_, _, rfl⟩ | ⟨hok, _, rfl⟩⟩ := realloc_cases hrealloc
      · refine ⟨hcap ▸ hp.capacity_lt, fun _ => ?_⟩
        simp only [frees, Bool.and_eq_true, bne_iff_ne] at hfrees
        exact hcap ▸ hfrees.1
      · exact ⟨hcap ▸ hp.capacity_lt, fun h => by simp [hfreed, hthere] at h⟩
      · exact ⟨hcap ▸ hlt hok, fun h => by simp [hfreed] at h⟩

end ArrayStep

end BufferPool

end Mtdp
