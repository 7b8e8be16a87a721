import Mtdp.Pool

/-!
# The pool in a static array

`mtdp_buffer_pool` of `src/buffer.c` when `MTDP_BUFFER_POOL_STATIC_SIZE` is
`n`, and the pool of either configuration.  A static pool does what a heap
pool of capacity `n` does without a new array, and refuses what needs one.
-/

namespace Mtdp

open Lib.Word

/-- `mtdp_buffer_pool`, with `MTDP_BUFFER_POOL_STATIC_SIZE` set to `n`.  No
object has more bytes than a `size_t` can count. -/
structure StaticPool (n : Nat) where
  buffers : Nat → Buffer
  size : Nat
  fits : n * sizeofBuffer < 2 ^ 64

namespace StaticPool

variable {n : Nat}

/-- `mtdp_buffer_pool_has_space_for` -/
def hasSpaceFor (p : StaticPool n) (elements : Nat) : Bool :=
  decide (elements ≤ wrap ((n : Int) - p.size))

/-- `mtdp_buffer_pool_preventive_realloc` -/
def preventiveRealloc (p : StaticPool n) (elements : Nat) : Bool :=
  if !p.hasSpaceFor elements then false else true

/-- `mtdp_buffer_pool_init` -/
def init (buffers : Nat → Buffer) (fits : n * sizeofBuffer < 2 ^ 64) : StaticPool n :=
  { buffers, size := 0, fits }

/-- `mtdp_buffer_pool_push_back` -/
def pushBack (p : StaticPool n) (e : Buffer) : Option (Bool × StaticPool n) :=
  if !p.preventiveRealloc 1 then some (false, p)
  else if p.size < n then
    some (true, { p with buffers := Function.update p.buffers p.size e, size := p.size + 1 })
  else none

/-- `mtdp_buffer_pool_pop_back` -/
def popBack (p : StaticPool n) : Option (Buffer × StaticPool n) :=
  if p.size ≠ 0 then
    if p.size - 1 < n then some (p.buffers (p.size - 1), { p with size := p.size - 1 }) else none
  else some (none, p)

/-- `mtdp_buffer_pool_resize` -/
def resize (p : StaticPool n) (size : Nat) : Option (Bool × StaticPool n) := do
  let capacity := n
  let delta ← checkSigned (toSigned size - toSigned capacity)
  if delta < 0 then some (true, { p with size := wrap (p.size + delta) })
  else if delta > 0 then some (false, p)
  else some (true, p)

/-! ## As a heap pool -/

/-- The same array, seen as one from the heap. -/
def asHeap (p : StaticPool n) : BufferPool :=
  { buffers := p.buffers, size := p.size, capacity := n, freed := false }

@[simp] theorem asHeap_size (p : StaticPool n) : p.asHeap.size = p.size := rfl

@[simp] theorem asHeap_capacity (p : StaticPool n) : p.asHeap.capacity = n := rfl

theorem capacity_lt (p : StaticPool n) : n < 2 ^ 61 := by
  have hfits := p.fits
  unfold sizeofBuffer at hfits
  omega

theorem asHeap_cells (p : StaticPool n) : p.asHeap.cells = n :=
  BufferPool.cells_of_lt rfl p.capacity_lt

/-- A push that finds space does not ask for an array. -/
theorem pushBack_asHeap (p : StaticPool n) (h : Heap Buffer) (e : Buffer) (hlt : p.size < n) :
    p.asHeap.pushBack h e = (p.pushBack e).map fun r => (r.1, r.2.asHeap, h) := by
  have hcap := p.capacity_lt
  have hspace : p.hasSpaceFor 1 = true := by
    simp only [hasSpaceFor, decide_eq_true_eq]
    unfold wrap
    omega
  rw [BufferPool.pushBack_of_lt h e rfl hlt hcap]
  simp [pushBack, preventiveRealloc, hspace, hlt, asHeap]

theorem pushBack_of_full (p : StaticPool n) (e : Buffer) (hfull : p.size = n) :
    p.pushBack e = some (false, p) := by
  have hspace : p.hasSpaceFor 1 = false := by
    simp only [hasSpaceFor, decide_eq_false_iff_not]
    unfold wrap
    omega
  simp [pushBack, preventiveRealloc, hspace]

theorem popBack_asHeap (p : StaticPool n) :
    p.asHeap.popBack = p.popBack.map fun r => (r.1, r.2.asHeap) := by
  unfold BufferPool.popBack popBack
  simp only [asHeap_cells, asHeap_size]
  by_cases hzero : p.size = 0
  · simp [hzero]
  · by_cases hlt : p.size - 1 < n
    · simp [hzero, hlt, asHeap]
    · simp [hzero, hlt]

/-- Neither does a resize within the array. -/
theorem resize_asHeap (p : StaticPool n) (h : Heap Buffer) {size : Nat} (hword : size < 2 ^ 64)
    (hno : ¬ (n < size ∧ size < 2 ^ 63)) :
    p.asHeap.resize h size = (p.resize size).map fun r => (r.1, r.2.asHeap, h) := by
  have hcap := p.capacity_lt
  have hsigned : ¬ toSigned size - toSigned n > 0 := by
    rw [toSigned_of_lt (show n < 2 ^ 63 by omega)]
    unfold toSigned
    split <;> omega
  unfold BufferPool.resize resize
  simp only [asHeap_capacity, Option.bind_eq_bind]
  cases hdelta : checkSigned (toSigned size - toSigned n) with
  | none => rfl
  | some delta =>
      obtain ⟨rfl, _, _⟩ := eq_of_checkSigned hdelta
      simp only [Option.bind_some, if_neg hsigned]
      split <;> rfl

theorem resize_of_gt (p : StaticPool n) {size : Nat} (hgt : n < size) (hsize : size < 2 ^ 63) :
    p.resize size = some (false, p) := by
  simp only [resize, toSigned_of_lt hsize, toSigned_of_lt (Nat.lt_trans hgt hsize),
    checkSigned_of_mem (i := (size : Int) - n) (by omega) (by omega), Option.bind_eq_bind,
    Option.bind_some]
  rw [if_neg (by omega), if_pos (by omega)]

end StaticPool

/-! ## Either configuration -/

/-- The pool of a configuration. -/
inductive AnyPool where
  | heap (p : BufferPool)
  | static {n : Nat} (p : StaticPool n)

namespace AnyPool

def view : AnyPool → BufferPool
  | heap p => p
  | static p => p.asHeap

/-- There is no array for that many elements, and the old one is kept. -/
def refused (p : AnyPool) (h : Heap Buffer) (elements : Nat) : Bool :=
  match p with
  | heap p => p.refused h elements
  | static _ => true

/-- There is no array for that many elements, and the old one is freed. -/
def frees (p : AnyPool) (elements : Nat) : Bool :=
  match p with
  | heap p => p.frees elements
  | static _ => false

def pushBack (p : AnyPool) (h : Heap Buffer) (e : Buffer) : Option (Bool × AnyPool × Heap Buffer) :=
  match p with
  | heap p => (p.pushBack h e).map fun (ok, p, h) => (ok, heap p, h)
  | static p => (p.pushBack e).map fun (ok, p) => (ok, static p, h)

def popBack : AnyPool → Option (Buffer × AnyPool)
  | heap p => p.popBack.map fun (b, p) => (b, heap p)
  | static p => p.popBack.map fun (b, p) => (b, static p)

def resize (p : AnyPool) (h : Heap Buffer) (size : Nat) : Option (Bool × AnyPool × Heap Buffer) :=
  match p with
  | heap p => (p.resize h size).map fun (ok, p, h) => (ok, heap p, h)
  | static p => (p.resize size).map fun (ok, p) => (ok, static p, h)

end AnyPool

end Mtdp
