import Mathlib.Tactic.NormNum
import Mtdp.Fifo.Layout
import Mtdp.Pipe.Model

/-!
# Resizing a pipe

The documentation of `mtdp_pipe_resize` promises a pool and a FIFO that
together hold the requested number of buffers, taking the missing ones from
the pool and only then from the old end of the FIFO.  The two functions
involved do not agree on what they compare the request with:
`mtdp_pipe_resize` uses the number of buffers present, and
`mtdp_buffer_pool_resize` the capacity of the array.

## Main results

* `resize_meets_doc_iff` — in a reachable pipe, the calls of
  `mtdp_pipe_resize` that keep the promise are those of `ResizeHonoured`.
* `resize_ignores_missing_buffers` — a pipe that was shrunk is not refilled.
-/

namespace Mtdp

open Lib.Word

namespace Pipe

/-! ## What a resize touches -/

/-- Storing a buffer through `NULL` is harmless only if it does not happen. -/
theorem popToNull_eq (c : Fifo.Config) (h : Heap Buffer) (f : Fifo.BufferFifo) (k : Nat) :
    popToNull c h k f = if k = 0 ∨ f.size = 0 then some f else none := by
  induction k with
  | zero => simp [popToNull]
  | succ k ih =>
      by_cases hempty : f.size = 0
      · simp [popToNull, Fifo.popFront, Fifo.shiftFrontLeft, hempty, ih]
      · have hpop : Fifo.popFront c f h true = none := by
          unfold Fifo.popFront
          cases hshift : Fifo.shiftFrontLeft c f with
          | none => rfl
          | some r =>
              obtain ⟨_ | ptr, f'⟩ := r
              · simp only [Fifo.shiftFrontLeft, if_neg hempty, Option.bind_eq_bind,
                  Option.bind_eq_some_iff] at hshift
                obtain ⟨_, _, _, _, _, _, _, _, _, _, hshift⟩ := hshift
                split at hshift
                · simp only [Option.bind_eq_some_iff] at hshift
                  obtain ⟨_, _, hshift⟩ := hshift
                  cases hshift
                · cases hshift
              · simp only [Option.bind_eq_bind, Option.bind_some]
                cases Fifo.read c h ptr <;> rfl
        simp [popToNull, hpop, hempty]

/-- A resize calls the pool's once at most, and leaves the FIFO alone. -/
theorem resize_parts {c : Fifo.Config} {p p' : Pipe} {n : UInt64} {report : ResizeReport}
    (hrun : p.resize c n = some (report, p')) :
    p'.fifo = p.fifo ∧ ((p'.pool = p.pool ∧ p'.heap = p.heap) ∨
      ∃ size ok, size < 2 ^ 64 ∧ p.pool.resize p.heap size = some (ok, p'.pool, p'.heap)) := by
  simp only [resize, shrink, Option.bind_eq_bind, Option.bind_eq_some_iff] at hrun
  obtain ⟨delta, _, hrun⟩ := hrun
  split at hrun
  · simp only [Option.bind_eq_some_iff] at hrun
    obtain ⟨⟨ok, pool, heap⟩, hpool, hrun⟩ := hrun
    cases hrun
    exact ⟨rfl, .inr ⟨_, ok, wrap_lt _, hpool⟩⟩
  split at hrun
  · simp only [Option.bind_eq_some_iff] at hrun
    obtain ⟨q, ⟨lost, _, hshrink⟩, hrun⟩ := hrun
    cases hrun
    split at hshrink
    · simp only [Option.bind_eq_some_iff] at hshrink
      obtain ⟨⟨ok, pool, heap⟩, hpool, hshrink⟩ := hshrink
      split at hshrink
      · -- the loop that pops to `NULL` gets to its end only if there is nothing to pop
        simp only [Option.bind_eq_some_iff, popToNull_eq] at hshrink
        obtain ⟨fifo, hfifo, hshrink⟩ := hshrink
        split at hfifo
        · cases hfifo
          cases hshrink
          exact ⟨rfl, .inr ⟨_, ok, wrap_lt _, hpool⟩⟩
        · cases hfifo
      · cases hshrink
        exact ⟨rfl, .inr ⟨_, ok, wrap_lt _, hpool⟩⟩
    · cases hshrink
      exact ⟨rfl, .inl ⟨rfl, rfl⟩⟩
  · cases hrun
    exact ⟨rfl, .inl ⟨rfl, rfl⟩⟩

/-! ## Reachable pipes -/

/-- The calls that change a pipe. -/
inductive Call where
  | resize (nBuffers : UInt64)
  | getEmptyBuffer
  | pushBuffer (buf : Buffer)
  | getFullBuffer
  | putBack (buf : Buffer)

/-- The pipe after a call. -/
def call (c : Fifo.Config) (p : Pipe) : Call → Option Pipe
  | .resize nBuffers => (p.resize c nBuffers).map (·.2)
  | .getEmptyBuffer => p.getEmptyBuffer.map (·.2)
  | .pushBuffer buf => (p.pushBuffer c buf).map (·.2)
  | .getFullBuffer => (p.getFullBuffer c).map (·.2)
  | .putBack buf => (p.putBack buf).map (·.2)

/-- The pool's array and the queued cells are different objects of one
64-bit address space. -/
def FitsInMemory (p : Pipe) : Prop := (p.pool.cells + p.fifo.size) * sizeofBuffer ≤ 2 ^ 64

/-- The pipes that a program can get to from `mtdp_pipe_init`. -/
inductive Reachable (c : Fifo.Config) : Pipe → Prop
  | init (junk : Pipe) {p : Pipe} : init c junk = some p → FitsInMemory p → Reachable c p
  | call {p p' : Pipe} {i : Call} :
      Reachable c p → call c p i = some p' → FitsInMemory p' → Reachable c p'

theorem Reachable.fitsInMemory {c : Fifo.Config} {p : Pipe} (hp : Reachable c p) :
    FitsInMemory p := by
  cases hp <;> assumption

/-- One call keeps the pool sound. -/
theorem call_sound {c : Fifo.Config} {p p' : Pipe} {i : Call} (hp : p.pool.Sound)
    (hrun : call c p i = some p') : p'.pool.Sound := by
  cases i with
  | resize nBuffers =>
      obtain ⟨⟨report, q⟩, hresize, rfl⟩ := Option.map_eq_some_iff.mp hrun
      obtain ⟨_, ⟨hpool, _⟩ | ⟨size, ok, hword, hpool⟩⟩ := resize_parts hresize
      · rw [hpool]
        exact hp
      · exact (BufferPool.resize_arrayStep hp.capacity_lt hword hpool).sound hp
  | getEmptyBuffer =>
      simp only [call, getEmptyBuffer, Option.bind_eq_bind, Option.map_eq_some_iff,
        Option.bind_eq_some_iff] at hrun
      obtain ⟨_, ⟨⟨out, pool⟩, hpool, hrun⟩, rfl⟩ := hrun
      cases hrun
      exact (BufferPool.popBack_arrayStep (h := p.heap) hpool).sound hp
  | pushBuffer buf =>
      simp only [call, pushBuffer, Option.bind_eq_bind, Option.map_eq_some_iff,
        Option.bind_eq_some_iff] at hrun
      obtain ⟨_, ⟨_, _, hrun⟩, rfl⟩ := hrun
      cases hrun
      exact hp
  | getFullBuffer =>
      simp only [call, getFullBuffer, Option.bind_eq_bind, Option.map_eq_some_iff,
        Option.bind_eq_some_iff] at hrun
      obtain ⟨_, ⟨_, _, hrun⟩, rfl⟩ := hrun
      cases hrun
      exact hp
  | putBack buf =>
      simp only [call, putBack, Option.bind_eq_bind, Option.map_eq_some_iff,
        Option.bind_eq_some_iff] at hrun
      obtain ⟨_, ⟨⟨out, pool, heap⟩, hpool, hrun⟩, rfl⟩ := hrun
      cases hrun
      exact (BufferPool.pushBack_arrayStep hpool).sound hp

theorem Reachable.sound {c : Fifo.Config} {p : Pipe} (hp : Reachable c p) :
    p.pool.Sound := by
  induction hp with
  | init _ hinit _ =>
      unfold Pipe.init at hinit
      split at hinit <;> cases hinit
      exact BufferPool.init_sound _
  | call _ hrun _ ih => exact call_sound ih hrun

/-! ## What the documentation promises -/

/-- The queued buffers, oldest first. -/
def queue (c : Fifo.Config) (p : Pipe) : List Buffer := Fifo.contents c p.fifo p.heap

@[simp] theorem length_queue (c : Fifo.Config) (p : Pipe) : (p.queue c).length = p.fifo.size :=
  Fifo.contents_length c p.fifo p.heap

/-- A pool `es` and a FIFO `fs` resized to `n` buffers. -/
structure Resized (n : Nat) (es fs es' fs' : List Buffer) : Prop where
  total : es'.length + fs'.length = n
  grown : es.length + fs.length ≤ n →
    fs' = fs ∧ es'.length = n - fs.length ∧ es <+: es'
  shrunk : n < es.length + fs.length →
    es' = es.take (es.length - min es.length (es.length + fs.length - n)) ∧
    fs' = fs.drop (es.length + fs.length - n - es.length)

/-- The pool holds buffers, and `mtdp_pipe_resize` comes back; if it reports
`MTDP_OK`, the pipe is resized. -/
def MeetsResizeDoc (c : Fifo.Config) (p : Pipe) (n : UInt64) : Prop :=
  ∃ es, p.pool.entries = some es ∧ ∃ report p', p.resize c n = some (report, p') ∧
    (report.error = .ok →
      ∃ es', p'.pool.entries = some es' ∧ Resized n.toNat es (p.queue c) es' (p'.queue c))

/-- When the code keeps the promise.  The array must hold the buffers of the
pool.  Asking for the buffers that are there is always fine.  Otherwise the
array must be full, with nothing queued if the pipe is to shrink and with a
size in bytes that does not wrap if it is to grow; or there must be no larger
array for an array that is still there. -/
def ResizeHonoured (p : Pipe) (n : Nat) : Prop :=
  p.pool.size ≤ p.pool.cells ∧
  (n = p.pool.size + p.fifo.size ∨
    (n < p.pool.size + p.fifo.size ∧ p.fifo.size = 0 ∧ p.pool.size = p.pool.capacity) ∨
    (p.pool.size + p.fifo.size < n ∧ p.pool.size = p.pool.capacity ∧
      n - p.fifo.size < 2 ^ 61) ∨
    (p.pool.size + p.fifo.size < n ∧ n < 2 ^ 63 ∧ p.pool.capacity < n - p.fifo.size ∧
      p.pool.freed = false ∧ (p.pool.refused p.heap (n - p.fifo.size) = true ∨
        p.pool.frees (n - p.fifo.size) = true)))

/-! ## The calls, case by case -/

section Cases

variable {c : Fifo.Config} {p : Pipe} {n : UInt64}

theorem total_le (hfits : FitsInMemory p) (hle : p.pool.size ≤ p.pool.cells) :
    p.pool.size + p.fifo.size ≤ 2 ^ 61 := by
  unfold FitsInMemory sizeofBuffer at hfits
  omega

/-- The total of `mtdp_pipe_resize` does not wrap. -/
theorem signedTotal_eq (htotal : p.pool.size + p.fifo.size ≤ 2 ^ 61) :
    toSigned (wrap (p.fifo.size + p.pool.size)) = p.pool.size + p.fifo.size := by
  have hwrap : wrap ((p.fifo.size : Int) + p.pool.size) = p.pool.size + p.fifo.size := by
    unfold wrap
    omega
  rw [hwrap, toSigned_of_lt (by omega)]
  omega

theorem resize_of_total (htotal : p.pool.size + p.fifo.size ≤ 2 ^ 61)
    (heq : n.toNat = p.pool.size + p.fifo.size) :
    p.resize c n = some (⟨.ok, true⟩, { p with totalBuffers := n.toNat }) := by
  simp only [resize, signedTotal_eq htotal, toSigned_of_lt (show n.toNat < 2 ^ 63 by omega),
    checkSigned_of_mem (i := (n.toNat : Int) - (p.pool.size + p.fifo.size)) (by omega) (by omega),
    Option.bind_eq_bind, Option.bind_some]
  rw [if_neg (by omega), if_neg (by omega)]

theorem resize_of_more (htotal : p.pool.size + p.fifo.size ≤ 2 ^ 61)
    (hmore : p.pool.size + p.fifo.size < n.toNat) (hn : n.toNat < 2 ^ 63) :
    p.resize c n = (p.pool.resize p.heap (n.toNat - p.fifo.size)).map fun r =>
      (if r.1 then ⟨.ok, true⟩ else ⟨.noMem, false⟩,
        { p with pool := r.2.1, heap := r.2.2, totalBuffers := n.toNat }) := by
  have hask : wrap ((p.pool.size : Int) + (n.toNat - (p.pool.size + p.fifo.size))) =
      n.toNat - p.fifo.size := by
    unfold wrap
    omega
  simp only [resize, signedTotal_eq htotal, toSigned_of_lt hn,
    checkSigned_of_mem (i := (n.toNat : Int) - (p.pool.size + p.fifo.size)) (by omega) (by omega),
    Option.bind_eq_bind, Option.bind_some]
  rw [if_pos (by omega), hask]
  cases p.pool.resize p.heap (n.toNat - p.fifo.size) <;> rfl

/-- A shrink that the pool cannot absorb is not done at all. -/
theorem resize_of_much_less (htotal : p.pool.size + p.fifo.size ≤ 2 ^ 61)
    (hless : n.toNat < p.fifo.size) :
    p.resize c n = some (⟨.ok, true⟩, { p with totalBuffers := n.toNat }) := by
  have hlost : wrap (-((n.toNat : Int) - (p.pool.size + p.fifo.size))) =
      p.pool.size + p.fifo.size - n.toNat := by
    unfold wrap
    omega
  simp only [resize, signedTotal_eq htotal, toSigned_of_lt (show n.toNat < 2 ^ 63 by omega),
    checkSigned_of_mem (i := (n.toNat : Int) - (p.pool.size + p.fifo.size)) (by omega) (by omega),
    shrink, Option.bind_eq_bind, Option.bind_some,
    checkSigned_of_mem (i := -((n.toNat : Int) - (p.pool.size + p.fifo.size))) (by omega)
      (by omega), hlost]
  rw [if_neg (by omega), if_pos (by omega), if_neg (by omega)]
  rfl

/-- A shrink within the pool goes by the capacity, and then pops as many
entries as are to be kept. -/
theorem resize_of_less (hcap : p.pool.capacity < 2 ^ 63)
    (htotal : p.pool.size + p.fifo.size ≤ 2 ^ 61) (hle : p.pool.size ≤ p.pool.capacity)
    (hless : n.toNat < p.pool.size + p.fifo.size) (hmost : p.fifo.size ≤ n.toNat) :
    p.resize c n =
      if n.toNat = 0 ∨ p.fifo.size = 0 then
        some (⟨.ok, true⟩, { p with
          pool := { p.pool with
            size := wrap (p.pool.size + (((n.toNat - p.fifo.size : Nat) : Int) -
              p.pool.capacity)) }
          totalBuffers := n.toNat })
      else none := by
  have hlost : wrap (-((n.toNat : Int) - (p.pool.size + p.fifo.size))) =
      p.pool.size + p.fifo.size - n.toNat := by
    unfold wrap
    omega
  have hask : wrap ((p.pool.size : Int) + (n.toNat - (p.pool.size + p.fifo.size))) =
      n.toNat - p.fifo.size := by
    unfold wrap
    omega
  have hwrap : wrap ((p.fifo.size : Int) + p.pool.size) = p.pool.size + p.fifo.size := by
    unfold wrap
    omega
  have hpops : wrap (((p.pool.size + p.fifo.size : Nat) : Int) +
      (n.toNat - (p.pool.size + p.fifo.size))) = n.toNat := by
    unfold wrap
    omega
  simp only [resize, signedTotal_eq htotal, toSigned_of_lt (show n.toNat < 2 ^ 63 by omega),
    checkSigned_of_mem (i := (n.toNat : Int) - (p.pool.size + p.fifo.size)) (by omega) (by omega),
    shrink, Option.bind_eq_bind, Option.bind_some,
    checkSigned_of_mem (i := -((n.toNat : Int) - (p.pool.size + p.fifo.size))) (by omega)
      (by omega), hlost, hask, popToNull_eq,
    BufferPool.resize_of_lt hcap (show n.toNat - p.fifo.size < p.pool.capacity by omega)]
  rw [if_neg (by omega), if_pos (by omega), if_pos (by omega), hwrap, if_pos (by omega), hpops]
  split <;> rfl

/-- A request that is negative as a signed number changes nothing, if it is
defined at all. -/
theorem resize_of_negative (htotal : p.pool.size + p.fifo.size ≤ 2 ^ 61)
    (hn : 2 ^ 63 ≤ n.toNat) {report : ResizeReport} {p' : Pipe}
    (hrun : p.resize c n = some (report, p')) :
    report = ⟨.ok, true⟩ ∧ p' = { p with totalBuffers := n.toNat } := by
  have hlt := n.toNat_lt
  simp only [resize, signedTotal_eq htotal, toSigned_of_le hn, shrink, Option.bind_eq_bind,
    Option.bind_eq_some_iff] at hrun
  obtain ⟨delta, hdelta, hrun⟩ := hrun
  obtain ⟨rfl, _, _⟩ := eq_of_checkSigned hdelta
  rw [if_neg (by omega), if_pos (by omega)] at hrun
  simp only [Option.bind_eq_some_iff] at hrun
  obtain ⟨q, ⟨lost, hlost, hq⟩, hrun⟩ := hrun
  obtain ⟨rfl, _, _⟩ := eq_of_checkSigned hlost
  rw [if_neg (by unfold wrap; omega)] at hq
  cases hq
  cases hrun
  exact ⟨rfl, rfl⟩

/-- The promise, once the outcome of the call is known. -/
theorem meetsResizeDoc_iff {report : ResizeReport} {p' : Pipe}
    (hle : p.pool.size ≤ p.pool.cells) (hrun : p.resize c n = some (report, p')) :
    MeetsResizeDoc c p n ↔ (report.error = .ok → p'.pool.size ≤ p'.pool.cells ∧
      Resized n.toNat (p.pool.take p.pool.size) (p.queue c) (p'.pool.take p'.pool.size)
        (p'.queue c)) := by
  constructor
  · rintro ⟨es, hes, report', q, hrun', hpost⟩ hok
    rw [hrun] at hrun'
    cases hrun'
    obtain ⟨es', hes', hresized⟩ := hpost hok
    obtain ⟨_, rfl⟩ := BufferPool.entries_eq_some.mp hes
    obtain ⟨hle', rfl⟩ := BufferPool.entries_eq_some.mp hes'
    exact ⟨hle', hresized⟩
  · intro hpost
    exact ⟨_, BufferPool.entries_of_le hle, report, p', hrun,
      fun hok => ⟨_, BufferPool.entries_of_le (hpost hok).1, (hpost hok).2⟩⟩

/-- Leaving the pipe alone is right only if it has `n` buffers already. -/
theorem meetsResizeDoc_of_unchanged (hle : p.pool.size ≤ p.pool.cells)
    (hrun : p.resize c n = some (⟨.ok, true⟩, { p with totalBuffers := n.toNat })) :
    MeetsResizeDoc c p n ↔ n.toNat = p.pool.size + p.fifo.size := by
  rw [meetsResizeDoc_iff hle hrun]
  constructor
  · intro hpost
    have htotal := (hpost rfl).2.total
    simp only [BufferPool.length_take, length_queue] at htotal
    exact htotal.symm
  · intro heq _
    refine ⟨hle, ?_, ?_, ?_⟩
    · simp [heq]
    · intro _
      refine ⟨rfl, ?_, List.prefix_refl _⟩
      simp [heq]
    · intro hlt
      simp [heq] at hlt

/-- Shrinking the pool of a pipe with nothing queued. -/
theorem meetsResizeDoc_of_less (hcap : p.pool.capacity < 2 ^ 63)
    (hle : p.pool.size ≤ p.pool.cells) (hempty : p.fifo.size = 0)
    (hless : n.toNat < p.pool.size) :
    MeetsResizeDoc c p n ↔ p.pool.size = p.pool.capacity := by
  have hcells := p.pool.cells_lt
  have hrun := resize_of_less (c := c) (n := n) hcap (by omega)
    (hle.trans p.pool.cells_le_capacity) (by omega) (by omega)
  rw [if_pos (.inr hempty), hempty, Nat.sub_zero] at hrun
  rw [meetsResizeDoc_iff hle hrun]
  constructor
  · intro hpost
    have htotal := (hpost rfl).2.total
    simp only [BufferPool.length_take, length_queue, hempty] at htotal
    unfold wrap at htotal
    omega
  · intro hfull _
    have hsize : wrap (p.pool.size + ((n.toNat : Int) - p.pool.capacity)) = n.toNat := by
      unfold wrap
      omega
    simp only [hsize]
    refine ⟨Nat.le_trans (Nat.le_of_lt hless) hle, ?_, ?_, ?_⟩
    · simp [hempty]
    · intro hge
      simp only [BufferPool.length_take, length_queue] at hge
      omega
    · intro _
      simp only [BufferPool.length_take, length_queue, hempty]
      refine ⟨?_, ?_⟩
      · rw [show p.pool.size - min p.pool.size (p.pool.size + 0 - n.toNat) = n.toNat by omega,
          BufferPool.take_take _ (Nat.le_of_lt hless)]
        exact BufferPool.take_congr fun _ _ => rfl
      · rw [show p.pool.size + 0 - n.toNat - p.pool.size = 0 by omega]
        rfl

/-- Nothing is promised when there is no larger array. -/
theorem meetsResizeDoc_of_noMem {p' : Pipe} (hle : p.pool.size ≤ p.pool.cells)
    (hrun : p.resize c n = some (⟨.noMem, false⟩, p')) : MeetsResizeDoc c p n := by
  rw [meetsResizeDoc_iff hle hrun]
  exact nofun

/-- A larger array of `n - f` elements, which the allocator grants. -/
theorem meetsResizeDoc_of_granted (hle : p.pool.size ≤ p.pool.cells)
    (htotal : p.pool.size + p.fifo.size ≤ 2 ^ 61) (hmore : p.pool.size + p.fifo.size < n.toNat)
    (hn : n.toNat < 2 ^ 63) (hgt : p.pool.capacity < n.toNat - p.fifo.size)
    (hthere : p.pool.freed = false) (hkeeps : p.pool.frees (n.toNat - p.fifo.size) = false)
    (hgranted : p.pool.refused p.heap (n.toNat - p.fifo.size) = false) :
    MeetsResizeDoc c p n ↔ p.pool.size = p.pool.capacity ∧ n.toNat - p.fifo.size < 2 ^ 61 := by
  have hrun := resize_of_more (c := c) htotal hmore hn
  rw [BufferPool.resize_of_granted (by omega) hgt hthere hkeeps hgranted] at hrun
  rw [meetsResizeDoc_iff hle hrun]
  simp only [if_true, forall_const]
  have hcap := p.pool.cells_le_capacity
  constructor
  · rintro ⟨hle', hpost⟩
    have hsize := hpost.total
    simp only [BufferPool.length_take, length_queue] at hsize
    have hfits := Nat.lt_of_le_of_lt hle' (BufferPool.cells_lt _)
    constructor
    · unfold wrap at hsize
      omega
    · omega
  · rintro ⟨hfull, hfits⟩
    have hsize : wrap (p.pool.size + (((n.toNat - p.fifo.size : Nat) : Int) -
        p.pool.capacity)) = n.toNat - p.fifo.size := by
      unfold wrap
      omega
    simp only [hsize]
    refine ⟨?_, ?_, ?_, ?_⟩
    · rw [BufferPool.cells_of_lt rfl hfits]
    · simp only [BufferPool.length_take, length_queue]
      omega
    · intro _
      refine ⟨rfl, by simp, ?_⟩
      rw [← BufferPool.take_congr (p := p.pool) (fun i hi => ?_)]
      · exact BufferPool.take_isPrefix _ (by omega)
      · exact congrFun (if_neg (by omega)) i
    · intro hlt
      simp only [BufferPool.length_take, length_queue] at hlt
      omega

/-- Growing by an array of `n - f` elements. -/
theorem meetsResizeDoc_of_more (hp : p.pool.Sound) (hle : p.pool.size ≤ p.pool.cells)
    (htotal : p.pool.size + p.fifo.size ≤ 2 ^ 61) (hmore : p.pool.size + p.fifo.size < n.toNat)
    (hn : n.toNat < 2 ^ 63) :
    MeetsResizeDoc c p n ↔
      (p.pool.size = p.pool.capacity ∧ n.toNat - p.fifo.size < 2 ^ 61) ∨
        (p.pool.capacity < n.toNat - p.fifo.size ∧ p.pool.freed = false ∧
          (p.pool.refused p.heap (n.toNat - p.fifo.size) = true ∨
            p.pool.frees (n.toNat - p.fifo.size) = true)) := by
  have hrun := resize_of_more (c := c) htotal hmore hn
  have hcap := hp.capacity_lt
  rcases Nat.lt_trichotomy (n.toNat - p.fifo.size) p.pool.capacity with hlt | heq | hgt
  · -- the array is larger than what was asked for: the pool shrinks
    rw [BufferPool.resize_of_lt hcap hlt] at hrun
    rw [meetsResizeDoc_iff hle hrun]
    constructor
    · intro hpost
      have hsize := (hpost rfl).2.total
      simp only [BufferPool.length_take, length_queue] at hsize
      unfold wrap at hsize
      omega
    · rintro (⟨hfull, _⟩ | ⟨hgt, _⟩) <;> omega
  · -- the array has the size asked for: the pool stays as it is
    rw [BufferPool.resize_of_eq hcap heq] at hrun
    rw [meetsResizeDoc_iff hle hrun]
    constructor
    · intro hpost
      have hsize := (hpost rfl).2.total
      simp only [BufferPool.length_take, length_queue] at hsize
      omega
    · rintro (⟨hfull, _⟩ | ⟨hgt, _⟩) <;> omega
  have hsize : n.toNat - p.fifo.size < 2 ^ 63 := Nat.lt_of_le_of_lt (Nat.sub_le _ _) hn
  cases hfreed : p.pool.freed with
  | true =>
      -- `realloc` of an array that was freed
      have hnone : p.resize c n = none := by
        rw [hrun, BufferPool.resize_of_gt hsize hgt, BufferPool.realloc, hfreed]
        rfl
      have harray := hp.freed hfreed
      have hcells : p.pool.cells = 0 := by
        rw [BufferPool.cells, hfreed, if_pos rfl]
      constructor
      · rintro ⟨_, _, _, _, hsome, _⟩
        rw [hnone] at hsome
        cases hsome
      · rintro (⟨hfull, _⟩ | ⟨_, hthere, _⟩)
        · omega
        · cases hthere
  | false =>
  cases hfrees : p.pool.frees (n.toNat - p.fifo.size) with
  | true =>
      rw [BufferPool.resize_of_frees hsize hgt hfreed hfrees] at hrun
      have hmeets := meetsResizeDoc_of_noMem hle hrun
      exact iff_of_true hmeets (.inr ⟨hgt, rfl, .inr rfl⟩)
  | false =>
  cases hrefused : p.pool.refused p.heap (n.toNat - p.fifo.size) with
  | true =>
      rw [BufferPool.resize_of_refused hsize hgt hfreed hrefused] at hrun
      have hmeets := meetsResizeDoc_of_noMem hle hrun
      exact iff_of_true hmeets (.inr ⟨hgt, rfl, .inl rfl⟩)
  | false =>
      rw [meetsResizeDoc_of_granted hle htotal hmore hn hgt hfreed hfrees hrefused]
      simp

end Cases

/-- **When `mtdp_pipe_resize` keeps its promise.**  In every reachable pipe
and for every request, the call does what the documentation says exactly in
the situations of `ResizeHonoured`. -/
theorem resize_meets_doc_iff (c : Fifo.Config) (p : Pipe) (hp : Reachable c p) (n : UInt64) :
    MeetsResizeDoc c p n ↔ ResizeHonoured p n.toNat := by
  have hcap := hp.sound.capacity_lt
  by_cases hle : p.pool.size ≤ p.pool.cells
  swap
  · refine ⟨?_, fun hhonoured => absurd hhonoured.1 hle⟩
    rintro ⟨es, hes, _⟩
    exact absurd (BufferPool.entries_eq_some.mp hes).1 hle
  have htotal := total_le hp.fitsInMemory hle
  have hcells := p.pool.cells_le_capacity
  simp only [ResizeHonoured, hle, true_and]
  by_cases hn : n.toNat < 2 ^ 63
  swap
  · refine ⟨?_, by omega⟩
    intro hmeets
    obtain ⟨_, _, _, _, hrun, _⟩ := id hmeets
    obtain ⟨rfl, rfl⟩ := resize_of_negative htotal (by omega) hrun
    have := (meetsResizeDoc_of_unchanged hle hrun).mp hmeets
    omega
  rcases Nat.lt_trichotomy n.toNat (p.pool.size + p.fifo.size) with hless | heq | hmore
  · by_cases hmuch : n.toNat < p.fifo.size
    · rw [meetsResizeDoc_of_unchanged hle (resize_of_much_less htotal hmuch)]
      omega
    by_cases hempty : p.fifo.size = 0
    · rw [meetsResizeDoc_of_less hcap hle hempty (by omega)]
      omega
    · refine ⟨?_, by omega⟩
      rintro ⟨_, _, report, p', hrun, _⟩
      rw [resize_of_less hcap htotal (by omega) hless (by omega), if_neg (by omega)] at hrun
      cases hrun
  · rw [meetsResizeDoc_of_unchanged hle (resize_of_total htotal heq)]
    omega
  · rw [meetsResizeDoc_of_more hp.sound hle htotal hmore hn]
    refine ⟨?_, ?_⟩
    · rintro (⟨hfull, hfits⟩ | ⟨hgt, hthere, hfails⟩)
      · exact .inr (.inr (.inl ⟨hmore, hfull, hfits⟩))
      · exact .inr (.inr (.inr ⟨hmore, hn, hgt, hthere, hfails⟩))
    · rintro (heq | hless | ⟨_, hfull, hfits⟩ | ⟨_, _, hgt, hthere, hfails⟩)
      · omega
      · omega
      · exact .inl ⟨hfull, hfits⟩
      · exact .inr ⟨hgt, hthere, hfails⟩

/-- A fresh pipe with blocks of two cells, resized to five buffers and then
to three. -/
def shrunkPipe : Pipe where
  totalBuffers := 3
  pool := { buffers := fun _ => none, size := 3, capacity := 5, freed := false }
  fifo := ⟨⟨Function.update (fun _ => 0) 0 0, 1, 1⟩, 0, 2⟩
  semaphore := 0
  heap := ⟨fun _ _ => none, fun _ => 0, 1, 3, fun _ => false⟩

theorem shrunkPipe_reachable :
    Reachable ⟨2, 1 / 2, by decide, by norm_num, by norm_num⟩ shrunkPipe := by
  have hinit : Reachable ⟨2, 1 / 2, by decide, by norm_num, by norm_num⟩
      ⟨0, ⟨fun _ => none, 0, 0, false⟩, ⟨⟨Function.update (fun _ => 0) 0 0, 1, 1⟩, 0, 2⟩, 0,
        ⟨fun _ _ => none, fun _ => 0, 1, 2, fun _ => false⟩⟩ :=
    .init ⟨0, ⟨fun _ => none, 0, 0, false⟩, ⟨⟨fun _ => 0, 0, 0⟩, 0, 0⟩, 0,
      ⟨fun _ _ => none, fun _ => 0, 0, 0, fun _ => false⟩⟩ rfl
      (by unfold FitsInMemory; decide)
  have hfive : Reachable ⟨2, 1 / 2, by decide, by norm_num, by norm_num⟩
      { shrunkPipe with totalBuffers := 5, pool := ⟨fun _ => none, 5, 5, false⟩ } :=
    .call (i := .resize 5) hinit rfl (by unfold FitsInMemory; decide)
  exact .call (i := .resize 3) hfive rfl (by unfold FitsInMemory; decide)

theorem resize_meets_doc_iff_shrunk :
    MeetsResizeDoc ⟨2, 1 / 2, by decide, by norm_num, by norm_num⟩ shrunkPipe 3 ↔
      ResizeHonoured shrunkPipe 3 :=
  resize_meets_doc_iff _ _ shrunkPipe_reachable 3

/-- Asked for five buffers again, the shrunk pipe reports `MTDP_OK` and keeps
its three: the array has room for five already. -/
theorem resize_ignores_missing_buffers :
    ¬ ∀ (c : Fifo.Config) (p : Pipe) (n : UInt64), Reachable c p → MeetsResizeDoc c p n := by
  intro hall
  obtain ⟨es, _, report, p', hrun, hpost⟩ := hall _ _ 5 shrunkPipe_reachable
  have hfive : shrunkPipe.resize ⟨2, 1 / 2, by decide, by norm_num, by norm_num⟩ 5 =
      some (⟨.ok, true⟩, { shrunkPipe with totalBuffers := 5 }) := rfl
  rw [hfive] at hrun
  cases hrun
  obtain ⟨es', hes', hresized⟩ := hpost rfl
  obtain ⟨_, rfl⟩ := BufferPool.entries_eq_some.mp hes'
  have htotal := hresized.total
  simp only [BufferPool.length_take, length_queue] at htotal
  exact absurd htotal (by decide)

end Pipe

end Mtdp
