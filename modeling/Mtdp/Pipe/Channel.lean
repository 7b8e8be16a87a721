import Mtdp.Fifo.Refinement
import Mtdp.Pipe.Resize

/-!
# Pipes as channels

What a pipe is for: a stack of empty buffers, a queue of full ones, and a
semaphore that counts the latter.  `Channel` is this view, with no blocks,
offsets or arrays in it, and the pipeline is modelled over it.  It never
holds `NULL`.

How an allocation ends is an argument of the channel's operations; in the
pipe it is the environment's answer.

## Main results

* `Refines` — a pipe stores the lists of a channel.
* `Refines.getEmptyBuffer`, `Refines.pushBuffer`, `Refines.getFullBuffer`,
  `Refines.putBack`, `Refines.clear` — the operations of `src/pipe.c` do
  what those of the channel do.
* `sized_refines` — a fresh pipe after a successful resize is a channel.
-/

namespace Mtdp

open Lib.Word

/-- A pipe, seen from the routines. -/
structure Channel (V : Type) where
  /-- empty buffers, the next one to be handed out last -/
  pool : List Nat
  /-- full buffers, oldest first -/
  fifo : List Nat
  /-- number of buffers the pool takes without an allocation -/
  capacity : Nat
  semaphore : Nat
  totalBuffers : Nat
  /-- what the buffers of the pipe contain -/
  memory : Nat → V

namespace Channel

variable {V : Type}

def getEmptyBuffer (c : Channel V) : Option Nat × Channel V :=
  (c.pool.getLast?, { c with pool := c.pool.dropLast })

theorem getEmptyBuffer_of_nil {c : Channel V} (hnil : c.pool = []) :
    c.getEmptyBuffer = (none, c) := by
  cases c
  simp_all [getEmptyBuffer]

def pushBuffer (c : Channel V) (accepted : Bool) (buf : Nat) : Channel V :=
  if accepted then { c with fifo := c.fifo ++ [buf] } else c

def getFullBuffer (c : Channel V) : Option Nat × Channel V :=
  (c.fifo.head?, { c with fifo := c.fifo.tail })

theorem getFullBuffer_of_nil {c : Channel V} (hnil : c.fifo = []) :
    c.getFullBuffer = (none, c) := by
  cases c
  simp_all [getFullBuffer]

/-- Only a full pool needs the allocator. -/
def putBack (c : Channel V) (allocated : Bool) (buf : Nat) : Bool × Channel V :=
  if c.pool.length < c.capacity then (true, { c with pool := c.pool ++ [buf] })
  else if allocated then
    (true, { c with
      pool := c.pool ++ [buf]
      capacity := BufferPool.grownCapacity c.pool.length })
  else (false, c)

/-- Put the listed buffers back; `allocated i` is the allocator's answer with
`i` buffers to go. -/
def clearLoop (allocated : Nat → Bool) : List Nat → Channel V → Channel V
  | [], c => c
  | buf :: bufs, c =>
      clearLoop allocated bufs (({ c with fifo := bufs }).putBack (allocated bufs.length) buf).2

def clear (c : Channel V) (allocated : Nat → Bool) : Channel V :=
  clearLoop allocated c.fifo c

@[simp] theorem putBack_fifo (c : Channel V) (allocated : Bool) (buf : Nat) :
    (c.putBack allocated buf).2.fifo = c.fifo := by
  unfold putBack
  split
  · rfl
  · split <;> rfl

@[simp] theorem putBack_semaphore (c : Channel V) (allocated : Bool) (buf : Nat) :
    (c.putBack allocated buf).2.semaphore = c.semaphore := by
  unfold putBack
  split
  · rfl
  · split <;> rfl

@[simp] theorem putBack_memory (c : Channel V) (allocated : Bool) (buf : Nat) :
    (c.putBack allocated buf).2.memory = c.memory := by
  unfold putBack
  split
  · rfl
  · split <;> rfl

/-- A buffer is turned down only by a full pool, which stays as it is. -/
theorem of_putBack_refused {c c' : Channel V} {allocated : Bool} {buf : Nat}
    (h : c.putBack allocated buf = (false, c')) : c.capacity ≤ c.pool.length ∧ c' = c := by
  unfold putBack at h
  split at h
  · cases h
  · split at h <;> cases h
    exact ⟨Nat.not_lt.mp ‹_›, rfl⟩

/-- A pool with room takes a buffer without an allocation. -/
theorem putBack_of_lt {c : Channel V} (hroom : c.pool.length < c.capacity) (allocated : Bool)
    (buf : Nat) : c.putBack allocated buf = (true, { c with pool := c.pool ++ [buf] }) := by
  simp [putBack, hroom]

theorem putBack_length (c : Channel V) (allocated : Bool) (buf : Nat) :
    (c.putBack allocated buf).2.pool.length ≤ c.pool.length + 1 := by
  unfold putBack
  split
  · simp
  · split <;> simp

theorem clearLoop_fifo (allocated : Nat → Bool) (bufs : List Nat) (c : Channel V) :
    (clearLoop allocated bufs c).fifo = if bufs = [] then c.fifo else [] := by
  induction bufs generalizing c with
  | nil => rfl
  | cons buf bufs ih => simp [clearLoop, ih]

theorem clearLoop_semaphore (allocated : Nat → Bool) (bufs : List Nat) (c : Channel V) :
    (clearLoop allocated bufs c).semaphore = c.semaphore := by
  induction bufs generalizing c with
  | nil => rfl
  | cons buf bufs ih => simp [clearLoop, ih]

theorem clearLoop_memory (allocated : Nat → Bool) (bufs : List Nat) (c : Channel V) :
    (clearLoop allocated bufs c).memory = c.memory := by
  induction bufs generalizing c with
  | nil => rfl
  | cons buf bufs ih => simp [clearLoop, ih]

/-- Clearing leaves nothing queued … -/
@[simp] theorem clear_fifo (c : Channel V) (allocated : Nat → Bool) :
    (c.clear allocated).fifo = [] := by
  simp [clear, clearLoop_fifo]

/-- … but it leaves the semaphore as it was. -/
@[simp] theorem clear_semaphore (c : Channel V) (allocated : Nat → Bool) :
    (c.clear allocated).semaphore = c.semaphore := clearLoop_semaphore _ _ _

/-- What the buffers contain stays. -/
theorem clear_memory (c : Channel V) (allocated : Nat → Bool) :
    (c.clear allocated).memory = c.memory := clearLoop_memory _ _ _

theorem clearLoop_of_le (allocated : Nat → Bool) {bufs : List Nat} {c : Channel V}
    (hroom : c.pool.length + bufs.length ≤ c.capacity) :
    clearLoop allocated bufs c =
      { c with pool := c.pool ++ bufs, fifo := if bufs = [] then c.fifo else [] } := by
  induction bufs generalizing c with
  | nil => simp [clearLoop]
  | cons buf bufs ih =>
      simp only [List.length_cons] at hroom
      rw [clearLoop, putBack_of_lt (by simp only; omega), ih]
      · simp
      · simp only [List.length_append, List.length_singleton]
        omega

/-- A pool with room for all full buffers takes them without an allocation. -/
theorem clear_of_le (allocated : Nat → Bool) {c : Channel V}
    (hroom : c.pool.length + c.fifo.length ≤ c.capacity) :
    c.clear allocated = { c with pool := c.pool ++ c.fifo, fifo := [] } := by
  rw [clear, clearLoop_of_le allocated hroom]
  cases hfifo : c.fifo <;> simp

theorem clearLoop_congr (allocated allocated' : Nat → Bool) {bufs : List Nat} {c : Channel V}
    (h : ∀ i < bufs.length, allocated i = allocated' i) :
    clearLoop allocated bufs c = clearLoop allocated' bufs c := by
  induction bufs generalizing c with
  | nil => rfl
  | cons buf bufs ih =>
      simp only [List.length_cons] at h
      rw [clearLoop, clearLoop, h bufs.length (Nat.lt_succ_self _)]
      exact ih fun i hi => h i (Nat.lt_succ_of_lt hi)

/-- `mtdp_pipe_check_invariants`, for the lists. -/
def checkInvariants (c : Channel V) : Bool :=
  let total := c.fifo.length + c.pool.length
  c.totalBuffers == total || c.totalBuffers == total + 1 || c.totalBuffers == total + 2

def release (c : Channel V) : Channel V := { c with semaphore := c.semaphore + 1 }

def acquire (c : Channel V) : Channel V := { c with semaphore := c.semaphore - 1 }

/-- The producer fills a buffer. -/
def write (c : Channel V) (buf : Nat) (v : V) : Channel V :=
  { c with memory := Function.update c.memory buf v }

end Channel

/-- A round of the loop of `mtdp_pipe_clear` is a get and a put. -/
theorem Pipe.clearLoop_succ (c : Fifo.Config) (i : Nat) (p : Pipe) :
    Pipe.clearLoop c (i + 1) p = (p.getFullBuffer c).bind fun r =>
      (r.2.putBack r.1).bind fun r => Pipe.clearLoop c i r.2 := by
  simp only [Pipe.clearLoop, Pipe.getFullBuffer, Pipe.putBack, Option.bind_eq_bind,
    Option.bind_assoc, Option.bind_some]

/-- An allocation for the pool does not touch the FIFO. -/
theorem Fifo.Inv.attempt {α : Type} {c : Fifo.Config} {f : Fifo.BufferFifo} {h : Heap α}
    (hf : Fifo.Inv c f h) : Fifo.Inv c f h.attempt.2 :=
  { blocks := hf.blocks, fits := hf.fits, lastBlock := hf.lastBlock }

/-- The pipe `p` stores the channel `ch`. -/
structure Refines {V : Type} (c : Fifo.Config) (p : Pipe) (ch : Channel V) : Prop where
  fifo : Fifo.Inv c p.fifo p.heap
  queue : p.queue c = ch.fifo.map some
  pool : p.pool.take p.pool.size = ch.pool.map some
  there : p.pool.freed = false
  size_le : p.pool.size ≤ p.pool.capacity
  small : p.pool.capacity ≤ 2 ^ 60
  capacity : p.pool.capacity = ch.capacity
  semaphore : p.semaphore = ch.semaphore
  totalBuffers : p.totalBuffers = ch.totalBuffers

namespace Refines

variable {V : Type} {c : Fifo.Config} {p : Pipe} {ch : Channel V}

theorem size_eq (hp : Refines c p ch) : p.pool.size = ch.pool.length := by
  simpa using congrArg List.length hp.pool

theorem cells_eq (hp : Refines c p ch) : p.pool.cells = p.pool.capacity :=
  BufferPool.cells_of_lt hp.there (Nat.lt_of_le_of_lt hp.small (by decide))

theorem fifo_size_eq (hp : Refines c p ch) : p.fifo.size = ch.fifo.length := by
  simpa using congrArg List.length hp.queue

/-- The assertions in `src/pipe.c` are about the lists. -/
theorem checkInvariants (hp : Refines c p ch) : p.checkInvariants = ch.checkInvariants := by
  simp only [Pipe.checkInvariants, Channel.checkInvariants, hp.fifo_size_eq, hp.size_eq,
    hp.totalBuffers]

/-- `mtdp_pipe_get_empty_buffer` hands out the buffer on top of the pool. -/
theorem getEmptyBuffer (hp : Refines c p ch) :
    ∃ p', p.getEmptyBuffer = some (ch.getEmptyBuffer.1, p') ∧
      Refines c p' ch.getEmptyBuffer.2 := by
  have hsize := hp.size_eq
  have hcells := hp.cells_eq
  have hle := hp.size_le
  rcases List.eq_nil_or_concat ch.pool with hnil | ⟨bufs, buf, hcons⟩
  · have hzero : p.pool.size = 0 := by simp [hsize, hnil]
    rw [Channel.getEmptyBuffer_of_nil hnil]
    exact ⟨p, by simp [Pipe.getEmptyBuffer, BufferPool.popBack, hzero], hp⟩
  · have hlen : p.pool.size = bufs.length + 1 := by simp [hsize, hcons]
    have htake := hp.pool
    rw [hlen, hcons, BufferPool.take_succ, List.concat_eq_append, List.map_append] at htake
    obtain ⟨hinit, hlast⟩ := List.append_inj' htake rfl
    refine ⟨{ p with pool := { p.pool with size := p.pool.size - 1 } }, ?_, ?_⟩
    · simp only [List.map_cons, List.map_nil, List.cons.injEq, and_true] at hlast
      simp [Pipe.getEmptyBuffer, BufferPool.popBack, Channel.getEmptyBuffer, hcons, hlen,
        hlast, hcells, show bufs.length < p.pool.capacity by omega]
    · refine { hp with pool := ?_, size_le := ?_ }
      · simp only [hlen, Nat.add_sub_cancel, Channel.getEmptyBuffer, hcons,
          List.concat_eq_append, List.dropLast_concat]
        exact hinit
      · simp only
        omega

/-- `mtdp_pipe_push_buffer` queues the buffer or changes nothing. -/
theorem pushBuffer (hr : 0 < c.shiftFillingRatio) (hp : Refines c p ch) (buf : Nat) :
    ∃ ok p', p.pushBuffer c (some buf) = some (ok, p') ∧
      Refines c p' (ch.pushBuffer ok buf) := by
  obtain ⟨ok, f', h', hrun, hinv, hcontents, _⟩ := Fifo.pushBack_spec hr hp.fifo (some buf)
  refine ⟨ok, { p with fifo := f', heap := h' }, ?_, ?_⟩
  · simp [Pipe.pushBuffer, hrun]
  have hqueue := hp.queue
  unfold Pipe.queue at hqueue
  cases ok with
  | true =>
      simp only [if_true] at hcontents
      exact { hp with
        fifo := hinv
        queue := by simp [Pipe.queue, hcontents, hqueue, Channel.pushBuffer] }
  | false =>
      simp only [Bool.false_eq_true, if_false] at hcontents
      exact { hp with
        fifo := hinv
        queue := by simp [Pipe.queue, hcontents, hqueue, Channel.pushBuffer] }

/-- `mtdp_pipe_get_full_buffer` hands out the oldest buffer. -/
theorem getFullBuffer (hp : Refines c p ch) :
    ∃ p', p.getFullBuffer c = some (ch.getFullBuffer.1, p') ∧
      Refines c p' ch.getFullBuffer.2 := by
  have hqueue := hp.queue
  unfold Pipe.queue at hqueue
  obtain ⟨r, f', hrun, hinv, ⟨rfl, rfl, hnil⟩ | ⟨e, rfl, hcons⟩⟩ := Fifo.popFront_spec hp.fifo
  · have hempty : ch.fifo = [] := by simpa [hnil] using hqueue.symm
    rw [Channel.getFullBuffer_of_nil hempty]
    exact ⟨p, by simp [Pipe.getFullBuffer, hrun], hp⟩
  · rw [hcons] at hqueue
    obtain ⟨buf, bufs, hfifo, rfl, htail⟩ := List.map_eq_cons_iff.mp hqueue.symm
    refine ⟨{ p with fifo := f' }, ?_, ?_⟩
    · simp [Pipe.getFullBuffer, hrun, Channel.getFullBuffer, hfifo]
    · exact { hp with
        fifo := hinv
        queue := by simp [Pipe.queue, Channel.getFullBuffer, hfifo, htail] }

/-- `mtdp_pipe_put_back` puts the buffer on top of the pool, unless the pool
is full and cannot grow. -/
theorem putBack (hp : Refines c p ch) (hroom : ch.pool.length < 2 ^ 60) (buf : Nat) :
    ∃ allocated p', p.putBack (some buf) = some ((ch.putBack allocated buf).1, p') ∧
      Refines c p' (ch.putBack allocated buf).2 := by
  have hsize := hp.size_eq
  have hle := hp.size_le
  have hsmall := hp.small
  have hcapacity := hp.capacity
  -- both ways of growing put the buffer on top of the old entries
  have htake (q : BufferPool) (hbuffers : ∀ i < p.pool.size, q.buffers i = p.pool.buffers i)
      (htop : q.buffers p.pool.size = some buf) :
      q.take (p.pool.size + 1) = (ch.pool ++ [buf]).map some := by
    rw [BufferPool.take_succ, BufferPool.take_congr hbuffers, hp.pool, htop]
    simp
  by_cases hspace : p.pool.size < p.pool.capacity
  · refine ⟨true, { p with
      pool := { p.pool with
        buffers := Function.update p.pool.buffers p.pool.size (some buf)
        size := p.pool.size + 1 } }, ?_, ?_⟩
    · simp [Pipe.putBack, BufferPool.pushBack_of_lt p.heap (some buf) hp.there hspace
        (by omega), Channel.putBack, ← hsize, ← hcapacity, hspace]
    · simp only [Channel.putBack, ← hsize, ← hcapacity, hspace, if_true]
      refine { hp with pool := ?_, size_le := hspace, capacity := rfl }
      refine htake _ (fun i hi => ?_) (by simp)
      simp [Nat.ne_of_lt hi]
  · have hfull : p.pool.size = p.pool.capacity := by omega
    have hgrown : BufferPool.grownCapacity p.pool.size ≤ 2 ^ 60 :=
      BufferPool.grownCapacity_le (by omega) (by omega)
    have hpush := BufferPool.pushBack_of_full p.heap (some buf) hp.there hfull (by omega)
    cases hrefused : p.pool.refused p.heap (BufferPool.grownCapacity p.pool.size) with
    | true =>
        refine ⟨false, { p with heap := p.heap.attempt.2 }, ?_, ?_⟩
        · simp [Pipe.putBack, hpush, hrefused, Channel.putBack, ← hsize, ← hcapacity, hspace]
        · simp only [Channel.putBack, ← hsize, ← hcapacity, hspace, if_false,
            Bool.false_eq_true]
          exact { hp with fifo := hp.fifo.attempt, queue := hp.queue }
    | false =>
        refine ⟨true, { p with
          pool :=
            { buffers := Function.update
                (if p.pool.capacity = 0 then fun _ => none else p.pool.buffers) p.pool.size
                (some buf)
              size := p.pool.size + 1
              capacity := BufferPool.grownCapacity p.pool.size
              freed := false }
          heap := p.heap.attempt.2 }, ?_, ?_⟩
        · simp [Pipe.putBack, hpush, hrefused, Channel.putBack, ← hsize, ← hcapacity, hspace]
        · simp only [Channel.putBack, ← hsize, ← hcapacity, hspace, if_false, if_true]
          refine { hp with
            fifo := hp.fifo.attempt
            queue := hp.queue
            pool := htake _ (fun i hi => ?_) (by simp)
            there := rfl
            size_le := BufferPool.lt_grownCapacity _
            small := hgrown
            capacity := rfl }
          simp only [Function.update_of_ne (Nat.ne_of_lt hi)]
          rw [if_neg (by omega)]

/-- The loop of `mtdp_pipe_clear` takes the oldest buffer out and puts it
back. -/
theorem clearLoop (n : Nat) : ∀ {p : Pipe} {ch : Channel V}, Refines c p ch →
    ch.fifo.length = n → ch.pool.length + ch.fifo.length < 2 ^ 60 →
    ∃ allocated p', Pipe.clearLoop c n p = some p' ∧
      Refines c p' (Channel.clearLoop allocated ch.fifo ch) := by
  induction n with
  | zero =>
      intro p ch hp hlen _
      rw [List.eq_nil_of_length_eq_zero hlen]
      exact ⟨fun _ => true, p, rfl, hp⟩
  | succ n ih =>
      intro p ch hp hlen hroom
      obtain ⟨buf, bufs, hfifo⟩ := List.exists_cons_of_length_eq_add_one hlen
      simp only [hfifo, List.length_cons] at hlen hroom
      obtain ⟨p₁, hget, hp₁⟩ := hp.getFullBuffer
      simp only [Channel.getFullBuffer, hfifo, List.head?_cons, List.tail_cons] at hget hp₁
      obtain ⟨a, p₂, hput, hp₂⟩ := hp₁.putBack (by simp only; omega) buf
      have hfifo₂ : (({ ch with fifo := bufs }).putBack a buf).2.fifo = bufs :=
        Channel.putBack_fifo _ _ _
      have hpool₂ := Channel.putBack_length ({ ch with fifo := bufs }) a buf
      obtain ⟨allocated, p₃, hloop, hp₃⟩ := ih hp₂ (by rw [hfifo₂]; omega) (by
        rw [hfifo₂]
        simp only at hpool₂
        omega)
      rw [hfifo₂] at hp₃
      refine ⟨Function.update allocated n a, p₃, ?_, ?_⟩
      · simp [Pipe.clearLoop_succ, hget, hput, hloop]
      · rw [hfifo, Channel.clearLoop, show bufs.length = n by omega, Function.update_self,
          Channel.clearLoop_congr _ allocated]
        · exact hp₃
        · intro i hi
          exact Function.update_of_ne (by omega) _ _

/-- `mtdp_pipe_clear` moves the full buffers into the pool. -/
theorem clear (hp : Refines c p ch) (hroom : ch.pool.length + ch.fifo.length < 2 ^ 60) :
    ∃ allocated p', p.clear c = some p' ∧ Refines c p' (ch.clear allocated) := by
  unfold Pipe.clear
  rw [hp.fifo_size_eq]
  exact clearLoop _ hp rfl hroom

end Refines

/-- **Sizing.**  A fresh pipe that was resized with success, and whose array
the user then filled with buffers, is a channel with these buffers in its
pool and nothing queued. -/
theorem sized_refines {V : Type} {c : Fifo.Config} {junk p p' : Pipe} {n : UInt64}
    (hinit : Pipe.init c junk = some p) (hn : n.toNat ≤ 2 ^ 60)
    (hrun : p.resize c n = some (⟨.ok, true⟩, p')) (bufs : List Nat)
    (hlen : bufs.length = n.toNat) (memory : Nat → V) :
    Refines c { p' with pool := { p'.pool with buffers := fun i => bufs[i]? } }
      { pool := bufs, fifo := [], capacity := n.toNat, semaphore := 0, totalBuffers := n.toNat,
        memory } := by
  unfold Pipe.init at hinit
  rcases hfifo : Fifo.init c junk.heap with ⟨_ | f, h⟩ <;>
    simp only [hfifo, Option.some.injEq, reduceCtorEq] at hinit
  subst hinit
  obtain ⟨hinv, hempty⟩ := Fifo.init_spec hfifo
  have hsize : f.size = 0 := by
    rw [← Fifo.contents_length c f h, hempty, List.length_nil]
  have hfilled : (List.range n.toNat).map (fun i => bufs[i]?) = bufs.map some := by
    rw [← hlen]
    exact List.ext_getElem (by simp) (by simp)
  rcases Nat.eq_zero_or_pos n.toNat with hzero | hpos
  · rw [Pipe.resize_of_total (by simp [BufferPool.init, hsize])
      (by simp [BufferPool.init, hsize, hzero])] at hrun
    cases hrun
    exact
      { fifo := hinv
        queue := hempty
        pool := by rw [← hfilled, hzero]; rfl
        there := rfl
        size_le := Nat.le_refl 0
        small := Nat.zero_le _
        capacity := hzero.symm
        semaphore := rfl
        totalBuffers := rfl }
  · rw [Pipe.resize_of_more (by simp [BufferPool.init, hsize])
      (by simp [BufferPool.init, hsize, hpos]) (by omega)] at hrun
    simp only [hsize, Nat.sub_zero, Option.map_eq_some_iff] at hrun
    obtain ⟨⟨ok, pool, heap⟩, hpool, hrun⟩ := hrun
    have hkeeps := (BufferPool.init junk.pool.buffers).frees_of_lt hpos (by omega)
    cases hrefused : (BufferPool.init junk.pool.buffers).refused h n.toNat with
    | true =>
      rw [BufferPool.resize_of_refused (by omega) hpos rfl hrefused] at hpool
      cases hpool
      simp at hrun
    | false =>
      rw [BufferPool.resize_of_granted (by omega) hpos rfl hkeeps hrefused] at hpool
      cases hpool
      simp only [if_true, Prod.mk.injEq, true_and] at hrun
      subst hrun
      have hwrap : wrap (((0 : Nat) : Int) + ((n.toNat : Int) - ((0 : Nat) : Int))) = n.toNat := by
        unfold wrap
        omega
      exact
        { fifo := hinv.attempt
          queue := hempty
          pool := by simp only [BufferPool.init, hwrap]; exact hfilled
          there := rfl
          size_le := by simp only [BufferPool.init, hwrap]; exact Nat.le_refl _
          small := hn
          capacity := rfl
          semaphore := rfl
          totalBuffers := rfl }

end Mtdp
