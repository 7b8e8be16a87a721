import Mtdp.Lib.Critical
import Mtdp.Pipe.Channel
import Mtdp.Pipe.Lock

/-!
# The functions of a pipe, statement by statement

What a function of `src/pipe.c` does between locking and unlocking, as a program of
accesses to the pipe.  A mutex guards a part of the pipe, and a function keeps to the
parts whose mutexes it holds.

## Main results

* `body_run` — the statements of a function, one after the other, do what the
  operation of the channel does.
* `body_within` — they keep to what the mutexes of the function guard.
-/

namespace Mtdp.Calls

open Lib.Critical Lock2

variable {V : Type}

/-! ## The functions -/

/-- The functions of `src/pipe.c` that the threads of a pipeline call, with the answers
of the allocator. -/
inductive Operation where
  /-- `mtdp_pipe_check_invariants` -/
  | checkInvariants
  /-- `mtdp_pipe_get_empty_buffer` -/
  | getEmptyBuffer
  /-- `mtdp_pipe_push_buffer` -/
  | pushBuffer (accepted : Bool) (buf : Nat)
  /-- `mtdp_pipe_get_full_buffer` -/
  | getFullBuffer
  /-- `mtdp_pipe_put_back` -/
  | putBack (allocated : Bool) (buf : Nat)
  /-- `mtdp_pipe_clear` -/
  | clear (allocated : Nat → Bool)

inductive Result where
  | bool (b : Bool)
  | buffer (b : Option Nat)
  | unit
  deriving DecidableEq

/-- The expression that `mtdp_pipe_check_invariants` returns. -/
def totalBuffersOk (totalBuffers total : Nat) : Bool :=
  totalBuffers == total || totalBuffers == total + 1 || totalBuffers == total + 2

namespace Operation

/-- The mutexes it takes. -/
def job : Operation → Job
  | .checkInvariants | .clear _ => .both
  | .getEmptyBuffer | .putBack _ _ => .one .pool
  | .pushBuffer _ _ | .getFullBuffer => .one .fifo

/-- What it does to a channel, all at once. -/
def run (c : Channel V) : Operation → Channel V × Result
  | .checkInvariants => (c, .bool (totalBuffersOk c.totalBuffers (c.fifo.length + c.pool.length)))
  | .getEmptyBuffer => (c.getEmptyBuffer.2, .buffer c.getEmptyBuffer.1)
  | .pushBuffer accepted buf => (c.pushBuffer accepted buf, .bool accepted)
  | .getFullBuffer => (c.getFullBuffer.2, .buffer c.getFullBuffer.1)
  | .putBack allocated buf => ((c.putBack allocated buf).2, .bool (c.putBack allocated buf).1)
  | .clear allocated => (c.clear allocated, .unit)

end Operation

/-- Empty the pool by one. -/
def dropLast (c : Channel V) : Channel V := { c with pool := c.pool.dropLast }

/-- Empty the queue by one. -/
def dropFirst (c : Channel V) : Channel V := { c with fifo := c.fifo.tail }

/-- Store a buffer behind the last one of the pool. -/
def store (buf : Nat) (c : Channel V) : Channel V := { c with pool := c.pool ++ [buf] }

/-- Make the array of the pool longer. -/
def grow (c : Channel V) : Channel V :=
  { c with capacity := BufferPool.grownCapacity c.pool.length }

/-- `mtdp_buffer_pool_push_back`, and then `next` with what it returns -/
def pushBackBody (allocated : Bool) (buf : Nat) (next : Bool → Body (Channel V) Result) :
    Body (Channel V) Result :=
  .act id fun c =>
    if c.pool.length < c.capacity then .act (store buf) fun _ => next true
    else if allocated then .act grow fun _ => .act (store buf) fun _ => next true
    else next false

/-- The loop of `mtdp_pipe_clear` with `i` buffers to go. -/
def clearBody (allocated : Nat → Bool) : Nat → Body (Channel V) Result
  | 0 => .ret .unit
  | i + 1 => .act dropFirst fun c =>
      match c.fifo with
      | [] => clearBody allocated i
      | buf :: _ => pushBackBody (allocated i) buf fun _ => clearBody allocated i

/-- The statements between locking and unlocking. -/
def Operation.body : Operation → Body (Channel V) Result
  | .checkInvariants =>
      .act id fun c => .act id fun c' => .act id fun c'' =>
        .ret (.bool (totalBuffersOk c''.totalBuffers (c.fifo.length + c'.pool.length)))
  | .getEmptyBuffer => .act dropLast fun c => .ret (.buffer c.pool.getLast?)
  | .pushBuffer accepted buf =>
      .act (fun c => c.pushBuffer accepted buf) fun _ => .ret (.bool accepted)
  | .getFullBuffer => .act dropFirst fun c => .ret (.buffer c.fifo.head?)
  | .putBack allocated buf => pushBackBody allocated buf fun ok => .ret (.bool ok)
  | .clear allocated => .act id fun c => clearBody allocated c.fifo.length

theorem pushBackBody_run (c : Channel V) (allocated : Bool) (buf : Nat)
    (next : Bool → Body (Channel V) Result) :
    (pushBackBody allocated buf next).run c =
      (next (c.putBack allocated buf).1).run (c.putBack allocated buf).2 := by
  simp only [pushBackBody, Body.run, id_eq, Channel.putBack]
  split
  · rfl
  · split
    · rfl
    · rfl

theorem clearBody_run (allocated : Nat → Bool) (c : Channel V) :
    (clearBody allocated c.fifo.length).run c = (c.clear allocated, .unit) := by
  rw [Channel.clear]
  induction hfifo : c.fifo generalizing c with
  | nil => rfl
  | cons buf bufs ih =>
      have hrest := ih ({ c with fifo := bufs }.putBack (allocated bufs.length) buf).2
        (Channel.putBack_fifo _ _ _)
      simp only [List.length_cons, clearBody, Body.run, hfifo, pushBackBody_run, dropFirst,
        List.tail_cons, Channel.clearLoop]
      exact hrest

/-- **The statements of a function** do what the operation does. -/
theorem body_run (f : Operation) (c : Channel V) : f.body.run c = f.run c := by
  cases f with
  | checkInvariants | getEmptyBuffer | pushBuffer | getFullBuffer => rfl
  | putBack allocated buf =>
      rw [Operation.body, pushBackBody_run]
      rfl
  | clear allocated => exact clearBody_run allocated c

/-! ## What the mutexes guard -/

/-- The parts of a channel: that of a mutex, and what no mutex guards, the semaphore and
the contents of the buffers. -/
def guarded : Parts (Option Which) (Channel V) where
  Part
    | some .pool => List Nat × Nat × Nat
    | some .fifo => List Nat
    | none => Nat × (Nat → V)
  part
    | some .pool, c => (c.pool, c.capacity, c.totalBuffers)
    | some .fifo, c => c.fifo
    | none, c => (c.semaphore, c.memory)
  merge g :=
    { pool := (g (some .pool)).pool
      fifo := (g (some .fifo)).fifo
      capacity := (g (some .pool)).capacity
      semaphore := (g none).semaphore
      totalBuffers := (g (some .pool)).totalBuffers
      memory := (g none).memory }
  part_merge
    | _, some .pool => rfl
    | _, some .fifo => rfl
    | _, none => rfl
  ext := by
    intro c c' h
    have hpool := h (some .pool)
    have hfifo := h (some .fifo)
    have hnone := h none
    cases c
    cases c'
    simp_all

/-- The mutexes of a job. -/
def covers : Job → Option Which → Prop
  | .both, w => w ≠ none
  | .one v, w => w = some v

section Within

variable {K : Option Which → Prop} {c c' : Channel V}

theorem agree_pool (hK : K (some .pool)) (hagree : guarded.Agree K c c') :
    c'.pool = c.pool ∧ c'.capacity = c.capacity ∧ c'.totalBuffers = c.totalBuffers := by
  have := hagree _ hK
  simp_all [guarded]

theorem agree_fifo (hK : K (some .fifo)) (hagree : guarded.Agree K c c') : c'.fifo = c.fifo :=
  (hagree _ hK).symm

/-- An access to the part of one mutex. -/
theorem within_act {access : Channel V → Channel V} {next : Channel V → Body (Channel V) Result}
    {v : Which} (hv : K (some v))
    (hframe : ∀ c w, w ≠ some v → guarded.part w (access c) = guarded.part w c)
    (hlocal : ∀ c c' : Channel V, guarded.part (some v) c = guarded.part (some v) c' →
      guarded.part (some v) (access c) = guarded.part (some v) (access c') ∧ next c = next c')
    (hrest : ∀ c, (next c).Within guarded K) : (Body.act access next).Within guarded K := by
  refine .act (fun c w hw => hframe c w fun heq => hw (heq ▸ hv)) (fun c c' hagree => ?_) hrest
  obtain ⟨haccess, hnext⟩ := hlocal c c' (hagree _ hv)
  refine ⟨fun w hw => ?_, hnext⟩
  by_cases heq : w = some v
  · subst heq
    exact haccess
  · rw [hframe c w heq, hframe c' w heq]
    exact hagree w hw

theorem pushBackBody_within (hK : K (some .pool)) (allocated : Bool) (buf : Nat)
    {next : Bool → Body (Channel V) Result} (hnext : ∀ ok, (next ok).Within guarded K) :
    (pushBackBody allocated buf next).Within guarded K := by
  have hstore : (Body.act (store buf) fun _ => next true).Within guarded K := by
    refine within_act hK ?_ ?_ fun _ => hnext true
    · rintro c (_ | _ | _) hw <;> first | rfl | exact absurd rfl hw
    · intro c c' hpart
      simp_all [guarded, store]
  refine .read (fun c c' hagree => ?_) fun c => ?_
  · obtain ⟨hpool, hcapacity, _⟩ := agree_pool hK hagree
    simp only [hpool, hcapacity]
  · split
    · exact hstore
    · split
      · refine within_act hK ?_ ?_ fun _ => hstore
        · rintro c (_ | _ | _) hw <;> first | rfl | exact absurd rfl hw
        · intro c c' hpart
          simp_all [guarded, grow]
      · exact hnext false

theorem clearBody_within (hpool : K (some .pool)) (hfifo : K (some .fifo))
    (allocated : Nat → Bool) (i : Nat) :
    (clearBody (V := V) allocated i).Within guarded K := by
  induction i with
  | zero => exact .ret _
  | succ i ih =>
      refine within_act hfifo ?_ ?_ fun c => ?_
      · rintro c (_ | _ | _) hw <;> first | rfl | exact absurd rfl hw
      · intro c c' hpart
        simp_all [guarded, dropFirst]
      · split
        · exact ih
        · exact pushBackBody_within hpool _ _ fun _ => ih

end Within

/-- **The statements of a function** keep to what its mutexes guard. -/
theorem body_within (f : Operation) : (f.body (V := V)).Within guarded (covers f.job) := by
  cases f with
  | checkInvariants =>
      have hpool : covers Job.both (some Which.pool) := by rintro ⟨⟩
      have hfifo : covers Job.both (some Which.fifo) := by rintro ⟨⟩
      refine .read (fun c c' hagree => ?_) fun c => .read (fun c' c'' hagree => ?_) fun c' =>
        .read (fun d d' hagree => ?_) fun _ => .ret _
      · simp only [agree_fifo hfifo hagree]
      · simp only [(agree_pool hpool hagree).1]
      · simp only [(agree_pool hpool hagree).2.2]
  | getEmptyBuffer =>
      refine within_act (v := .pool) rfl ?_ ?_ fun _ => .ret _
      · rintro c (_ | _ | _) hw <;> first | rfl | exact absurd rfl hw
      · intro c c' hpart
        simp_all [guarded, dropLast]
  | pushBuffer accepted buf =>
      refine within_act (v := .fifo) rfl ?_ ?_ fun _ => .ret _
      · rintro c (_ | _ | _) hw <;> cases accepted <;> first | rfl | exact absurd rfl hw
      · intro c c' hpart
        cases accepted <;> simp_all [guarded, Channel.pushBuffer]
  | getFullBuffer =>
      refine within_act (v := .fifo) rfl ?_ ?_ fun _ => .ret _
      · rintro c (_ | _ | _) hw <;> first | rfl | exact absurd rfl hw
      · intro c c' hpart
        simp_all [guarded, dropFirst]
  | putBack allocated buf =>
      exact pushBackBody_within (K := covers (.one .pool)) rfl _ _ fun _ => .ret _
  | clear allocated =>
      refine .read (fun c c' hagree => ?_) fun c =>
        clearBody_within (by rintro ⟨⟩) (by rintro ⟨⟩) _ _
      simp only [agree_fifo (by rintro ⟨⟩) hagree]

end Mtdp.Calls
