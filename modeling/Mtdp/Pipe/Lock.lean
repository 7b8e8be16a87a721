import Mathlib.Logic.Function.Basic
import Mtdp.Lib.Transition

/-!
# Taking two mutexes

`mtdp_lock2` of `src/pipe.c` over the mutexes of `src/thread.h`.  Any number
of threads take the two mutexes of a pipe, both with `mtdp_lock2` or one with
`mtx_lock`, and give them back.  The C11 functions are those of the platform;
on Windows `src/thread.h` defines them over critical sections, which a thread
may enter again, and `mtx_trylock` drops the answer of
`TryEnterCriticalSection`.

## Main results

* `step_owned` — who has been told that it owns a mutex owns it, as long as no
  answer is dropped.
* `goes_on` — a thread that cannot go on waits for one that can.
* `lock2_sound_iff` — the runs in which the mutexes do their work are those in
  which every `mtx_trylock` of the Windows version finds its mutex free.
-/

namespace Mtdp.Lock2

open Lib.Transition

variable {T : Type} [DecidableEq T]

/-! ## Mutexes -/

/-- The platforms of `src/thread.h`. -/
inductive Platform where
  | c11
  | windows
  deriving DecidableEq, Repr

/-- `mtx_t`; only a critical section is ever deeper than `1`. -/
structure Mutex (T : Type) where
  owner : Option T
  depth : Nat

/-- `mtx_lock`, `none` while it blocks. -/
def mtxLock (p : Platform) (m : Mutex T) (t : T) : Option (Mutex T) :=
  match m.owner with
  | none => some ⟨some t, 1⟩
  | some u => if p = .windows ∧ u = t then some { m with depth := m.depth + 1 } else none

/-- `mtx_trylock(m) == thrd_success`, and the mutex after the call. -/
def mtxTrylock (p : Platform) (m : Mutex T) (t : T) : Bool × Mutex T :=
  match p with
  | .c11 => if m.owner.isNone then (true, ⟨some t, 1⟩) else (false, m)
  | .windows => (true, (mtxLock .windows m t).getD m)

/-- `mtx_unlock`, undefined for a thread that does not own the mutex. -/
def mtxUnlock (m : Mutex T) (t : T) : Option (Mutex T) :=
  if m.owner = some t then
    some (if m.depth ≤ 1 then ⟨none, 0⟩ else { m with depth := m.depth - 1 })
  else none

/-! ## Threads -/

/-- The mutexes of a pipe. -/
inductive Which where
  | pool
  | fifo
  deriving DecidableEq, Repr

instance {P : Which → Prop} [DecidablePred P] : Decidable (∀ w, P w) :=
  decidable_of_iff (P .pool ∧ P .fifo)
    ⟨fun h w => by cases w <;> simp [h], fun h => ⟨h .pool, h .fifo⟩⟩

/-- What a thread does with them. -/
inductive Job where
  /-- `mtdp_lock2(&pool_mutex, &fifo_mutex)`, then both are unlocked -/
  | both
  /-- `mtx_lock`, then `mtx_unlock` -/
  | one (w : Which)
  deriving DecidableEq, Repr

/-- Program points of a thread: the call it is about to make. -/
inductive Pc where
  | idle
  /-- `mtx_lock(m1)` -/
  | lockFirst
  /-- `mtx_trylock(m2)` -/
  | trySecond
  /-- `mtx_unlock(m1)` -/
  | dropFirst
  | yield
  /-- `mtx_lock(m2)` -/
  | lockSecond
  /-- `mtx_trylock(m1)` -/
  | tryFirst
  /-- `mtx_unlock(m2)` -/
  | dropSecond
  /-- `mtdp_lock2` has returned; `mtx_unlock(&pool_mutex)` -/
  | unlockPool
  /-- `mtx_unlock(&fifo_mutex)` -/
  | unlockFifo
  | lockOne (w : Which)
  | unlockOne (w : Which)
  deriving DecidableEq, Repr

structure State (T : Type) where
  pc : T → Pc
  mutex : Which → Mutex T

/-- Which thread moves; an idle one takes the job. -/
structure Label (T : Type) where
  thread : T
  job : Job

namespace State

def goto (s : State T) (t : T) (pc : Pc) : State T := { s with pc := Function.update s.pc t pc }

/-- Store a mutex and go on. -/
def put (s : State T) (t : T) (w : Which) (m : Mutex T) (pc : Pc) : State T :=
  { pc := Function.update s.pc t pc, mutex := Function.update s.mutex w m }

end State

def lock (p : Platform) (s : State T) (t : T) (w : Which) (next : Pc) : Option (State T) :=
  (mtxLock p (s.mutex w) t).map fun m => s.put t w m next

def trylock (p : Platform) (s : State T) (t : T) (w : Which) (next busy : Pc) : State T :=
  match mtxTrylock p (s.mutex w) t with
  | (true, m) => s.put t w m next
  | (false, m) => s.put t w m busy

def unlock (s : State T) (t : T) (w : Which) (next : Pc) : Option (State T) :=
  (mtxUnlock (s.mutex w) t).map fun m => s.put t w m next

/-- One step of a thread.  In `mtdp_lock2`, `m1` is the mutex of the pool. -/
def step (p : Platform) (s : State T) (l : Label T) : Option (State T) :=
  match s.pc l.thread with
  | .idle =>
      some (s.goto l.thread (match l.job with | .both => .lockFirst | .one w => .lockOne w))
  | .lockFirst => lock p s l.thread .pool .trySecond
  | .trySecond => some (trylock p s l.thread .fifo .unlockPool .dropFirst)
  | .dropFirst => unlock s l.thread .pool .yield
  | .yield => some (s.goto l.thread .lockSecond)
  | .lockSecond => lock p s l.thread .fifo .tryFirst
  | .tryFirst => some (trylock p s l.thread .pool .unlockPool .dropSecond)
  | .dropSecond => unlock s l.thread .fifo .lockFirst
  | .unlockPool => unlock s l.thread .pool .unlockFifo
  | .unlockFifo => unlock s l.thread .fifo .idle
  | .lockOne w => lock p s l.thread w (.unlockOne w)
  | .unlockOne w => unlock s l.thread w .idle

/-- Nobody has done anything yet. -/
def start : State T := ⟨fun _ => .idle, fun _ => ⟨none, 0⟩⟩

/-! ## What is promised -/

/-- The mutexes that the calls made so far have given to the thread, as far
as it can tell. -/
def Pc.holds : Pc → Which → Bool
  | .trySecond, w => w == .pool
  | .dropFirst, w => w == .pool
  | .tryFirst, w => w == .fifo
  | .dropSecond, w => w == .fifo
  | .unlockPool, _ => true
  | .unlockFifo, w => w == .fifo
  | .unlockOne w', w => w == w'
  | _, _ => false

/-- The mutex that the thread is about to unlock. -/
def Pc.unlocks : Pc → Option Which
  | .dropFirst => some .pool
  | .dropSecond => some .fifo
  | .unlockPool => some .pool
  | .unlockFifo => some .fifo
  | .unlockOne w => some w
  | _ => none

/-- The mutex that the thread is about to lock, waiting for it if need be. -/
def Pc.locks : Pc → Option Which
  | .lockFirst => some .pool
  | .lockSecond => some .fifo
  | .lockOne w => some w
  | _ => none

/-- The mutex that the thread is about to try. -/
def Pc.tries : Pc → Option Which
  | .trySecond => some .fifo
  | .tryFirst => some .pool
  | _ => none

/-- Thread `u` owns the mutex that thread `t` is about to lock. -/
def WaitsFor (s : State T) (t u : T) : Prop :=
  u ≠ t ∧ ∃ w, (s.pc t).locks = some w ∧ (s.mutex w).owner = some u

/-- The mutexes do their work in this state. -/
structure Sound (p : Platform) (s : State T) : Prop where
  /-- `mtdp_lock2` returns to a thread that owns both -/
  returned : ∀ t, s.pc t = .unlockPool → ∀ w, (s.mutex w).owner = some t
  unlocked : ∀ t w, (s.pc t).unlocks = some w → (s.mutex w).owner = some t
  exclusive : ∀ t u w, (s.pc t).holds w = true → (s.pc u).holds w = true → t = u
  /-- if there is a thread, one can take a step -/
  live : ∀ _ : T, ∃ l s', step p s l = some s'

/-- The answer of `mtx_trylock` can be relied on: it is a C11 one, or the
mutex is free. -/
def AnswersTruly (p : Platform) (s : State T) (l : Label T) : Prop :=
  p = .windows → ∀ w, (s.pc l.thread).tries = some w → (s.mutex w).owner = none

/-! ## The invariant -/

/-- A thread owns exactly what it has been told, and once. -/
structure Owned (s : State T) : Prop where
  owner : ∀ w t, (s.mutex w).owner = some t ↔ (s.pc t).holds w = true
  depth : ∀ w, (s.mutex w).depth ≤ 1

omit [DecidableEq T] in
theorem start_owned : Owned (start : State T) := by
  constructor
  · intro w t
    simp [start, Pc.holds]
  · intro w
    exact Nat.zero_le 1

theorem goto_owned {s : State T} {t : T} {pc : Pc} (h : Owned s)
    (hholds : ∀ w, pc.holds w = (s.pc t).holds w) : Owned (s.goto t pc) := by
  constructor
  · intro w u
    rcases eq_or_ne u t with rfl | hne
    · simp [State.goto, hholds, h.owner]
    · simp [State.goto, hne, h.owner]
  · exact h.depth

/-- A mutex is stored whose owner is what the threads believe. -/
theorem put_owned {s : State T} {t : T} {w : Which} {m : Mutex T} {pc : Pc} (h : Owned s)
    (hdepth : m.depth ≤ 1) (hself : m.owner = some t ↔ pc.holds w = true)
    (hothers : ∀ u, u ≠ t → (m.owner = some u ↔ (s.pc u).holds w = true))
    (hframe : ∀ w', w' ≠ w → pc.holds w' = (s.pc t).holds w') : Owned (s.put t w m pc) := by
  constructor
  · intro w' u
    rcases eq_or_ne w' w with rfl | hw <;> rcases eq_or_ne u t with rfl | hu
    · simp [State.put, hself]
    · simp [State.put, hu, hothers u hu]
    · simp [State.put, hw, hframe w' hw, h.owner]
    · simp [State.put, hw, hu, h.owner]
  · intro w'
    rcases eq_or_ne w' w with rfl | hw
    · simpa [State.put] using hdepth
    · simpa [State.put, hw] using h.depth w'

omit [DecidableEq T] in
/-- Nobody believes to own a free mutex. -/
theorem Owned.not_holds {s : State T} {w : Which} (h : Owned s)
    (hfree : (s.mutex w).owner = none) (u : T) : (s.pc u).holds w = false := by
  have := h.owner w u
  simpa [hfree] using this

/-- A mutex that was free is given to the thread. -/
theorem take_owned {s : State T} {t : T} {w : Which} {pc : Pc} (h : Owned s)
    (hfree : (s.mutex w).owner = none) (hpc : pc.holds w = true)
    (hframe : ∀ w', w' ≠ w → pc.holds w' = (s.pc t).holds w') :
    Owned (s.put t w ⟨some t, 1⟩ pc) := by
  apply put_owned h (Nat.le_refl 1)
  · simp [hpc]
  · intro u hu
    simp [h.not_holds hfree u, Ne.symm hu]
  · exact hframe

/-- Who does not own the mutex gets it only when it is free. -/
theorem mtxLock_free {p : Platform} {m m' : Mutex T} {t : T} (hne : m.owner ≠ some t)
    (hlock : mtxLock p m t = some m') : m.owner = none ∧ m' = ⟨some t, 1⟩ := by
  cases hm : m.owner with
  | none =>
      rw [mtxLock, hm] at hlock
      exact ⟨rfl, (Option.some.inj hlock).symm⟩
  | some u =>
      have hut : u ≠ t := fun heq => hne (heq ▸ hm)
      simp [mtxLock, hm, hut] at hlock

theorem lock_owned {p : Platform} {s s' : State T} {t : T} {w : Which} {pc : Pc} (h : Owned s)
    (hnot : (s.pc t).holds w = false) (hpc : pc.holds w = true)
    (hframe : ∀ w', w' ≠ w → pc.holds w' = (s.pc t).holds w')
    (hlock : lock p s t w pc = some s') : Owned s' := by
  obtain ⟨m, hm, rfl⟩ := Option.map_eq_some_iff.mp hlock
  have hne : (s.mutex w).owner ≠ some t := by
    intro heq
    rw [h.owner, hnot] at heq
    cases heq
  obtain ⟨hfree, rfl⟩ := mtxLock_free hne hm
  exact take_owned h hfree hpc hframe

theorem unlock_owned {s s' : State T} {t : T} {w : Which} {pc : Pc} (h : Owned s)
    (hpc : pc.holds w = false) (hframe : ∀ w', w' ≠ w → pc.holds w' = (s.pc t).holds w')
    (hunlock : unlock s t w pc = some s') : Owned s' := by
  obtain ⟨m, hm, rfl⟩ := Option.map_eq_some_iff.mp hunlock
  unfold mtxUnlock at hm
  split at hm
  · next howner =>
      rw [if_pos (h.depth w), Option.some.injEq] at hm
      subst hm
      apply put_owned h (Nat.zero_le 1)
      · simp [hpc]
      · intro u hu
        have hother : (s.mutex w).owner ≠ some u := by
          intro heq
          rw [howner] at heq
          exact hu (Option.some.inj heq).symm
        rw [ne_eq, h.owner] at hother
        simp [hother]
      · exact hframe
  · cases hm

/-- On a busy mutex the C11 version of `mtx_trylock` says so, the Windows one
does not. -/
theorem mtxTrylock_eq (p : Platform) (m : Mutex T) (t : T) (hne : m.owner ≠ some t) :
    mtxTrylock p m t =
      (if m.owner = none then (true, ⟨some t, 1⟩) else (decide (p = .windows), m)) := by
  cases hm : m.owner with
  | none => cases p <;> simp [mtxTrylock, mtxLock, hm]
  | some u =>
      have hut : u ≠ t := fun heq => hne (heq ▸ hm)
      cases p <;> simp [mtxTrylock, mtxLock, hm, hut]

theorem trylock_owned {p : Platform} {s : State T} {t : T} {w : Which} {next busy : Pc}
    (h : Owned s) (hnot : (s.pc t).holds w = false) (hnext : next.holds w = true)
    (hframe : ∀ w', w' ≠ w → next.holds w' = (s.pc t).holds w')
    (hbusy : ∀ w', busy.holds w' = (s.pc t).holds w')
    (htruly : p = .windows → (s.mutex w).owner = none) :
    Owned (trylock p s t w next busy) := by
  have hne : (s.mutex w).owner ≠ some t := by
    intro heq
    rw [h.owner, hnot] at heq
    cases heq
  unfold trylock
  rw [mtxTrylock_eq p _ t hne]
  by_cases hfree : (s.mutex w).owner = none
  · rw [if_pos hfree]
    exact take_owned h hfree hnext hframe
  · have hp : decide (p = .windows) = false := by
      simpa using fun heq => hfree (htruly heq)
    rw [if_neg hfree, hp]
    apply put_owned h (h.depth w)
    · rw [h.owner, hbusy w]
    · intro u _
      exact h.owner w u
    · intro w' _
      exact hbusy w'

/-- Answers that can be relied on keep beliefs and owners together. -/
theorem step_owned {p : Platform} {s s' : State T} {l : Label T} (h : Owned s)
    (htruly : AnswersTruly p s l) (hstep : step p s l = some s') : Owned s' := by
  cases hpc : s.pc l.thread <;> simp only [step, hpc] at hstep
  case idle =>
    cases hstep
    apply goto_owned h
    intro w
    rw [hpc]
    cases l.job <;> rfl
  case lockFirst => exact lock_owned h (by rw [hpc]; rfl) rfl (by rw [hpc]; decide) hstep
  case trySecond =>
    cases hstep
    apply trylock_owned h
    · rw [hpc]
      rfl
    · rfl
    · rw [hpc]
      decide
    · intro w
      rw [hpc]
      rfl
    · intro hp
      exact htruly hp .fifo (by rw [hpc]; rfl)
  case dropFirst => exact unlock_owned h rfl (by rw [hpc]; decide) hstep
  case yield =>
    cases hstep
    apply goto_owned h
    intro w
    rw [hpc]
    rfl
  case lockSecond => exact lock_owned h (by rw [hpc]; rfl) rfl (by rw [hpc]; decide) hstep
  case tryFirst =>
    cases hstep
    apply trylock_owned h
    · rw [hpc]
      rfl
    · rfl
    · rw [hpc]
      decide
    · intro w
      rw [hpc]
      rfl
    · intro hp
      exact htruly hp .pool (by rw [hpc]; rfl)
  case dropSecond => exact unlock_owned h rfl (by rw [hpc]; decide) hstep
  case unlockPool => exact unlock_owned h rfl (by rw [hpc]; decide) hstep
  case unlockFifo => exact unlock_owned h rfl (by rw [hpc]; decide) hstep
  case lockOne w =>
    refine lock_owned h (by rw [hpc]; rfl) (by simp [Pc.holds]) ?_ hstep
    intro w' hw
    rw [hpc]
    simpa [Pc.holds] using hw
  case unlockOne w =>
    refine unlock_owned h rfl ?_ hstep
    intro w' hw
    rw [hpc]
    simpa [Pc.holds] using hw

/-! ## Who can step -/

theorem mtxUnlock_owner {m : Mutex T} {t : T} (howner : m.owner = some t) :
    ∃ m', mtxUnlock m t = some m' := by
  rw [mtxUnlock, if_pos howner]
  exact ⟨_, rfl⟩

theorem unlock_enabled {s : State T} {t : T} {w : Which} {pc : Pc}
    (howner : (s.mutex w).owner = some t) : ∃ s', unlock s t w pc = some s' := by
  obtain ⟨m, hm⟩ := mtxUnlock_owner howner
  exact ⟨_, by rw [unlock, hm]; rfl⟩

/-- What a thread unlocks, it holds. -/
theorem Pc.holds_unlocks {pc : Pc} {w : Which} (h : pc.unlocks = some w) : pc.holds w = true := by
  cases pc <;> cases h <;> simp [Pc.holds]

/-- A thread that holds a mutex is not about to lock one, and does not look at
the job. -/
theorem holder_goes_on {p : Platform} {s : State T} {t : T} {w : Which} (h : Owned s)
    (hholds : (s.pc t).holds w = true) (job : Job) : ∃ s', step p s ⟨t, job⟩ = some s' := by
  have hown : ∀ w', (s.pc t).unlocks = some w' → (s.mutex w').owner = some t :=
    fun w' hw' => (h.owner w' t).mpr (Pc.holds_unlocks hw')
  cases hpc : s.pc t <;> rw [hpc] at hholds hown
  case idle | lockFirst | yield | lockSecond | lockOne => cases hholds
  case trySecond | tryFirst =>
    rw [step]
    simp only [hpc]
    exact ⟨_, rfl⟩
  case dropFirst | dropSecond | unlockPool | unlockFifo | unlockOne =>
    rw [step]
    simp only [hpc]
    exact unlock_enabled (hown _ rfl)

theorem Pc.not_holds_locks {pc : Pc} {w : Which} (h : pc.locks = some w) (w' : Which) :
    pc.holds w' = false := by
  cases pc <;> cases h <;> rfl

/-- What stops a thread is the mutex it is about to lock. -/
theorem step_locks {p : Platform} {s : State T} {t : T} {w : Which}
    (hlocks : (s.pc t).locks = some w) (job : Job) :
    ∃ next, step p s ⟨t, job⟩ = lock p s t w next := by
  cases hpc : s.pc t <;> rw [hpc] at hlocks <;> cases hlocks <;>
    simp only [step, hpc] <;> exact ⟨_, rfl⟩

/-- **A thread can go on**, or it waits for one that can. -/
theorem goes_on {p : Platform} {s : State T} (h : Owned s) (t : T) :
    (∀ job, ∃ s', step p s ⟨t, job⟩ = some s') ∨
      ∃ u, WaitsFor s t u ∧ ∀ job, ∃ s', step p s ⟨u, job⟩ = some s' := by
  have hlock {w : Which} (hlocks : (s.pc t).locks = some w) :
      (∀ job, ∃ s', step p s ⟨t, job⟩ = some s') ∨
        ∃ u, WaitsFor s t u ∧ ∀ job, ∃ s', step p s ⟨u, job⟩ = some s' := by
    cases howner : (s.mutex w).owner with
    | none =>
        left
        intro job
        obtain ⟨next, hstep⟩ := step_locks (p := p) hlocks job
        rw [hstep, lock, mtxLock, howner]
        exact ⟨_, rfl⟩
    | some u =>
        right
        have hholds := (h.owner w u).mp howner
        have hne : u ≠ t := by
          rintro rfl
          rw [Pc.not_holds_locks hlocks] at hholds
          cases hholds
        exact ⟨u, ⟨hne, w, hlocks, howner⟩, holder_goes_on h hholds⟩
  cases hpc : s.pc t
  case idle | yield => exact .inl fun job => ⟨_, by rw [step]; simp only [hpc]; rfl⟩
  case lockFirst | lockSecond | lockOne => exact hlock (by rw [hpc]; rfl)
  case trySecond | dropFirst | unlockPool =>
    exact .inl (holder_goes_on (w := .pool) h (by rw [hpc]; rfl))
  case tryFirst | dropSecond | unlockFifo =>
    exact .inl (holder_goes_on (w := .fifo) h (by rw [hpc]; rfl))
  case unlockOne w => exact .inl (holder_goes_on (w := w) h (by simp [hpc, Pc.holds]))

theorem owned_live {p : Platform} {s : State T} (h : Owned s) (t : T) :
    ∃ l s', step p s l = some s' := by
  rcases goes_on (p := p) h t with ht | ⟨u, _, hu⟩
  · exact ⟨⟨t, .both⟩, ht .both⟩
  · exact ⟨⟨u, .both⟩, hu .both⟩

theorem owned_sound {p : Platform} {s : State T} (h : Owned s) : Sound p s := by
  constructor
  · intro t ht w
    rw [h.owner, ht]
    rfl
  · intro t w hw
    exact (h.owner w t).mpr (Pc.holds_unlocks hw)
  · intro t u w ht hu
    rw [← h.owner] at ht hu
    exact Option.some.inj (ht.symm.trans hu)
  · exact owned_live h

/-! ## The dropped answer -/

theorem Pc.not_holds_tries {pc : Pc} {w : Which} (h : pc.tries = some w) :
    pc.holds w = false := by
  cases pc <;> cases h <;> rfl

/-- After a successful try `mtdp_lock2` returns. -/
theorem step_tries {p : Platform} {s s' : State T} {l : Label T} {w : Which}
    (htries : (s.pc l.thread).tries = some w) (hstep : step p s l = some s') :
    ∃ busy, s' = trylock p s l.thread w .unlockPool busy := by
  unfold step at hstep
  cases hpc : s.pc l.thread <;> rw [hpc] at htries <;> cases htries <;>
    simp only [hpc, Option.some.injEq] at hstep
  case trySecond => exact ⟨_, hstep.symm⟩
  case tryFirst => exact ⟨_, hstep.symm⟩

/-- The thread that has been lied to does not own the mutex it tried. -/
theorem lied_to {s s' : State T} {l : Label T} {w : Which} (h : Owned s)
    (htries : (s.pc l.thread).tries = some w) (hbusy : (s.mutex w).owner ≠ none)
    (hstep : step .windows s l = some s') :
    s'.pc l.thread = .unlockPool ∧ (s'.mutex w).owner ≠ some l.thread := by
  have hne : (s.mutex w).owner ≠ some l.thread := by
    rw [ne_eq, h.owner, Pc.not_holds_tries htries]
    exact Bool.false_ne_true
  obtain ⟨busy, rfl⟩ := step_tries htries hstep
  rw [trylock, mtxTrylock_eq _ _ _ hne, if_neg hbusy]
  constructor
  · simp [State.put]
  · simpa [State.put] using hne

theorem step_sound_iff {p : Platform} {s s' : State T} {l : Label T} (h : Owned s)
    (hstep : step p s l = some s') : Sound p s' ↔ AnswersTruly p s l := by
  constructor
  · intro hsound hp w hw
    subst hp
    by_contra hbusy
    obtain ⟨hpc, hne⟩ := lied_to h hw hbusy hstep
    exact hne (hsound.returned l.thread hpc w)
  · intro htruly
    exact owned_sound (step_owned h htruly hstep)

/-- Both platforms, any number of threads: the mutexes do their work in every
state of a run exactly when none of its `mtx_trylock`s is a Windows one that
finds its mutex taken. -/
theorem lock2_sound_iff (p : Platform) (ls : List (Label T)) (t : State T)
    (hrun : run (step p) start ls = some t) :
    Visits (step p) (Sound p) start ls ↔ Takes (step p) (AnswersTruly p) start ls := by
  have hstep : ∀ (s : State T) l s', Owned s → Sound p s → True → step p s l = some s' →
      (Sound p s' ∧ True ↔ AnswersTruly p s l ∧ True) := by
    intro s l s' h _ _ hnext
    rw [and_true, and_true]
    exact step_sound_iff h hnext
  apply visits_iff_takes (I := Owned) (G := fun _ => True) (R := fun _ _ => True)
  · intro s l s' h _ _ hnext hsound
    exact step_owned h ((step_sound_iff h hnext).mp hsound) hnext
  · exact hstep
  · exact start_owned
  · exact owned_sound start_owned
  · trivial
  · intro _ _
    trivial
  · exact takes_of_mem fun _ _ _ => trivial
  · exact hrun

/-- One thread holds the mutex of the FIFO, another one takes both. -/
def contended : List (Label Bool) :=
  [⟨false, .one .fifo⟩, ⟨false, .both⟩, ⟨true, .both⟩, ⟨true, .both⟩, ⟨true, .both⟩]

theorem lock2_sound_iff_contended :
    (run (step .c11) start contended).isSome ∧
    (Visits (step .c11) (Sound .c11) start contended ↔
      Takes (step .c11) (AnswersTruly .c11) start contended) :=
  ⟨by decide, lock2_sound_iff .c11 contended
    ((run (step .c11) start contended).get (by decide)) (Option.some_get _).symm⟩

/-- On Windows the second thread believes to own a mutex that the first one
still holds. -/
theorem windows_trylock_lies :
    ¬ ∀ (T : Type) (_ : DecidableEq T) (p : Platform) (ls : List (Label T)) (t : State T),
      run (step p) start ls = some t → Visits (step p) (Sound p) start ls := by
  intro hall
  have hrun : run (step .windows) start contended =
      some ((run (step .windows) start contended).get (by decide)) := (Option.some_get _).symm
  have hsound := (hall Bool _ .windows contended _ hrun).of_run hrun
  have hreturned := hsound.returned true (by decide) .fifo
  exact absurd hreturned (by decide)

end Mtdp.Lock2
