import Mtdp.Pipe.Lock

/-!
# The handshake between a worker thread and its controller

`src/worker.c`: `mtdp_worker_routine` and the three functions that a controller
calls, one statement after the other, over the mutexes of `Mtdp.Pipe.Lock`.  The
flags `enabled` and `destroyed` are stored under the mutex and the condition
variable is signalled after it has been given back.  The callback of a source
may call `mtdp_worker_destroy` on its own worker.

Only the worker waits on the condition variable; it may also wake up without a
signal.  Mutex and condition variable calls of `src/thread.h` succeed on a worker
that `mtdp_worker_init` has set up, so that a failed check never returns early.

## Main results

* `step_moved` — what one step can do.
-/

namespace Mtdp.Worker

open Lock2

/-! ## The code -/

/-- The threads that use the mutex. -/
inductive Party where
  | controller
  | worker
  deriving DecidableEq, Repr

/-- `mtdp_worker_enable`, `mtdp_worker_disable` and `mtdp_worker_destroy` -/
inductive Call where
  | enable
  | disable
  | destroy
  deriving DecidableEq, Repr

/-- The statement of such a function that is executed next. -/
inductive Statement where
  /-- `mtx_lock(&worker->mutex)` -/
  | lock
  /-- the assignment to the flag -/
  | store
  /-- `mtx_unlock(&worker->mutex)` -/
  | unlock
  /-- `cnd_signal(&worker->cv)` -/
  | signal
  deriving DecidableEq, Repr

/-- Program points of `mtdp_worker_routine`. -/
inductive Pc where
  /-- `while(!worker->destroyed)` -/
  | loop
  /-- `mtx_lock(&worker->mutex)` -/
  | lock
  /-- `worker->enabled` in the condition of the inner loop -/
  | testEnabled
  /-- `worker->destroyed` in the same condition -/
  | testDestroyed
  /-- the call of `cnd_wait` -/
  | wait
  /-- inside `cnd_wait`, no signal yet -/
  | asleep
  /-- woken up inside `cnd_wait`, without the mutex yet -/
  | woken
  /-- `mtx_unlock(&worker->mutex)` -/
  | unlock
  /-- `if(worker->destroyed)` -/
  | recheck
  /-- the call `worker->cb(worker->args)` -/
  | invoke
  /-- inside the callback -/
  | callback
  /-- inside `mtdp_worker_destroy`, called by the callback -/
  | finishing (stmt : Statement)
  | exited
  deriving DecidableEq, Repr

/-- Where the controller is. -/
inductive Controller where
  | idle
  | inside (call : Call) (stmt : Statement)
  deriving DecidableEq, Repr

/-- `mtdp_worker`, its thread and its controller. -/
structure State where
  enabled : Bool
  destroyed : Bool
  mutex : Mutex Party
  pc : Pc
  controller : Controller

namespace State

@[simp] def goto (s : State) (pc : Pc) : State := { s with pc }

@[simp] def setController (s : State) (controller : Controller) : State := { s with controller }

/-- The mutex belongs to somebody. -/
@[simp] def take (s : State) (who : Party) : State := { s with mutex := ⟨some who, 1⟩ }

/-- The mutex belongs to nobody. -/
@[simp] def release (s : State) : State := { s with mutex := ⟨none, 0⟩ }

/-- The assignment in a call. -/
def store (s : State) : Call → State
  | .enable => { s with enabled := true }
  | .disable => { s with enabled := false }
  | .destroy => { s with destroyed := true }

/-- `cnd_signal` -/
def signal (s : State) : State := if s.pc = .asleep then s.goto .woken else s

end State

/-- A statement of a call, and the one that follows; `none` for the return. -/
def callStep (p : Platform) (s : State) (who : Party) (c : Call) :
    Statement → Option (State × Option Statement)
  | .lock => (mtxLock p s.mutex who).map fun mutex => ({ s with mutex }, some .store)
  | .store => some (s.store c, some .unlock)
  | .unlock => (mtxUnlock s.mutex who).map fun mutex => ({ s with mutex }, some .signal)
  | .signal => some (s.signal, none)

/-- The controller executes a statement of its call. -/
def controllerStep (p : Platform) (s : State) : Option State :=
  match s.controller with
  | .idle => none
  | .inside c stmt =>
      (callStep p s .controller c stmt).map fun (s, next) =>
        s.setController (next.elim .idle (.inside c))

/-- `mtdp_worker_routine` -/
def workerStep (p : Platform) (s : State) : Option State :=
  match s.pc with
  | .loop => some (s.goto (if s.destroyed then .exited else .lock))
  | .lock => (mtxLock p s.mutex .worker).map fun mutex => { s with mutex, pc := .testEnabled }
  | .testEnabled => some (s.goto (if s.enabled then .unlock else .testDestroyed))
  | .testDestroyed => some (s.goto (if s.destroyed then .unlock else .wait))
  | .wait => (mtxUnlock s.mutex .worker).map fun mutex => { s with mutex, pc := .asleep }
  | .asleep => none
  | .woken => (mtxLock p s.mutex .worker).map fun mutex => { s with mutex, pc := .testEnabled }
  | .unlock => (mtxUnlock s.mutex .worker).map fun mutex => { s with mutex, pc := .recheck }
  | .recheck => some (s.goto (if s.destroyed then .exited else .invoke))
  | .invoke => some (s.goto .callback)
  | .callback => some (s.goto .loop)
  | .finishing stmt =>
      (callStep p s .worker .destroy stmt).map fun (s, next) =>
        s.goto (next.elim .callback .finishing)
  | .exited => none

/-- Who moves. -/
inductive Label where
  /-- the controller begins a call -/
  | call (c : Call)
  /-- the call of the controller goes on -/
  | controller
  /-- the thread of the worker goes on; a callback returns -/
  | worker
  /-- `cnd_wait` wakes up without a signal -/
  | wakeUp
  /-- the callback calls `mtdp_worker_destroy` -/
  | finished
  deriving DecidableEq, Repr

/-- One step of the system. -/
def step (p : Platform) (s : State) : Label → Option State
  | .call c => if s.controller = .idle then some (s.setController (.inside c .lock)) else none
  | .controller => controllerStep p s
  | .worker => workerStep p s
  | .wakeUp => if s.pc = .asleep then some (s.goto .woken) else none
  | .finished => if s.pc = .callback then some (s.goto (.finishing .lock)) else none

/-- `mtdp_worker_init`, and the thread of `mtdp_worker_create_thread` before its
first step. -/
def init : State where
  enabled := false
  destroyed := false
  mutex := ⟨none, 0⟩
  pc := .loop
  controller := .idle

/-! ## Who owns the mutex -/

/-- Between `mtx_lock` and `mtx_unlock`. -/
def Statement.holds : Statement → Bool
  | .store => true
  | .unlock => true
  | _ => false

def Pc.holds : Pc → Bool
  | .testEnabled => true
  | .testDestroyed => true
  | .wait => true
  | .unlock => true
  | .finishing stmt => stmt.holds
  | _ => false

def Controller.holds : Controller → Bool
  | .idle => false
  | .inside _ stmt => stmt.holds

def State.holds (s : State) : Party → Bool
  | .controller => s.controller.holds
  | .worker => s.pc.holds

/-- The mutex is owned by who has locked it, and once. -/
structure Owned (s : State) : Prop where
  owner : ∀ who, s.mutex.owner = some who ↔ s.holds who = true
  depth : s.mutex.depth ≤ 1

theorem init_owned : Owned init := by
  constructor
  · intro who
    cases who <;> simp [init, State.holds, Pc.holds, Controller.holds]
  · exact Nat.zero_le 1

/-- Who does not own the mutex gets it only when it is free. -/
theorem Owned.lock {p : Platform} {s : State} {who : Party} {mutex : Mutex Party} (hs : Owned s)
    (hnot : s.holds who = false) (hlock : mtxLock p s.mutex who = some mutex) :
    s.mutex.owner = none ∧ mutex = ⟨some who, 1⟩ := by
  apply mtxLock_free _ hlock
  rw [ne_eq, hs.owner, hnot]
  exact Bool.false_ne_true

/-- Who gives the mutex back has it. -/
theorem Owned.unlock {s : State} {who : Party} {mutex : Mutex Party} (hs : Owned s)
    (hunlock : mtxUnlock s.mutex who = some mutex) :
    s.mutex.owner = some who ∧ mutex = ⟨none, 0⟩ := by
  unfold mtxUnlock at hunlock
  split at hunlock
  · next howner =>
      rw [if_pos hs.depth, Option.some.injEq] at hunlock
      exact ⟨howner, hunlock.symm⟩
  · cases hunlock

/-! ## What a step can do -/

/-- A statement of call `c`, executed by `who`. -/
inductive CallMove (s : State) (who : Party) (c : Call) :
    Statement → State → Option Statement → Prop
  | lock : s.mutex.owner = none → CallMove s who c .lock (s.take who) (some .store)
  | store : CallMove s who c .store (s.store c) (some .unlock)
  | unlock : s.mutex.owner = some who → CallMove s who c .unlock s.release (some .signal)
  | signal : CallMove s who c .signal s.signal none

/-- A step of the worker. -/
inductive WorkerMove (s : State) : State → Prop
  | leave : s.pc = .loop → s.destroyed = true → WorkerMove s (s.goto .exited)
  | again : s.pc = .loop → s.destroyed = false → WorkerMove s (s.goto .lock)
  | locked : s.pc = .lock ∨ s.pc = .woken → s.mutex.owner = none →
      WorkerMove s ((s.take .worker).goto .testEnabled)
  | foundEnabled : s.pc = .testEnabled → s.enabled = true → WorkerMove s (s.goto .unlock)
  | notEnabled : s.pc = .testEnabled → s.enabled = false → WorkerMove s (s.goto .testDestroyed)
  | foundDestroyed : s.pc = .testDestroyed → s.destroyed = true → WorkerMove s (s.goto .unlock)
  | notDestroyed : s.pc = .testDestroyed → s.destroyed = false → WorkerMove s (s.goto .wait)
  | slept : s.pc = .wait → s.mutex.owner = some .worker → WorkerMove s (s.release.goto .asleep)
  | unlocked : s.pc = .unlock → s.mutex.owner = some .worker →
      WorkerMove s (s.release.goto .recheck)
  | broke : s.pc = .recheck → s.destroyed = true → WorkerMove s (s.goto .exited)
  | passed : s.pc = .recheck → s.destroyed = false → WorkerMove s (s.goto .invoke)
  | invoked : s.pc = .invoke → WorkerMove s (s.goto .callback)
  | returned : s.pc = .callback → WorkerMove s (s.goto .loop)
  | finishing {stmt : Statement} {s' : State} {next : Option Statement} :
      s.pc = .finishing stmt → CallMove s .worker .destroy stmt s' next →
      WorkerMove s (s'.goto (next.elim .callback .finishing))

/-- A step of the system. -/
inductive Moved (s : State) : Label → State → Prop
  | begins {c : Call} : s.controller = .idle →
      Moved s (.call c) (s.setController (.inside c .lock))
  | controller {c : Call} {stmt : Statement} {s' : State} {next : Option Statement} :
      s.controller = .inside c stmt → CallMove s .controller c stmt s' next →
      Moved s .controller (s'.setController (next.elim .idle (.inside c)))
  | worker {s' : State} : WorkerMove s s' → Moved s .worker s'
  | wokeUp : s.pc = .asleep → Moved s .wakeUp (s.goto .woken)
  | finished : s.pc = .callback → Moved s .finished (s.goto (.finishing .lock))

theorem callStep_moved {p : Platform} {s s' : State} {who : Party} {c : Call} {stmt : Statement}
    {next : Option Statement} (hs : Owned s) (hholds : s.holds who = stmt.holds)
    (hstep : callStep p s who c stmt = some (s', next)) : CallMove s who c stmt s' next := by
  cases stmt with
  | lock =>
      obtain ⟨mutex, hlock, hdone⟩ := Option.map_eq_some_iff.mp hstep
      obtain ⟨hfree, rfl⟩ := hs.lock hholds hlock
      cases hdone
      exact .lock hfree
  | store =>
      cases hstep
      exact .store
  | unlock =>
      obtain ⟨mutex, hunlock, hdone⟩ := Option.map_eq_some_iff.mp hstep
      obtain ⟨howner, rfl⟩ := hs.unlock hunlock
      cases hdone
      exact .unlock howner
  | signal =>
      cases hstep
      exact .signal

theorem workerStep_moved {p : Platform} {s s' : State} (hs : Owned s)
    (hstep : workerStep p s = some s') : WorkerMove s s' := by
  have hlocked : ∀ {pc : Pc}, s.pc = pc → pc = .lock ∨ pc = .woken →
      (mtxLock p s.mutex .worker).map (fun mutex => { s with mutex, pc := .testEnabled }) =
        some s' → WorkerMove s s' := by
    intro pc hpc hor hmap
    obtain ⟨mutex, hlock, rfl⟩ := Option.map_eq_some_iff.mp hmap
    have hnot : s.holds .worker = false := by
      rcases hor with rfl | rfl <;> simp [State.holds, hpc, Pc.holds]
    obtain ⟨hfree, rfl⟩ := hs.lock hnot hlock
    exact .locked (hpc ▸ hor) hfree
  cases hpc : s.pc <;> simp only [workerStep, hpc] at hstep
  case loop =>
    cases hstep
    cases hflag : s.destroyed with
    | true => exact .leave hpc hflag
    | false => exact .again hpc hflag
  case lock => exact hlocked hpc (.inl rfl) hstep
  case testEnabled =>
    cases hstep
    cases hflag : s.enabled with
    | true => exact .foundEnabled hpc hflag
    | false => exact .notEnabled hpc hflag
  case testDestroyed =>
    cases hstep
    cases hflag : s.destroyed with
    | true => exact .foundDestroyed hpc hflag
    | false => exact .notDestroyed hpc hflag
  case wait =>
    obtain ⟨mutex, hunlock, rfl⟩ := Option.map_eq_some_iff.mp hstep
    obtain ⟨howner, rfl⟩ := hs.unlock hunlock
    exact .slept hpc howner
  case asleep => cases hstep
  case woken => exact hlocked hpc (.inr rfl) hstep
  case unlock =>
    obtain ⟨mutex, hunlock, rfl⟩ := Option.map_eq_some_iff.mp hstep
    obtain ⟨howner, rfl⟩ := hs.unlock hunlock
    exact .unlocked hpc howner
  case recheck =>
    cases hstep
    cases hflag : s.destroyed with
    | true => exact .broke hpc hflag
    | false => exact .passed hpc hflag
  case invoke =>
    cases hstep
    exact .invoked hpc
  case callback =>
    cases hstep
    exact .returned hpc
  case finishing stmt =>
    obtain ⟨⟨s₁, next⟩, hcall, rfl⟩ := Option.map_eq_some_iff.mp hstep
    exact .finishing hpc (callStep_moved hs (by simp [State.holds, hpc, Pc.holds]) hcall)
  case exited => cases hstep

/-- **One step.** -/
theorem step_moved {p : Platform} {s s' : State} {l : Label} (hs : Owned s)
    (hstep : step p s l = some s') : Moved s l s' := by
  cases l with
  | call c =>
      obtain ⟨hidle, hdone⟩ := Option.ite_none_right_eq_some.mp hstep
      cases hdone
      exact .begins hidle
  | controller =>
      simp only [step, controllerStep] at hstep
      split at hstep
      · cases hstep
      · next c stmt hcontroller =>
          obtain ⟨⟨s₁, next⟩, hcall, rfl⟩ := Option.map_eq_some_iff.mp hstep
          have hholds : s.holds .controller = stmt.holds := by
            simp [State.holds, hcontroller, Controller.holds]
          exact .controller hcontroller (callStep_moved hs hholds hcall)
  | worker => exact .worker (workerStep_moved hs hstep)
  | wakeUp =>
      obtain ⟨hpc, hdone⟩ := Option.ite_none_right_eq_some.mp hstep
      cases hdone
      exact .wokeUp hpc
  | finished =>
      obtain ⟨hpc, hdone⟩ := Option.ite_none_right_eq_some.mp hstep
      cases hdone
      exact .finished hpc

end Mtdp.Worker
