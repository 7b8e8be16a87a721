import Mtdp.Worker.Wakeup

/-!
# The worker as a gate

What the mutex and the condition variable are for: seen from outside, a thread
waits at a gate that is open as long as a flag is set, and the flags are stored
at once.  Every run of the handshake is seen as a run of the gate, and a thread
that waits at an open gate gets through.

## Main results

* `handshake_refines_gate` — a run of the handshake, seen from outside.
* `open_gate_passed` — the thread alone passes an open gate.
-/

namespace Mtdp.Worker

open Lock2 Lib.Transition

/-! ## The gate -/

/-- Where a thread is, seen from outside. -/
inductive Phase where
  /-- before the test of `destroyed` -/
  | test
  /-- before the gate -/
  | gate
  /-- behind the gate, before the second test of `destroyed` -/
  | recheck
  /-- the callback -/
  | running
  | exited
  deriving DecidableEq, Repr

/-- The flags and the thread. -/
structure Gate where
  enabled : Bool
  destroyed : Bool
  phase : Phase
  deriving DecidableEq, Repr

/-- What happens at the gate. -/
inductive GateEvent where
  | store (c : Call)
  | thread
  deriving DecidableEq, Repr

namespace Gate

def store (g : Gate) : Call → Gate
  | .enable => { g with enabled := true }
  | .disable => { g with enabled := false }
  | .destroy => { g with destroyed := true }

/-- A thread gets through the gate while a flag is set. -/
def step (g : Gate) : GateEvent → Option Gate
  | .store c => some (g.store c)
  | .thread =>
      match g.phase with
      | .test => some { g with phase := if g.destroyed then .exited else .gate }
      | .gate => if g.enabled || g.destroyed then some { g with phase := .recheck } else none
      | .recheck => some { g with phase := if g.destroyed then .exited else .running }
      | .running => some { g with phase := .test }
      | .exited => none

end Gate

/-! ## The handshake, seen from outside -/

/-- A thread that has found a flag set has passed the gate, with the mutex still
to be given back. -/
def Pc.phase : Pc → Phase
  | .loop => .test
  | .lock | .testEnabled | .testDestroyed | .wait | .asleep | .woken => .gate
  | .unlock | .recheck => .recheck
  | .invoke | .callback | .finishing _ => .running
  | .exited => .exited

def State.gate (s : State) : Gate := ⟨s.enabled, s.destroyed, s.pc.phase⟩

/-- What an observer of the gate sees of a step. -/
def gateEvents (s : State) : Label → List GateEvent
  | .controller =>
      match s.controller with
      | .inside c .store => [.store c]
      | _ => []
  | .worker =>
      match s.pc with
      | .loop => [.thread]
      | .testEnabled => if s.enabled then [.thread] else []
      | .testDestroyed => if s.destroyed then [.thread] else []
      | .recheck => [.thread]
      | .callback => [.thread]
      | .finishing .store => [.store .destroy]
      | _ => []
  | _ => []

theorem State.store_gate (s : State) (c : Call) : (s.store c).gate = s.gate.store c := by
  cases c <;> rfl

/-- A signal is not seen. -/
theorem State.signal_gate (s : State) : s.signal.gate = s.gate := by
  unfold signal
  split
  · next hpc => simp [gate, hpc, Pc.phase]
  · rfl

theorem CallMove.gate {s s' : State} {who : Party} {c : Call} {stmt : Statement}
    {next : Option Statement} (hcall : CallMove s who c stmt s' next) :
    s'.gate = if stmt = .store then s.gate.store c else s.gate := by
  cases hcall
  case lock | unlock => rfl
  case store => exact s.store_gate c
  case signal => exact s.signal_gate

theorem WorkerMove.gate {s s' : State} (hmove : WorkerMove s s') :
    run Gate.step s.gate (gateEvents s .worker) = some s'.gate := by
  cases hmove
  case locked hpc _ =>
    rcases hpc with hpc | hpc <;> simp [run, gateEvents, State.gate, Pc.phase, hpc]
  case finishing stmt s₁ next hpc hcall =>
    cases hcall
    case signal =>
      obtain ⟨_, henabled, hdestroyed, _⟩ := s.signal_frame
      simp [run, gateEvents, State.gate, Pc.phase, hpc, henabled, hdestroyed]
    all_goals
      simp [run, gateEvents, Gate.step, Gate.store, State.store, State.gate, Pc.phase, hpc]
  all_goals simp [run, gateEvents, Gate.step, State.gate, Pc.phase, *]

/-- **One step, seen from outside.** -/
theorem Moved.gate {s s' : State} {l : Label} (hmoved : Moved s l s') :
    run Gate.step s.gate (gateEvents s l) = some s'.gate := by
  cases hmoved
  case begins => rfl
  case controller c stmt s₁ next hcontroller hcall =>
    have hgate : run Gate.step s.gate (gateEvents s .controller) = some s₁.gate := by
      rw [hcall.gate]
      cases stmt <;> simp [run, gateEvents, hcontroller, Gate.step]
    exact hgate
  case worker hmove => exact hmove.gate
  case wokeUp hpc | finished hpc => simp [run, gateEvents, State.gate, hpc, Pc.phase]

/-- **Refinement.**  A run of the handshake is seen as a run of the gate. -/
theorem handshake_refines_gate {p : Platform} {s : State} {ls : List Label}
    (hrun : run (step p) init ls = some s) :
    run Gate.step ⟨false, false, .test⟩ (observe (step p) gateEvents init ls) = some s.gate := by
  apply run_simulates (I := Inv) (f := State.gate) _ init_inv hrun
  intro s l s' hs hstep
  exact ⟨step_inv hs hstep, (step_moved hs.toOwned hstep).gate⟩

theorem handshake_refines_gate_enable :
    run Gate.step ⟨false, false, .test⟩ (observe (step .c11) gateEvents init sleepThenEnable) =
      some ((run (step .c11) init sleepThenEnable).get (by decide)).gate :=
  handshake_refines_gate (Option.some_get _).symm

/-! ## The gate opens -/

/-- While the controller is in no call, a mutex that the worker has not locked is
free. -/
theorem Owned.free {s : State} (hs : Owned s) (hidle : s.controller = .idle)
    (hpc : s.pc.holds = false) : s.mutex.owner = none := by
  cases howner : s.mutex.owner with
  | none => rfl
  | some who =>
      have hholds := (hs.owner who).mp howner
      cases who with
      | controller => simp [State.holds, hidle, Controller.holds] at hholds
      | worker => simp [State.holds, hpc] at hholds

/-- The tests under the mutex find the flag. -/
theorem tests_pass {p : Platform} {s : State} (hpc : s.pc = .testEnabled)
    (hset : s.enabled = true ∨ s.destroyed = true) :
    ∃ n ≤ 2, ∃ t, run (step p) s (List.replicate n .worker) = some t ∧
      t.gate = { s.gate with phase := .recheck } := by
  cases henabled : s.enabled with
  | true => exact ⟨1, by omega, s.goto .unlock, by simp [run, step, workerStep, hpc, henabled], rfl⟩
  | false =>
      have hdestroyed : s.destroyed = true := hset.resolve_left (by simp [henabled])
      refine ⟨2, by omega, s.goto .unlock, ?_, rfl⟩
      simp [List.replicate, run, step, workerStep, hpc, henabled, hdestroyed]

/-- A thread at the gate finds a flag that is set, or has been woken up for it. -/
theorem gate_opens {p : Platform} {s : State} (hs : Inv s) (hidle : s.controller = .idle)
    (hgate : s.pc.phase = .gate) (hset : s.enabled = true ∨ s.destroyed = true) :
    ∃ n ≤ 3, ∃ t, run (step p) s (List.replicate n .worker) = some t ∧
      t.gate = { s.gate with phase := .recheck } := by
  have hlocks : s.pc = .lock ∨ s.pc = .woken → ∃ n ≤ 3, ∃ t,
      run (step p) s (List.replicate n .worker) = some t ∧
      t.gate = { s.gate with phase := .recheck } := by
    intro hpc
    have hfree : s.mutex.owner = none := by
      apply hs.free hidle
      rcases hpc with hpc | hpc <;> rw [hpc] <;> rfl
    have hlock : step p s .worker = some ((s.take .worker).goto .testEnabled) := by
      rcases hpc with hpc | hpc <;> simp [step, workerStep, hpc, mtxLock, hfree]
    obtain ⟨n, hn, t, hrun, ht⟩ := tests_pass (p := p) (s := (s.take .worker).goto .testEnabled)
      rfl hset
    exact ⟨n + 1, by omega, t, run_cons.mpr ⟨_, hlock, hrun⟩, ht⟩
  have hclosed : ¬ (s.enabled = false ∧ s.destroyed = false) := by
    rintro ⟨henabled, hdestroyed⟩
    simp [henabled, hdestroyed] at hset
  cases hpc : s.pc with
  | lock => exact hlocks (.inl hpc)
  | woken => exact hlocks (.inr hpc)
  | testEnabled =>
      obtain ⟨n, hn, t, hrun, ht⟩ := tests_pass (p := p) hpc hset
      exact ⟨n, by omega, t, hrun, ht⟩
  | testDestroyed =>
      have hdestroyed : s.destroyed = true := by simpa [hs.tested hpc] using hset
      refine ⟨1, by omega, s.goto .unlock, ?_, rfl⟩
      simp [run, step, workerStep, hpc, hdestroyed]
  | wait => exact absurd (hs.waiting hpc) hclosed
  | asleep =>
      -- no call owes a signal to a thread that sleeps
      obtain ⟨c, stmt, hinside, _⟩ := (hs.asleep hpc).resolve_left hclosed
      simp [hidle] at hinside
  | loop | unlock | recheck | invoke | callback | finishing | exited =>
      rw [hpc] at hgate
      cases hgate

/-- **The gate opens.**  In every run: when a flag is set and the call that has set
it has returned, a thread at the gate gets through without another signal. -/
theorem open_gate_passed {p : Platform} {s : State} {ls : List Label}
    (hrun : run (step p) init ls = some s) (hidle : s.controller = .idle)
    (hgate : s.gate.phase = .gate) (hset : s.enabled = true ∨ s.destroyed = true) :
    ∃ n ≤ 3, ∃ t, run (step p) s (List.replicate n .worker) = some t ∧
      t.gate = { s.gate with phase := .recheck } :=
  gate_opens (reachable_inv hrun) hidle hgate hset

/-- The worker has been woken up. -/
theorem open_gate_passed_enable :
    let s := (run (step .windows) init (sleepThenEnable ++ [.controller])).get (by decide)
    ∃ n ≤ 3, ∃ t, run (step .windows) s (List.replicate n .worker) = some t ∧
      t.gate = { s.gate with phase := .recheck } :=
  open_gate_passed (Option.some_get _).symm (by decide) (by decide) (by decide)

end Mtdp.Worker
