import Mtdp.Worker.Invariant

/-!
# No wake-up is lost

A worker that sleeps in `cnd_wait` has read both flags as `false` under the mutex,
and a flag that has been set since belongs to a call that still owes its signal.
When the call returns the signal has been sent, and from then on the worker does
not fall asleep as long as the flag stays.

## Main results

* `Moved.awake` — a worker that finds a flag set does not fall asleep.
* `no_wakeup_lost` — the worker sleeps only while nothing is asked of it.
-/

namespace Mtdp.Worker

open Lock2 Lib.Transition

theorem State.signal_awake (s : State) : s.signal.pc ≠ .asleep := by
  rcases s.signal_pc with ⟨hpc, hne⟩ | ⟨_, hwoken⟩
  · rw [hpc]
    exact hne
  · rw [hwoken]
    nofun

/-- A worker that falls asleep has found both flags `false`. -/
theorem WorkerMove.awake {s s' : State} (hmove : WorkerMove s s') (hs : Inv s)
    (hset : s.enabled = true ∨ s.destroyed = true) : s'.pc ≠ .asleep := by
  cases hmove
  case slept hpc _ =>
    obtain ⟨henabled, hdestroyed⟩ := hs.waiting hpc
    simp [henabled, hdestroyed] at hset
  case finishing stmt s₁ next hpc hcall => cases hcall <;> nofun
  all_goals nofun

/-- **A worker that is awake stays awake** while a flag is set. -/
theorem Moved.awake {s s' : State} {l : Label} (hmoved : Moved s l s') (hs : Inv s)
    (hset : s.enabled = true ∨ s.destroyed = true) (hawake : s.pc ≠ .asleep) :
    s'.pc ≠ .asleep := by
  cases hmoved
  case begins => exact hawake
  case controller c stmt s₁ next hcontroller hcall =>
    cases hcall
    case lock | unlock => exact hawake
    case store =>
      obtain ⟨_, hpc, _⟩ := s.store_frame c
      exact fun hpc' => hawake (hpc.symm.trans hpc')
    case signal => exact s.signal_awake
  case worker hmove => exact hmove.awake hs hset
  case wokeUp | finished => nofun

/-- After the signal of a call the worker is awake. -/
theorem Returns.awake {s s' : State} {l : Label} {c : Call} (hreturns : Returns s l c)
    (hmoved : Moved s l s') : s'.pc ≠ .asleep := by
  rcases hreturns.step_cases hmoved with ⟨_, rfl⟩ | ⟨_, _, rfl⟩
  · exact s.signal_awake
  · nofun

/-- Calls that ask the worker to run or to leave. -/
theorem Settled.set {s : State} {c : Call} (hs : Settled c s) (hc : c ≠ .disable) :
    s.enabled = true ∨ s.destroyed = true := by
  have hhas := hs.has
  cases c
  · exact .inl hhas
  · exact absurd rfl hc
  · exact .inr hhas

/-- As long as no call undoes `c`. -/
theorem run_awake {p : Platform} {s t : State} {ls : List Label} {c : Call} (hc : c ≠ .disable)
    (hs : Inv s) (hsettled : Settled c s) (hawake : s.pc ≠ .asleep) (hls : c.Lasts ls)
    (hrun : run (step p) s ls = some t) : t.pc ≠ .asleep := by
  have hend : Inv t ∧ Settled c t ∧ t.pc ≠ .asleep := by
    apply run_invariant_of_takes _ ⟨hs, hsettled, hawake⟩ hls.takes hrun
    rintro s l s' ⟨hs, hsettled, hawake⟩ hl hstep
    have hmoved := step_moved hs.toOwned hstep
    exact ⟨hmoved.inv hs, hmoved.settled hsettled hl, hmoved.awake hs (hsettled.set hc) hawake⟩
  exact hend.2.2

/-- **No wake-up is lost.**  A worker asleep without a signal has nothing to do, or
the call that has set a flag still owes its signal; once `mtdp_worker_enable` has
returned, and until `mtdp_worker_disable` is called, and once `mtdp_worker_destroy`
has returned, it is not asleep. -/
theorem no_wakeup_lost (p : Platform) (ls : List Label) (s : State)
    (hrun : run (step p) init ls = some s) :
    (s.pc = .asleep → (s.enabled = false ∧ s.destroyed = false) ∨ s.SignalOwed) ∧
    ∀ before l after t c, ls = before ++ l :: after → run (step p) init before = some t →
      Returns t l c → (c = .enable ∧ .call .disable ∉ after ∨ c = .destroy) →
        s.pc ≠ .asleep := by
  refine ⟨(reachable_inv hrun).asleep, ?_⟩
  rintro before l after t c rfl hbefore hreturns hc
  obtain ⟨t', _, hmoved, ht', hsettled, hafter⟩ := hreturns.run_split hbefore hrun
  have hlasts : c.Lasts after := by
    intro c' hundo
    rcases hc with ⟨rfl, hnone⟩ | rfl
    · cases hundo
      exact hnone
    · cases hundo
  have hne : c ≠ .disable := by
    rcases hc with ⟨rfl, _⟩ | rfl <;> nofun
  exact run_awake hne ht' hsettled (hreturns.awake hmoved) hlasts hafter

/-- The worker falls asleep; the controller enables it, up to the signal. -/
def sleepThenEnable : List Label :=
  [.worker, .worker, .worker, .worker, .worker, .call .enable, .controller, .controller,
    .controller]

/-- The flag is set, the worker asleep, the signal still owed; then it is sent. -/
theorem no_wakeup_lost_enable :
    ((run (step .c11) init sleepThenEnable).get (by decide)).SignalOwed ∧
    ((run (step .c11) init (sleepThenEnable ++ [.controller])).get (by decide)).pc ≠ .asleep := by
  constructor
  · have howed := (no_wakeup_lost .c11 sleepThenEnable
      ((run (step .c11) init sleepThenEnable).get (by decide)) (Option.some_get _).symm).1
    exact (howed (by decide)).resolve_left (by decide)
  · have hawake := (no_wakeup_lost .c11 (sleepThenEnable ++ [.controller])
      ((run (step .c11) init (sleepThenEnable ++ [.controller])).get (by decide))
      (Option.some_get _).symm).2
    exact hawake sleepThenEnable .controller []
      ((run (step .c11) init sleepThenEnable).get (by decide)) .enable rfl
      (Option.some_get _).symm (.inl ⟨rfl, rfl⟩) (.inl ⟨rfl, List.not_mem_nil⟩)

end Mtdp.Worker
