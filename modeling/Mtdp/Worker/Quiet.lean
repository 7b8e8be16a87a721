import Mtdp.Worker.Invariant

/-!
# A stopped worker goes quiet

`enabled` is tested under the mutex, `destroyed` once more without it, and the
callback is called outside the lock.  When `mtdp_worker_disable` or
`mtdp_worker_destroy` returns, the worker may have passed its tests already: it
then starts one callback, and has to pass the tests again for another one.

## Main results

* `Moved.starting` — a worker that finds its flags stopped does not come to the
  call of the callback again.
* `stopped_worker_quiet` — after a stop at most one callback starts, before the
  first `mtdp_worker_enable` none.
-/

namespace Mtdp.Worker

open Lock2 Lib.Transition

/-- The call of the callback, as an observer of the worker notes it down. -/
def started (s : State) (l : Label) : List Unit :=
  if l = .worker ∧ s.pc = .invoke then [()] else []

/-- How many callbacks start in a run. -/
def starts (p : Platform) (s : State) (ls : List Label) : Nat :=
  (observe (step p) started s ls).length

/-- The worker has passed the tests that can keep it from the next callback. -/
def State.Starting (s : State) : Prop :=
  s.pc = .invoke ∨ s.destroyed = false ∧ (s.pc = .unlock ∨ s.pc = .recheck)

instance (s : State) : Decidable s.Starting := by
  unfold State.Starting
  infer_instance

/-- The callbacks that a stopped worker may still start. -/
def State.budget (s : State) : Nat := if s.Starting then 1 else 0

theorem State.budget_le_one (s : State) : s.budget ≤ 1 := by
  unfold budget
  split <;> omega

/-- A step that leaves the worker where it is. -/
theorem State.Starting.of_pc {s s' : State} (hstarting : s'.Starting) (hpc : s'.pc = s.pc)
    (hdestroyed : s.destroyed = true → s'.destroyed = true) : s.Starting := by
  unfold State.Starting at *
  rw [hpc] at hstarting
  apply hstarting.imp_right
  rintro ⟨hdown, hat⟩
  refine ⟨?_, hat⟩
  cases hflag : s.destroyed with
  | false => rfl
  | true =>
      rw [hdestroyed hflag] at hdown
      exact hdown

/-- The flags keep the worker from a callback. -/
def State.Stopped (s : State) : Prop := s.enabled = false ∨ s.destroyed = true

theorem Settled.stopped {s : State} {c : Call} (hs : Settled c s) (hc : c ≠ .enable) :
    s.Stopped := by
  have hhas := hs.has
  cases c
  · exact absurd rfl hc
  · exact .inl hhas
  · exact .inr hhas

/-- From the call of the callback the worker goes on to the tests. -/
theorem WorkerMove.starting {s s' : State} (hmove : WorkerMove s s') (hs : s.Stopped)
    (hstarting : s'.Starting) : s.Starting ∧ s.pc ≠ .invoke := by
  cases hmove
  case foundEnabled hpc henabled =>
    rcases hs with hdisabled | hdestroyed
    · simp [henabled] at hdisabled
    · simp [State.Starting, hdestroyed] at hstarting
  case foundDestroyed hpc hdestroyed => simp [State.Starting, hdestroyed] at hstarting
  case unlocked hpc _ => simpa [State.Starting, hpc] using hstarting
  case passed hpc hdestroyed => simp [State.Starting, hpc, hdestroyed]
  case finishing stmt s₁ next hpc hcall => cases hcall <;> simp [State.Starting] at hstarting
  all_goals simp [State.Starting] at hstarting

/-- **One step of a stopped worker.** -/
theorem Moved.starting {s s' : State} {l : Label} (hmoved : Moved s l s') (hs : s.Stopped)
    (hstarting : s'.Starting) : s.Starting ∧ ¬ (l = .worker ∧ s.pc = .invoke) := by
  cases hmoved
  case begins => exact ⟨hstarting.of_pc rfl id, nofun⟩
  case controller c stmt s₁ next hcontroller hcall =>
    refine ⟨?_, nofun⟩
    cases hcall
    case lock | unlock => exact hstarting.of_pc rfl id
    case store =>
      obtain ⟨_, hpc, _⟩ := s.store_frame c
      exact hstarting.of_pc hpc fun h => State.store_destroyed c h
    case signal =>
      obtain ⟨_, _, hdestroyed, _⟩ := s.signal_frame
      rcases s.signal_pc with ⟨hpc, _⟩ | ⟨_, hwoken⟩
      · exact hstarting.of_pc hpc fun h => hdestroyed.trans h
      · simp [State.Starting, hwoken] at hstarting
  case worker hmove =>
    obtain ⟨hbefore, hne⟩ := hmove.starting hs hstarting
    exact ⟨hbefore, fun h => hne h.2⟩
  case wokeUp | finished => simp [State.Starting] at hstarting

/-- A callback that starts uses the budget up. -/
theorem Moved.started_add_budget_le {s s' : State} {l : Label} (hmoved : Moved s l s')
    (hs : s.Stopped) : (started s l).length + s'.budget ≤ s.budget := by
  by_cases hstarting : s'.Starting
  · obtain ⟨hbefore, hnot⟩ := hmoved.starting hs hstarting
    simp [started, State.budget, hstarting, hbefore, hnot]
  · by_cases hstart : l = .worker ∧ s.pc = .invoke
    · have hbefore : s.Starting := .inl hstart.2
      simp [started, State.budget, hstarting, hstart, hbefore]
    · simp [started, State.budget, hstarting, hstart]

/-- **A stopped worker** starts what it has passed the tests for, and nothing else. -/
theorem starts_le_budget {p : Platform} {s t : State} {ls : List Label} {c : Call}
    (hc : c ≠ .enable) (hs : Inv s) (hsettled : Settled c s) (hls : c.Lasts ls)
    (hrun : run (step p) s ls = some t) : starts p s ls ≤ s.budget := by
  have hpaid : starts p s ls + t.budget ≤ s.budget := by
    apply observe_length_le (I := fun s => Inv s ∧ Settled c s) _ ⟨hs, hsettled⟩ hls.takes hrun
    rintro s l s' ⟨hs, hsettled⟩ hl hstep
    have hmoved := step_moved hs.toOwned hstep
    exact ⟨⟨hmoved.inv hs, hmoved.settled hsettled hl⟩,
      hmoved.started_add_budget_le (hsettled.stopped hc)⟩
  omega

/-- **A stopped worker goes quiet.**  No callback starts before the first
`mtdp_worker_enable`; after `mtdp_worker_disable` has returned at most one starts
until the next `mtdp_worker_enable`, and after `mtdp_worker_destroy` has returned at
most one ever. -/
theorem stopped_worker_quiet (p : Platform) (ls : List Label) (s : State)
    (hrun : run (step p) init ls = some s) :
    (.call .enable ∉ ls → starts p init ls = 0) ∧
    ∀ before l after t t', ls = before ++ l :: after → run (step p) init before = some t →
      step p t l = some t' →
        (Returns t l .disable → .call .enable ∉ after → starts p t' after ≤ 1) ∧
        (Returns t l .destroy → starts p t' after ≤ 1) := by
  refine ⟨?_, ?_⟩
  · intro hnone
    have hlasts : Call.disable.Lasts ls := by
      intro c' hundo
      cases hundo
      exact hnone
    have hle := starts_le_budget (c := .disable) nofun init_inv init_settled hlasts hrun
    exact Nat.le_zero.mp hle
  · rintro before l after t t' rfl hbefore hstep
    have hone : ∀ c, c ≠ .enable → Returns t l c → c.Lasts after → starts p t' after ≤ 1 := by
      intro c hc hreturns hlasts
      obtain ⟨t₁, hstep₁, _, ht₁, hsettled, hafter⟩ := hreturns.run_split hbefore hrun
      rw [hstep, Option.some.injEq] at hstep₁
      subst hstep₁
      exact Nat.le_trans (starts_le_budget hc ht₁ hsettled hlasts hafter) t'.budget_le_one
    refine ⟨fun hreturns hnone => hone .disable nofun hreturns ?_,
      fun hreturns => hone .destroy nofun hreturns nofun⟩
    intro c' hundo
    cases hundo
    exact hnone

/-- The worker is enabled and passes its tests; then it is disabled, up to the
signal. -/
def enableThenDisable : List Label :=
  [.call .enable, .controller, .controller, .controller, .controller,
    .worker, .worker, .worker, .worker, .worker,
    .call .disable, .controller, .controller, .controller]

/-- Before `cnd_signal` of `mtdp_worker_disable`. -/
def disabling : State := (run (step .c11) init enableThenDisable).get (by decide)

/-- `mtdp_worker_disable` has returned. -/
def disabled : State := (step .c11 disabling .controller).get (by decide)

/-- The worker still starts the callback, and falls asleep. -/
def goesToSleep : List Label := List.replicate 7 .worker

/-- `mtdp_worker_disable` returns to the controller while the worker is on its way
to the callback. -/
theorem stopped_worker_quiet_once : starts .c11 disabled goesToSleep ≤ 1 := by
  have hbefore : run (step .c11) init enableThenDisable = some disabling :=
    (Option.some_get _).symm
  have hstep : step .c11 disabling .controller = some disabled := (Option.some_get _).symm
  have hafter : (run (step .c11) disabled goesToSleep).isSome := by decide
  obtain ⟨s, hrest⟩ := Option.isSome_iff_exists.mp hafter
  have hrun : run (step .c11) init (enableThenDisable ++ .controller :: goesToSleep) = some s :=
    run_append.mpr ⟨disabling, hbefore, run_cons.mpr ⟨disabled, hstep, hrest⟩⟩
  have hquiet := (stopped_worker_quiet .c11 _ s hrun).2 enableThenDisable .controller
    goesToSleep disabling disabled rfl hbefore hstep
  exact hquiet.1 (.inl ⟨rfl, rfl⟩) (by decide)

end Mtdp.Worker
