import Mtdp.Worker.Handshake

/-!
# What holds in every state of the handshake

The mutex is owned by the thread that has locked it.  What the worker has read
under the mutex therefore still holds while it owns the mutex, also when it falls
asleep; and a flag that is set while it sleeps has been set by a call that still
owes its signal.

## Main results

* `Moved.owned`, `Moved.inv` — what every step preserves.
* `Moved.settled` — what a call has stored stays until a call that undoes it.
-/

namespace Mtdp.Worker

open Lock2 Lib.Transition

/-! ## The invariant -/

/-- The flag has been stored and the signal has not been sent. -/
def Statement.stored : Statement → Bool
  | .unlock => true
  | .signal => true
  | _ => false

namespace State

/-- The flag says what call `c` has stored. -/
def Has (s : State) : Call → Prop
  | .enable => s.enabled = true
  | .disable => s.enabled = false
  | .destroy => s.destroyed = true

/-- A call has set a flag and has not yet executed its `cnd_signal`. -/
def SignalOwed (s : State) : Prop :=
  ∃ c stmt, s.controller = .inside c stmt ∧ stmt.stored = true ∧ c ≠ .disable

end State

/-- What holds in every state. -/
structure Inv (s : State) : Prop extends Owned s where
  /-- a call of the controller finds its own value until it returns -/
  stored : ∀ c stmt, s.controller = .inside c stmt → stmt.stored = true → s.Has c
  finishing : ∀ stmt, s.pc = .finishing stmt → stmt.stored = true → s.destroyed = true
  tested : s.pc = .testDestroyed → s.enabled = false
  waiting : s.pc = .wait → s.enabled = false ∧ s.destroyed = false
  asleep : s.pc = .asleep → (s.enabled = false ∧ s.destroyed = false) ∨ s.SignalOwed

theorem init_inv : Inv init := by
  refine ⟨init_owned, ?_, ?_, ?_, ?_, ?_⟩ <;> simp [init]

/-- The mutex has one owner. -/
theorem Owned.not_both {s : State} (hs : Owned s) (hcontroller : s.controller.holds = true) :
    s.pc.holds = false := by
  have howner := (hs.owner .controller).mpr hcontroller
  have hworker := hs.owner .worker
  simpa [howner, State.holds] using hworker

/-- Who may have taken the mutex or given it back is `who`. -/
theorem Owned.of_changed {s s' : State} {who : Party} (hs : Owned s)
    (hbefore : s.mutex.owner = none ∨ s.mutex.owner = some who)
    (hafter : s'.mutex.owner = none ∨ s'.mutex.owner = some who) (hdepth : s'.mutex.depth ≤ 1)
    (hself : s'.mutex.owner = some who ↔ s'.holds who = true)
    (hother : ∀ u, u ≠ who → s'.holds u = s.holds u) : Owned s' := by
  have hnot : ∀ {owner : Option Party} {u : Party}, u ≠ who → owner = none ∨ owner = some who →
      owner ≠ some u := by
    rintro owner u hne (rfl | rfl) heq
    · cases heq
    · exact hne (Option.some.inj heq).symm
  refine ⟨?_, hdepth⟩
  intro u
  by_cases hu : u = who
  · rw [hu]
    exact hself
  · rw [hother u hu, ← hs.owner u]
    exact iff_of_false (hnot hu hafter) (hnot hu hbefore)

theorem Owned.of_take {s s' : State} {who : Party} (hs : Owned s)
    (hfree : s.mutex.owner = none) (hmutex : s'.mutex = ⟨some who, 1⟩)
    (hself : s'.holds who = true) (hother : ∀ u, u ≠ who → s'.holds u = s.holds u) :
    Owned s' := by
  apply hs.of_changed (.inl hfree) _ _ _ hother
  · simp [hmutex]
  · simp [hmutex]
  · simp [hmutex, hself]

theorem Owned.of_release {s s' : State} {who : Party} (hs : Owned s)
    (howner : s.mutex.owner = some who) (hmutex : s'.mutex = ⟨none, 0⟩)
    (hself : s'.holds who = false) (hother : ∀ u, u ≠ who → s'.holds u = s.holds u) :
    Owned s' := by
  apply hs.of_changed (.inr howner) _ _ _ hother
  · simp [hmutex]
  · simp [hmutex]
  · simp [hmutex, hself]

theorem State.store_frame (s : State) (c : Call) :
    (s.store c).mutex = s.mutex ∧ (s.store c).pc = s.pc ∧
      (s.store c).controller = s.controller := by
  cases c <;> exact ⟨rfl, rfl, rfl⟩

/-- `destroyed` is never taken back. -/
theorem State.store_destroyed {s : State} (c : Call) (hdestroyed : s.destroyed = true) :
    (s.store c).destroyed = true := by
  cases c
  · exact hdestroyed
  · exact hdestroyed
  · rfl

theorem State.store_has (s : State) (c : Call) : (s.store c).Has c := by
  cases c <;> rfl

/-- A signal touches the program point of the worker only. -/
theorem State.signal_frame (s : State) :
    s.signal.mutex = s.mutex ∧ s.signal.enabled = s.enabled ∧
      s.signal.destroyed = s.destroyed ∧ s.signal.controller = s.controller := by
  unfold signal
  split <;> exact ⟨rfl, rfl, rfl, rfl⟩

theorem State.signal_pc (s : State) :
    s.signal.pc = s.pc ∧ s.pc ≠ .asleep ∨ s.pc = .asleep ∧ s.signal.pc = .woken := by
  unfold signal
  split
  · next hpc => exact .inr ⟨hpc, rfl⟩
  · next hpc => exact .inl ⟨rfl, hpc⟩

theorem State.signal_holds (s : State) : s.signal.pc.holds = s.pc.holds := by
  rcases s.signal_pc with ⟨hpc, _⟩ | ⟨hpc, hpc'⟩
  · rw [hpc]
  · rw [hpc, hpc']
    rfl

/-- The threads go on without touching the mutex. -/
theorem Owned.of_holds {s s' : State} (hs : Owned s) (hmutex : s'.mutex = s.mutex)
    (hcontroller : s'.controller.holds = s.controller.holds) (hpc : s'.pc.holds = s.pc.holds) :
    Owned s' := by
  have hholds : ∀ who, s'.holds who = s.holds who := by
    intro who
    cases who
    · exact hcontroller
    · exact hpc
  constructor
  · intro who
    rw [hmutex, hholds]
    exact hs.owner who
  · rw [hmutex]
    exact hs.depth

theorem other_of_ne {s s' : State} {who : Party}
    (hcontroller : who = .worker → s'.controller = s.controller)
    (hpc : who = .controller → s'.pc = s.pc) :
    ∀ u, u ≠ who → s'.holds u = s.holds u := by
  intro u hu
  cases u <;> cases who
  · exact absurd rfl hu
  · rw [State.holds, State.holds, hcontroller rfl]
  · rw [State.holds, State.holds, hpc rfl]
  · exact absurd rfl hu

theorem WorkerMove.owned {s s' : State} (hs : Owned s) (hmove : WorkerMove s s') : Owned s' := by
  cases hmove
  case leave hpc _ | again hpc _ | foundEnabled hpc _ | notEnabled hpc _ | foundDestroyed hpc _ |
      notDestroyed hpc _ | broke hpc _ | passed hpc _ | invoked hpc | returned hpc =>
    exact hs.of_holds rfl rfl (by rw [hpc]; rfl)
  case locked hpc hfree =>
    exact hs.of_take hfree rfl rfl (other_of_ne (fun _ => rfl) nofun)
  case slept hpc howner | unlocked hpc howner =>
    exact hs.of_release howner rfl rfl (other_of_ne (fun _ => rfl) nofun)
  case finishing stmt s₁ next hpc hcall =>
    cases hcall
    case lock hfree => exact hs.of_take hfree rfl rfl (other_of_ne (fun _ => rfl) nofun)
    case store => exact hs.of_holds rfl rfl (by rw [hpc]; rfl)
    case unlock howner =>
      exact hs.of_release howner rfl rfl (other_of_ne (fun _ => rfl) nofun)
    case signal =>
      obtain ⟨hmutex, _, _, hcontroller⟩ := s.signal_frame
      exact hs.of_holds hmutex (congrArg Controller.holds hcontroller) (by rw [hpc]; rfl)

theorem Moved.owned {s s' : State} {l : Label} (hs : Owned s) (hmoved : Moved s l s') :
    Owned s' := by
  cases hmoved
  case begins c hidle => exact hs.of_holds rfl (by rw [hidle]; rfl) rfl
  case controller c stmt s₁ next hcontroller hcall =>
    cases hcall
    case lock hfree => exact hs.of_take hfree rfl rfl (other_of_ne nofun fun _ => rfl)
    case store =>
      obtain ⟨hmutex, hpc, _⟩ := s.store_frame c
      exact hs.of_holds hmutex (by rw [hcontroller]; rfl) (congrArg Pc.holds hpc)
    case unlock howner =>
      exact hs.of_release howner rfl rfl (other_of_ne nofun fun _ => rfl)
    case signal =>
      exact hs.of_holds s.signal_frame.1 (by rw [hcontroller]; rfl) s.signal_holds
  case worker hmove => exact hmove.owned hs
  case wokeUp hpc | finished hpc => exact hs.of_holds rfl rfl (by rw [hpc]; rfl)

/-- Program points at which the invariant says nothing about the flags. -/
def Pc.free : Pc → Bool
  | .testDestroyed => false
  | .wait => false
  | .asleep => false
  | .finishing stmt => !stmt.stored
  | _ => true

/-- `Has` depends on the flags only, and `destroyed` is never taken back. -/
theorem State.Has.of_flags {s s' : State} {c : Call} (hhas : s.Has c)
    (henabled : s'.enabled = s.enabled)
    (hdestroyed : s.destroyed = true → s'.destroyed = true) : s'.Has c := by
  cases c
  · exact henabled.trans hhas
  · exact henabled.trans hhas
  · exact hdestroyed hhas

/-- A step of the worker leaves the call of the controller alone. -/
theorem Inv.stored_of_frame {s s' : State} (hs : Inv s) (hcontroller : s'.controller = s.controller)
    (henabled : s'.enabled = s.enabled) (hdestroyed : s.destroyed = true → s'.destroyed = true) :
    ∀ c stmt, s'.controller = .inside c stmt → stmt.stored = true → s'.Has c := by
  intro c stmt hinside hstored
  rw [hcontroller] at hinside
  exact (hs.stored c stmt hinside hstored).of_flags henabled hdestroyed

/-- The worker comes to such a point. -/
theorem Inv.of_free {s : State} (howned : Owned s)
    (hstored : ∀ c stmt, s.controller = .inside c stmt → stmt.stored = true → s.Has c)
    (hfree : s.pc.free = true) : Inv s := by
  refine ⟨howned, hstored, ?_, ?_, ?_, ?_⟩
  · intro stmt hpc hstmt
    simp [hpc, Pc.free, hstmt] at hfree
  all_goals
    intro hpc
    rw [hpc] at hfree
    cases hfree

/-- The worker and the flags stay; a signal that is owed is still owed. -/
theorem Inv.of_same_worker {s s' : State} (hs : Inv s) (howned : Owned s') (hpc : s'.pc = s.pc)
    (henabled : s'.enabled = s.enabled) (hdestroyed : s'.destroyed = s.destroyed)
    (hstored : ∀ c stmt, s'.controller = .inside c stmt → stmt.stored = true → s'.Has c)
    (howed : s.pc = .asleep → s.SignalOwed → s'.SignalOwed) : Inv s' := by
  refine ⟨howned, hstored, ?_, ?_, ?_, ?_⟩ <;> rw [hpc]
  · rw [hdestroyed]
    exact hs.finishing
  · rw [henabled]
    exact hs.tested
  · rw [henabled, hdestroyed]
    exact hs.waiting
  · intro hasleep
    rw [henabled, hdestroyed]
    exact (hs.asleep hasleep).imp_right (howed hasleep)

theorem WorkerMove.inv {s s' : State} (hs : Inv s) (hmove : WorkerMove s s') : Inv s' := by
  have howned := hmove.owned hs.toOwned
  cases hmove
  case leave | again | locked | foundEnabled | foundDestroyed | unlocked | broke | passed |
      invoked | returned =>
    exact .of_free howned hs.stored rfl
  case notEnabled hpc henabled =>
    exact ⟨howned, hs.stored, nofun, fun _ => henabled, nofun, nofun⟩
  case notDestroyed hpc hdestroyed =>
    exact ⟨howned, hs.stored, nofun, nofun, fun _ => ⟨hs.tested hpc, hdestroyed⟩, nofun⟩
  case slept hpc _ =>
    exact ⟨howned, hs.stored, nofun, nofun, nofun, fun _ => .inl (hs.waiting hpc)⟩
  case finishing stmt s₁ next hpc hcall =>
    cases hcall
    case lock => exact .of_free howned hs.stored rfl
    case store =>
      exact ⟨howned, hs.stored_of_frame rfl rfl fun _ => rfl, fun _ _ _ => rfl, nofun, nofun, nofun⟩
    case unlock =>
      exact ⟨howned, hs.stored, fun _ _ _ => hs.finishing .unlock hpc rfl, nofun, nofun, nofun⟩
    case signal =>
      obtain ⟨_, henabled, hdestroyed, hcontroller⟩ := s.signal_frame
      exact .of_free howned
        (hs.stored_of_frame hcontroller henabled fun h => hdestroyed.trans h) rfl

/-- A controller that has not stored yet owes no signal. -/
theorem State.not_signalOwed {s : State} (h : ∀ c stmt, s.controller = .inside c stmt →
    stmt.stored = false) : ¬ s.SignalOwed := by
  rintro ⟨c, stmt, hcontroller, hstored, _⟩
  rw [h c stmt hcontroller] at hstored
  cases hstored

/-- **The assignment.**  The worker is not between a test and its wait, as it does
not own the mutex; if it sleeps the call owes it a signal from now on. -/
theorem Inv.store {s : State} {c : Call} (hs : Inv s)
    (hcontroller : s.controller = .inside c .store)
    (howned : Owned ((s.store c).setController (.inside c .unlock))) :
    Inv ((s.store c).setController (.inside c .unlock)) := by
  obtain ⟨_, hpc, _⟩ := s.store_frame c
  have hfree : s.pc.holds = false := hs.not_both (by rw [hcontroller]; rfl)
  refine ⟨howned, ?_, ?_, ?_, ?_, ?_⟩
  · intro c' stmt hinside _
    cases hinside
    exact (s.store_has c).of_flags rfl id
  · intro stmt hpc' hstored
    exact State.store_destroyed c (hs.finishing stmt (hpc.symm.trans hpc') hstored)
  · intro hpc'
    rw [hpc.symm.trans hpc'] at hfree
    cases hfree
  · intro hpc'
    rw [hpc.symm.trans hpc'] at hfree
    cases hfree
  · intro hpc'
    have hnone : ¬ s.SignalOwed := by
      apply State.not_signalOwed
      intro c' stmt hinside
      rw [hcontroller] at hinside
      cases hinside
      rfl
    obtain ⟨_, hdown⟩ := (hs.asleep (hpc.symm.trans hpc')).resolve_right hnone
    cases c
    case disable => exact .inl ⟨rfl, hdown⟩
    case enable | destroy => exact .inr ⟨_, .unlock, rfl, rfl, nofun⟩

/-- A statement of the controller's call. -/
theorem CallMove.inv {s s₁ : State} {c : Call} {stmt : Statement} {next : Option Statement}
    (hs : Inv s) (hcontroller : s.controller = .inside c stmt)
    (hcall : CallMove s .controller c stmt s₁ next)
    (howned : Owned (s₁.setController (next.elim .idle (.inside c)))) :
    Inv (s₁.setController (next.elim .idle (.inside c))) := by
  cases hcall
  case lock =>
    refine hs.of_same_worker howned rfl rfl rfl ?_ ?_
    · intro c' stmt hinside hstored
      cases hinside
      cases hstored
    · rintro _ ⟨c', stmt, hinside, hstored, _⟩
      rw [hcontroller] at hinside
      cases hinside
      cases hstored
  case store => exact hs.store hcontroller howned
  case unlock =>
    refine hs.of_same_worker howned rfl rfl rfl ?_ ?_
    · intro c' stmt hinside _
      cases hinside
      exact hs.stored c .unlock hcontroller rfl
    · rintro _ ⟨c', stmt, hinside, _, hne⟩
      rw [hcontroller] at hinside
      cases hinside
      exact ⟨c, .signal, rfl, rfl, hne⟩
  case signal =>
    obtain ⟨_, henabled, hdestroyed, _⟩ := s.signal_frame
    rcases s.signal_pc with ⟨hpc, hne⟩ | ⟨_, hwoken⟩
    · exact hs.of_same_worker howned hpc henabled hdestroyed nofun fun h => absurd h hne
    · exact .of_free howned nofun (congrArg Pc.free hwoken)

theorem Moved.inv {s s' : State} {l : Label} (hs : Inv s) (hmoved : Moved s l s') : Inv s' := by
  have howned := hmoved.owned hs.toOwned
  cases hmoved
  case begins c hidle =>
    refine hs.of_same_worker howned rfl rfl rfl ?_ ?_
    · intro c' stmt hinside hstored
      cases hinside
      cases hstored
    · rintro _ ⟨c', stmt, hinside, _⟩
      rw [hidle] at hinside
      cases hinside
  case controller c stmt s₁ next hcontroller hcall => exact hcall.inv hs hcontroller howned
  case worker hmove => exact hmove.inv hs
  case wokeUp | finished => exact .of_free howned hs.stored rfl

/-- **The invariant.** -/
theorem step_inv {p : Platform} {s s' : State} {l : Label} (hs : Inv s)
    (hstep : step p s l = some s') : Inv s' :=
  (step_moved hs.toOwned hstep).inv hs

theorem reachable_inv {p : Platform} {s : State} {ls : List Label}
    (hrun : run (step p) init ls = some s) : Inv s :=
  run_invariant (fun _ _ _ hs hstep => step_inv hs hstep) init_inv hrun

/-! ## What a call has stored -/

/-- The call that undoes another one. -/
def Call.undoneBy : Call → Option Call
  | .enable => some .disable
  | .disable => some .enable
  | .destroy => none

/-- The value that call `c` stores is there, and no call is about to undo it. -/
structure Settled (c : Call) (s : State) : Prop where
  has : s.Has c
  undisturbed : ∀ c' stmt, c.undoneBy = some c' → s.controller ≠ .inside c' stmt

/-- Nothing has been enabled yet. -/
theorem init_settled : Settled .disable init := ⟨rfl, nofun⟩

/-- The flags of a worker that makes a step. -/
theorem WorkerMove.frame {s s' : State} (hmove : WorkerMove s s') :
    s'.enabled = s.enabled ∧ s'.controller = s.controller ∧
      (s.destroyed = true → s'.destroyed = true) := by
  cases hmove
  case finishing stmt s₁ next hpc hcall =>
    cases hcall
    case lock | unlock => exact ⟨rfl, rfl, id⟩
    case store => exact ⟨rfl, rfl, fun _ => rfl⟩
    case signal =>
      obtain ⟨_, henabled, hdestroyed, hcontroller⟩ := s.signal_frame
      exact ⟨henabled, hcontroller, fun h => hdestroyed.trans h⟩
  all_goals exact ⟨rfl, rfl, id⟩

/-- A call that does not undo `c` leaves its value alone. -/
theorem State.Has.store {s : State} {c c' : Call} (hhas : s.Has c)
    (hne : c.undoneBy ≠ some c') : (s.store c').Has c := by
  cases c <;> cases c' <;> first | exact absurd rfl hne | exact hhas | rfl

/-- **What a call has stored stays** until a call begins that undoes it. -/
theorem Moved.settled {s s' : State} {l : Label} {c : Call} (hmoved : Moved s l s')
    (hs : Settled c s) (hl : ∀ c', c.undoneBy = some c' → l ≠ .call c') : Settled c s' := by
  obtain ⟨hhas, hundisturbed⟩ := hs
  cases hmoved
  case begins c₁ hidle =>
    refine ⟨hhas.of_flags rfl id, ?_⟩
    intro c' stmt' hundo hinside
    cases hinside
    exact hl c₁ hundo rfl
  case controller c₁ stmt s₁ next hcontroller hcall =>
    have hne : c.undoneBy ≠ some c₁ := fun hundo => hundisturbed c₁ stmt hundo hcontroller
    have hother : ∀ next' : Option Statement, ∀ c' stmt', c.undoneBy = some c' →
        next'.elim .idle (Controller.inside c₁) ≠ .inside c' stmt' := by
      intro next' c' stmt' hundo hinside
      cases next' <;> cases hinside
      exact hne hundo
    cases hcall
    case lock => exact ⟨hhas.of_flags rfl id, hother (some .store)⟩
    case store => exact ⟨(hhas.store hne).of_flags rfl id, hother (some .unlock)⟩
    case unlock => exact ⟨hhas.of_flags rfl id, hother (some .signal)⟩
    case signal =>
      obtain ⟨_, henabled, hdestroyed, _⟩ := s.signal_frame
      exact ⟨hhas.of_flags henabled (fun h => hdestroyed.trans h), hother none⟩
  case worker hmove =>
    obtain ⟨henabled, hcontroller, hdestroyed⟩ := hmove.frame
    refine ⟨hhas.of_flags henabled hdestroyed, ?_⟩
    intro c' stmt' hundo
    rw [hcontroller]
    exact hundisturbed c' stmt' hundo
  case wokeUp | finished => exact ⟨hhas.of_flags rfl id, hundisturbed⟩

/-- With this step a call returns, of the controller or of the callback. -/
def Returns (s : State) (l : Label) (c : Call) : Prop :=
  l = .controller ∧ s.controller = .inside c .signal ∨
    c = .destroy ∧ l = .worker ∧ s.pc = .finishing .signal

/-- The last step of a call is its signal. -/
theorem Returns.step_cases {s s' : State} {l : Label} {c : Call} (hreturns : Returns s l c)
    (hmoved : Moved s l s') :
    (s.controller = .inside c .signal ∧ s' = s.signal.setController .idle) ∨
      (c = .destroy ∧ s.pc = .finishing .signal ∧ s' = s.signal.goto .callback) := by
  rcases hreturns with ⟨rfl, hcontroller⟩ | ⟨rfl, rfl, hpc⟩
  · left
    cases hmoved
    next hcontroller' hcall =>
      rw [hcontroller] at hcontroller'
      cases hcontroller'
      cases hcall
      exact ⟨hcontroller, rfl⟩
  · right
    cases hmoved
    next hmove =>
      cases hmove
      case finishing hpc' hcall =>
        rw [hpc] at hpc'
        cases hpc'
        cases hcall
        exact ⟨rfl, hpc, rfl⟩
      case locked hpc' _ => rcases hpc' with hpc' | hpc' <;> simp [hpc] at hpc'
      all_goals simp_all

theorem Returns.settled {s s' : State} {l : Label} {c : Call} (hs : Inv s)
    (hreturns : Returns s l c) (hmoved : Moved s l s') : Settled c s' := by
  obtain ⟨_, henabled, hdestroyed, _⟩ := s.signal_frame
  rcases hreturns.step_cases hmoved with ⟨hcontroller, rfl⟩ | ⟨rfl, hpc, rfl⟩
  · have hhas := hs.stored c .signal hcontroller rfl
    exact ⟨hhas.of_flags henabled (fun h => hdestroyed.trans h), nofun⟩
  · exact ⟨hdestroyed.trans (hs.finishing .signal hpc rfl), nofun⟩

/-- No call of the list undoes `c`. -/
def Call.Lasts (c : Call) (ls : List Label) : Prop :=
  ∀ c', c.undoneBy = some c' → .call c' ∉ ls

/-- Labels that undo nothing. -/
theorem Call.Lasts.takes {p : Platform} {s : State} {ls : List Label} {c : Call}
    (hls : c.Lasts ls) :
    Takes (step p) (fun _ l => ∀ c', c.undoneBy = some c' → l ≠ .call c') s ls := by
  apply takes_of_mem
  rintro l hl _ c' hundo rfl
  exact hls c' hundo hl

/-- The state in which a call has returned, in the middle of a run. -/
theorem Returns.run_split {p : Platform} {before after : List Label} {l : Label} {s t : State}
    {c : Call} (hreturns : Returns t l c) (hbefore : run (step p) init before = some t)
    (hrun : run (step p) init (before ++ l :: after) = some s) :
    ∃ t', step p t l = some t' ∧ Moved t l t' ∧ Inv t' ∧ Settled c t' ∧
      run (step p) t' after = some s := by
  have ht := reachable_inv hbefore
  obtain ⟨t₁, ht₁, hrest⟩ := run_append.mp hrun
  rw [hbefore, Option.some.injEq] at ht₁
  subst ht₁
  obtain ⟨t', hstep, hafter⟩ := run_cons.mp hrest
  have hmoved := step_moved ht.toOwned hstep
  exact ⟨t', hstep, hmoved, hmoved.inv ht, hreturns.settled ht hmoved, hafter⟩

end Mtdp.Worker
