import Mathlib.Algebra.Order.BigOperators.Group.Finset
import Mathlib.Algebra.Order.Ring.Nat
import Mtdp.Pipeline.Lifecycle
import Mtdp.Pipeline.Modes
import Mtdp.Pipeline.Progress

/-!
# Disabling a pipeline comes to an end

`mtdp_pipeline_disable` joins threads that may be anywhere in their routines: at
their gates, waiting for a token, or with a buffer that cannot be pushed.  Once a
thread is told to leave it has at most `10` steps to make, whatever the
environment answers, and the call itself makes a number of steps that depends on
the number of stages only.  What the callbacks do is not counted; a callback that
never returns keeps the call waiting.

## Main results

* `Move.left_lt` — a thread told to leave is one step closer to its end.
* `disable_terminates` — the call is never stuck, and the steps of the threads
  told to leave and of the call are bounded.
-/

namespace Mtdp.Pipeline

open Lib.Transition

variable {V σ : Type}

/-! ## How far it is -/

/-- How many steps a thread that has been told to leave may still make. -/
def Pc.left : Pc → Nat
  | .absent | .exited => 0
  | .test | .recheck => 1
  | .gate => 2
  | .pushFailed | .putBackFailed | .timedOut | .emptyGet | .recycle => 2
  | .callback | .finishing => 3
  | .process => 4
  | .getEmpty => 5
  | .getFull => 6
  | .acquired => 7
  | .acquire => 8
  | .release | .putBack => 9
  | .push => 10

theorem Pc.left_le (pc : Pc) : pc.left ≤ 10 := by
  cases pc <;> simp [left]

/-- The same for a thread that may be told to leave. -/
def Impl.left (i : Impl V σ) : Nat := if i.destroyed then i.pc.left else 10

theorem Impl.left_le (i : Impl V σ) : i.left ≤ 10 := by
  unfold left
  split
  · exact i.pc.left_le
  · exact Nat.le_refl _

theorem Impl.left_mono {i i' : Impl V σ} (hpc : i'.pc = i.pc)
    (hdestroyed : i.destroyed = true → i'.destroyed = true) : i'.left ≤ i.left := by
  cases hflag : i.destroyed with
  | true => exact Nat.le_of_eq (by simp [left, hflag, hdestroyed hflag, hpc])
  | false => simpa [left, hflag] using i'.left_le

/-- What a source does inside `mtdp_source_finished` is up to its callback. -/
def Impl.inCallback (i : Impl V σ) (a : Answer V σ) : Bool :=
  match i.pc, a.callback with
  | .finishing, _ => true
  | .callback, .finish => true
  | _, _ => false

theorem Goto.left_lt {role : Role} {a : Answer V σ} {v : View V σ} {pc : Pc}
    (hgoto : Goto role a v pc) (hdestroyed : v.impl.destroyed = true) :
    pc.left < v.impl.pc.left := by
  cases hgoto
  case leave h _ => rcases h with h | h <;> simp [h, Pc.left]
  case toGate hdown | enter hdown => simp [hdestroyed] at hdown
  case skipPush h _ => cases role <;> simp [h, Pc.left, Role.afterPush]
  case skipPull h _ => cases role <;> simp [h, Pc.left, Role.afterPull]
  all_goals simp_all [Pc.left]

/-- **A thread told to leave** is one step closer to its end. -/
theorem Move.left_lt {role : Role} {a : Answer V σ} {v v' : View V σ} (hmove : Move role a v v')
    (hdestroyed : v.impl.destroyed = true) (hcallback : v.impl.inCallback a = false) :
    v'.impl.pc.left < v.impl.pc.left := by
  cases hmove
  case goto hgoto => exact hgoto.left_lt hdestroyed
  case released h => cases role <;> simp [h, Pc.left, View.releaseOutput, Role.afterPush]
  case flagged h => rcases h with h | h | h <;> simp [h, Pc.left, View.storeDone]
  case gotFull h _ => cases role <;> simp [h, Pc.left, Role.afterPull]
  case asked h _ => rcases h with ⟨_, h⟩ | ⟨_, h⟩ <;> simp [h, Pc.left, View.askInput]
  case returned h _ => cases role <;> simp [h, Pc.left, View.returns, Role.afterCallback]
  case finishing h hfinish => simp [Impl.inCallback, h, hfinish] at hcallback
  case finished h => simp [Impl.inCallback, h] at hcallback
  all_goals simp_all [Pc.left, View.storeDone, View.releaseInput, View.invoke]

/-- Inside `mtdp_source_finished` a source stays in its callback. -/
theorem Move.of_inCallback {role : Role} {a : Answer V σ} {v v' : View V σ}
    (hmove : Move role a v v') (hcallback : v.impl.inCallback a = true) :
    v'.impl.pc.left = v.impl.pc.left := by
  have hpc : v.impl.pc = .finishing ∨ v.impl.pc = .callback ∧ a.callback = .finish := by
    unfold Impl.inCallback at hcallback
    split at hcallback <;> simp_all
  cases hmove
  case goto hgoto =>
    cases hgoto
    case leave h _ => rcases h with h | h <;> simp [h] at hpc
    all_goals simp_all
  case flagged h => rcases h with h | h | h <;> simp [h] at hpc
  case asked h _ => rcases h with ⟨_, h⟩ | ⟨_, h⟩ <;> simp [h] at hpc
  case finishing h _ => simp [h, View.storeDone, Pc.left]
  case finished h => simp [h, Pc.left]
  all_goals simp_all

/-- No step of a thread takes it away from its end. -/
theorem Move.left_le {role : Role} {a : Answer V σ} {v v' : View V σ} (hmove : Move role a v v') :
    v'.impl.left ≤ v.impl.left := by
  cases hflag : v.impl.destroyed with
  | false => simpa [Impl.left, hflag] using v'.impl.left_le
  | true =>
      have hdestroyed : v'.impl.destroyed = true := by
        rcases hmove.destroyed_cases with h | ⟨_, _, h⟩
        · rw [h, hflag]
        · exact h
      simp only [Impl.left, hflag, hdestroyed, if_true]
      cases hcallback : v.impl.inCallback a with
      | false => exact Nat.le_of_lt (hmove.left_lt hflag hcallback)
      | true => exact Nat.le_of_eq (hmove.of_inCallback hcallback)

/-! ## The call -/

/-- How many steps a disable call still makes, in a pipeline with `n` stages. -/
def Controller.left (n : Nat) : Controller → Nat
  | .idle | .enabling _ | .starting _ | .stopping _ => 0
  | .disabling => 6 * n + 15
  | .destroying u => 2 * (n + 2 - u) + 4 * n + 10
  | .destroyed u => 2 * (n + 1 - u) + 4 * n + 11
  | .joining u => (n + 2 - u) + 3 * n + 7
  | .clearing left => left + 2 * n + 5
  | .returning left => left + n + 2
  | .marking u => (n + 1 - u) + 1

/-- The units that have been told to leave so far. -/
def DestroyedUnits (s : State V σ) : Prop :=
  match s.controller with
  | .destroying u => ∀ w ≤ s.nStages + 1, w < u → (s.impls w).destroyed = true
  | .destroyed u => ∀ w ≤ s.nStages + 1, w < u ∨ w = u ∧ s.role w ≠ .source →
      (s.impls w).destroyed = true
  | .joining _ => ∀ w ≤ s.nStages + 1, (s.impls w).destroyed = true
  | _ => True

theorem step_destroyedUnits {s s' : State V σ} {l : Label V σ} (hs : DestroyedUnits s)
    (hstep : step s l = some s') : DestroyedUnits s' := by
  unfold DestroyedUnits at hs
  cases l with
  | worker u a =>
      have hcontroller := (step_worker_frame hstep).2.1
      obtain ⟨_, v, hmove, rfl⟩ := step_worker hstep
      have hmono (w : Nat) (h : (s.impls w).destroyed = true) :
          ((s.putView u v).impls w).destroyed = true := by
        by_cases hne : w = u
        · subst hne
          rw [State.putView_impls_self]
          rcases hmove.destroyed_cases with heq | ⟨_, _, h'⟩
          · exact heq.trans h
          · exact h'
        · rwa [State.putView_impls_of_ne _ _ _ hne]
      unfold DestroyedUnits
      rw [hcontroller]
      cases hat : s.controller <;> rw [hat] at hs
      case destroying | destroyed => exact fun w hw h => hmono w (hs w hw h)
      case joining => exact fun w hw => hmono w (hs w hw)
      all_goals trivial
  | call c =>
      simp only [step] at hstep
      split at hstep <;> cases hstep
      rcases s.beginCall_cases c with ⟨e, _, _, heq⟩ | ⟨_, _, heq⟩ | ⟨_, _, _, heq⟩ |
        ⟨_, _, _, heq⟩ | ⟨_, _, heq⟩ <;> rw [heq] <;> trivial
  | controller allocated =>
      have hmono (w : Nat) := (controllerStep_impl hstep w).1
      cases controllerStep_move hstep <;> rename_i hcontroller <;> rw [hcontroller] at hs
      case disabling => exact fun w _ h => absurd h (Nat.not_lt_zero w)
      case destroyFirst u hunit =>
        rintro w hw (hlt | ⟨rfl, hrole⟩)
        · exact hmono w (hs w hw hlt)
        · have hrole' : s.role w ≠ .source := hrole
          simp only [State.setImpl_impls_self]
          cases h : s.role w
          · exact absurd h hrole'
          · rfl
          · rfl
      case destroySecond u =>
        intro w hw hlt
        by_cases hne : w = u
        · subst hne
          by_cases hrole : s.role w = .source
          · simp [hrole, Role.destroySecond, workerDestroy]
          · exact hmono w (hs w hw (.inr ⟨rfl, hrole⟩))
        · exact hmono w (hs w hw (.inl (by omega)))
      case destroyed u hlast =>
        exact fun w hw => hs w hw (by have hle : w ≤ s.nStages + 1 := hw; omega)
      case join => exact fun w hw => hs w hw
      all_goals trivial
  | waiter =>
      cases hstep
      exact hs

/-- A disable call goes on, unless it waits for a thread to leave. -/
theorem controllerStep_or_joins {s : State V σ} (hbusy : s.controller ≠ .idle) :
    (∀ allocated, ∃ s', s.controllerStep allocated = some s') ∨
      ∃ u ≤ s.nStages + 1, s.controller = .joining u ∧ (s.impls u).pc ≠ .exited := by
  cases hcontroller : s.controller
  case idle => exact absurd hcontroller hbusy
  case enabling left | starting left | clearing left | returning left =>
    left
    intro allocated
    cases left <;> exact ⟨_, by rw [State.controllerStep, hcontroller]⟩
  case disabling | destroyed => exact .inl fun _ => ⟨_, by rw [State.controllerStep, hcontroller]⟩
  case stopping u | destroying u | marking u =>
    left
    intro allocated
    simp only [State.controllerStep, hcontroller]
    split <;> exact ⟨_, rfl⟩
  case joining u =>
    simp only [State.controllerStep, hcontroller]
    by_cases hu : u ≤ s.nStages + 1
    · by_cases hpc : (s.impls u).pc = .exited
      · exact .inl fun _ => ⟨_, by rw [if_pos hu, if_pos hpc]⟩
      · exact .inr ⟨u, hu, rfl, hpc⟩
    · exact .inl fun _ => ⟨_, by rw [if_neg hu]⟩

/-! ## The bound -/

/-- The steps that count: those of a call, and those that a thread makes outside
its callback once it has been told to leave. -/
def State.winding (s : State V σ) : Label V σ → List Unit
  | .controller _ => [()]
  | .worker u a =>
      if (s.impls u).destroyed ∧ (s.impls u).inCallback a = false then [()] else []
  | _ => []

/-- How many of these steps there are still to come. -/
def State.left (s : State V σ) : Nat :=
  s.controller.left s.nStages + ∑ u ∈ Finset.range (s.nStages + 2), (s.impls u).left

/-- No call is in progress, or it disables the pipeline. -/
def Winding (s : State V σ) : Prop := ∀ c, s.controller.call = some c → c = .disable

/-- A step of a disable call. -/
theorem controllerStep_left {s s' : State V σ} {allocated : Nat → Bool} (hs : Winding s)
    (hstep : s.controllerStep allocated = some s') :
    s'.controller.left s.nStages < s.controller.left s.nStages ∧
      ∀ u, (s'.impls u).pc = (s.impls u).pc := by
  have hset (w : Nat) (i : Impl V σ) (hi : i.pc = (s.impls w).pc) (u : Nat) :
      ((s.setImpl w i).impls u).pc = (s.impls u).pc := by
    by_cases hne : u = w
    · subst hne
      rwa [State.setImpl_impls_self]
    · rw [State.setImpl_impls_of_ne _ _ hne]
  cases controllerStep_move hstep <;> rename_i hcontroller
  case create | enabled => exact absurd (hs .enable (by rw [hcontroller]; rfl)) (by decide)
  case start | started => exact absurd (hs .start (by rw [hcontroller]; rfl)) (by decide)
  case stop | stopped => exact absurd (hs .stop (by rw [hcontroller]; rfl)) (by decide)
  case destroyFirst u hunit =>
    refine ⟨?_, hset u _ (Role.destroyFirst_pc _ _)⟩
    simp only [hcontroller, Controller.left]
    omega
  case destroySecond u =>
    refine ⟨?_, hset u _ (Role.destroySecond_pc _ _)⟩
    simp only [hcontroller, Controller.left]
    omega
  case mark u hstage =>
    refine ⟨?_, hset u (setDone (s.impls u)) rfl⟩
    simp only [hcontroller, Controller.left]
    omega
  case giveBack left =>
    refine ⟨by simp only [hcontroller, Controller.left]; omega, fun u => ?_⟩
    by_cases hne : u = left
    · subst hne
      simp [Role.returnBuffers_flags]
    · simp [hne]
  all_goals
    refine ⟨?_, fun _ => rfl⟩
    simp only [hcontroller, Controller.left, State.report]
    omega

/-- **One step.** -/
theorem step_winding {s s' : State V σ} {l : Label V σ} (hs : Winding s)
    (hl : ∀ c, l ≠ .call c) (hstep : step s l = some s') :
    Winding s' ∧ (s.winding l).length + s'.left ≤ s.left := by
  unfold State.left
  rw [step_nStages hstep]
  cases l with
  | worker u a =>
      obtain ⟨hu, v, hmove, rfl⟩ := step_worker hstep
      refine ⟨hs, ?_⟩
      have hunits (w : Nat) : ((s.putView u v).impls w).left ≤ (s.impls w).left := by
        by_cases hne : w = u
        · subst hne
          rw [State.putView_impls_self]
          exact hmove.left_le
        · rw [State.putView_impls_of_ne _ _ _ hne]
      simp only [State.winding, State.putView_controller]
      split
      · next hcounts =>
          obtain ⟨hdestroyed, hcallback⟩ := hcounts
          have hlt : ((s.putView u v).impls u).left < (s.impls u).left := by
            have hdestroyed' : v.impl.destroyed = true := by
              rcases hmove.destroyed_cases with h | ⟨_, _, h⟩
              · exact h.trans hdestroyed
              · exact h
            rw [State.putView_impls_self]
            simp only [Impl.left, hdestroyed, hdestroyed', if_true]
            exact hmove.left_lt hdestroyed hcallback
          have hsum : ∑ w ∈ Finset.range (s.nStages + 2), ((s.putView u v).impls w).left <
              ∑ w ∈ Finset.range (s.nStages + 2), (s.impls w).left :=
            Finset.sum_lt_sum (fun w _ => hunits w) ⟨u, by simp; omega, hlt⟩
          simp only [List.length_singleton]
          omega
      · have hsum : ∑ w ∈ Finset.range (s.nStages + 2), ((s.putView u v).impls w).left ≤
            ∑ w ∈ Finset.range (s.nStages + 2), (s.impls w).left :=
          Finset.sum_le_sum fun w _ => hunits w
        simp only [List.length_nil]
        omega
  | call c => exact absurd rfl (hl c)
  | controller allocated =>
      obtain ⟨hlt, hpc⟩ := controllerStep_left hs hstep
      have hsum : ∑ w ∈ Finset.range (s.nStages + 2), (s'.impls w).left ≤
          ∑ w ∈ Finset.range (s.nStages + 2), (s.impls w).left :=
        Finset.sum_le_sum fun w _ => Impl.left_mono (hpc w) (controllerStep_impl hstep w).1
      refine ⟨?_, ?_⟩
      · obtain ⟨c, hcall, ⟨hcall', _⟩ | ⟨hidle, _⟩⟩ := controllerStep_mode hstep
        · intro c' hc'
          rw [hcall', Option.some.injEq] at hc'
          exact hc' ▸ hs c hcall
        · simp [Winding, hidle, Controller.call]
      · simp only [State.winding, List.length_singleton]
        omega
  | waiter =>
      cases hstep
      exact ⟨hs, Nat.le_of_eq (Nat.zero_add _)⟩

/-- **Disabling terminates.**  In any run of a freshly created pipeline that has
come to the beginning of an `mtdp_pipeline_disable`, at most `16 * n + 35` more
steps of the call and of the threads that it has told to leave are made, in any
order and however the environment answers.  And it is never stuck: as long as the
call has not returned it can go on, or the thread that it joins can. -/
theorem disable_terminates {s₀ s t : State V σ} {ls₀ ls : List (Label V σ)} (hs₀ : Created s₀)
    (hrun₀ : run step s₀ ls₀ = some s) (hbegun : s.controller = .disabling)
    (hcalls : ∀ c, .call c ∉ ls) (hrun : run step s ls = some t) :
    (observe step State.winding s ls).length ≤ 16 * s.nStages + 35 ∧
      (t.controller = .idle ∨
        (∀ allocated, ∃ t', step t (.controller allocated) = some t') ∨
        ∃ u, t.controller = .joining u ∧ (t.impls u).destroyed = true ∧
          ∀ a, Answered (t.role u) (t.view u) a → ∃ t', step t (.worker u a) = some t') := by
  have hwinding : Winding s := by simp [Winding, hbegun, Controller.call]
  have hlabels : Takes step (fun _ l => ∀ c, l ≠ .call c) s ls :=
    takes_of_mem fun l hl _ c heq => hcalls c (heq ▸ hl)
  constructor
  · have hsteps (s : State V σ) (l : Label V σ) (s' : State V σ) (hs : Winding s)
        (hl : ∀ c, l ≠ .call c) (hstep : step s l = some s') :
        Winding s' ∧ (s.winding l).length + s'.left ≤ s.left := step_winding hs hl hstep
    have hpaid := observe_length_le hsteps hwinding hlabels hrun
    have hunits : ∑ u ∈ Finset.range (s.nStages + 2), (s.impls u).left ≤ (s.nStages + 2) * 10 := by
      simpa using Finset.sum_le_card_nsmul (Finset.range (s.nStages + 2)) _ 10
        fun u _ => (s.impls u).left_le
    simp only [State.left, hbegun, Controller.left] at hpaid
    omega
  · have hreach : run step s₀ (ls₀ ++ ls) = some t := run_append.mpr ⟨s, hrun₀, hrun⟩
    have hthreads : ThreadsInv t :=
      run_invariant (fun _ _ _ => step_threadsInv) hs₀.threadsInv hreach
    have hdestroyed : DestroyedUnits t :=
      run_invariant (fun _ _ _ => step_destroyedUnits)
        (by simp [DestroyedUnits, hs₀.controller]) hreach
    by_cases hidle : t.controller = .idle
    · exact .inl hidle
    rcases controllerStep_or_joins hidle with hgoes | ⟨u, hu, hjoins, hpc⟩
    · exact .inr (.inl hgoes)
    · rw [DestroyedUnits, hjoins] at hdestroyed
      have hshape := hthreads.shape
      simp only [Shape, hjoins] at hshape
      have hexists := hthreads.existing.all (.inl hshape.1) u hu
      refine .inr (.inr ⟨u, hjoins, hdestroyed u hu, fun a ha => hthreads.moves hu ?_ ?_ ha⟩)
      · rintro (h | h)
        · exact hexists h
        · exact hpc h
      · exact fun _ => .inr (hdestroyed u hu)

/-- The disable of `disabledWhileFilling` begins while the source waits for an
empty buffer. -/
def disableBegun : List (Label Unit Unit) :=
  enableAndStart ++ threadSteps 0 12 true true false ++ [.call .disable]

/-- The call has told both threads to leave; one of them has. -/
def disableUnderway : List (Label Unit Unit) :=
  controllerSteps 6 ++ threadSteps 0 4 true false false ++ controllerSteps 1

theorem disable_terminates_underway :
    let s := (run step smallest disableBegun).get (by decide)
    let t := (run step s disableUnderway).get (by decide)
    (observe step State.winding s disableUnderway).length ≤ 16 * s.nStages + 35 ∧
      (t.controller = .idle ∨
        (∀ allocated, ∃ t', step t (.controller allocated) = some t') ∨
        ∃ u, t.controller = .joining u ∧ (t.impls u).destroyed = true ∧
          ∀ a, Answered (t.role u) (t.view u) a → ∃ t', step t (.worker u a) = some t') :=
  disable_terminates smallest_created (Option.some_get _).symm (by decide)
    (by simp [disableUnderway, controllerSteps, threadSteps]) (Option.some_get _).symm

end Mtdp.Pipeline
