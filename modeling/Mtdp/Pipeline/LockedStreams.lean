import Mtdp.Pipeline.Determinism
import Mtdp.Pipeline.LockedRuns

/-!
# One stream under the mutexes

What the units receive does not depend on how the statements of their threads
interleave, as long as the callbacks are functions and push only what they have written.
A callback runs outside the functions of the pipes, so it finds in its buffers what is
seen there.

## Main results

* `takes_effects` — conditions on the callbacks carry over to the system without
  mutexes.
* `locked_streams_determined` — what a unit receives is what the nodes compute.
-/

namespace Mtdp.Pipeline

open Lib.Kahn Lib.Transition Calls

variable {V σ : Type}

/-- A thread in a function of a pipe is in no callback. -/
theorem CallsPipe.pc_ne {role : Role} {i : Impl V σ} {side : Side} {f : Bool → Operation}
    (hcalls : CallsPipe role i side f) : i.pc ≠ .process ∧ i.pc ≠ .callback := by
  cases hcalls <;> simp [*]

namespace Locked

variable {b : Build} {s s' : State V σ} {u : Nat}

/-- What unit `u` receives: the contents of the buffer its call finds in the queue when
its thread gets the mutex. -/
def received (b : Build) (u : Nat) (s : State V σ) (l : Label V σ) : List V :=
  observe Pipeline.step (Pipeline.received u) s.seen (effects b s l)

/-- Only a call of the controller is seen as one. -/
theorem eq_disable_of_mem_effects {l : Label V σ} (h : .call .disable ∈ effects b s l) :
    l = .call .disable := by
  cases l with
  | worker u a =>
      simp only [effects] at h
      split at h
      · simp at h
      · split at h <;> simp at h
  | call c => exact (List.mem_singleton.mp h).symm
  | controller => simp [effects] at h
  | waiter => simp [effects] at h

/-- No mutex guards the contents of the buffers. -/
theorem State.seen_memory (s : State V σ) (k : Nat) :
    (s.seen.pipes k).memory = (s.now.pipes k).memory :=
  Calls.State.seen_memory (s.pipe k)

/-- A step takes effect as it is, not at all, or as a call that nobody has seen yet. -/
theorem effects_cases {l : Label V σ} (hstep : Locked.step b s l = some s') :
    (effects b s l = [l] ∧
        ∀ u a, l = .worker u a → (s.now.role u).call (s.now.impls u) = none) ∨
      effects b s l = [] ∨
      ∃ (u : Nat) (a : Answer V σ) (ok : Bool) (side : Side) (f : Bool → Operation),
        effects b s l = [.worker u { a with ok }] ∧
        (s.now.role u).call (s.now.impls u) = some (side, f) ∧
        s.seen.impls u = s.now.impls u := by
  cases l with
  | worker u a =>
      cases hcall : (s.now.role u).call (s.now.impls u) with
      | none =>
          refine .inl ⟨by simp only [effects, hcall], ?_⟩
          rintro _ _ ⟨⟩
          exact hcall
      | some pipeCall =>
          obtain ⟨side, f⟩ := pipeCall
          refine .inr ?_
          by_cases hphase : s.phase u = .call
          case neg => exact .inl (by simp only [effects, hcall, if_neg hphase])
          simp only [effects, hcall, if_pos hphase]
          unfold Locked.step at hstep
          split at hstep
          · cases hstep
          · simp only [hcall] at hstep
            split at hstep
            case isFalse => cases hstep
            obtain ⟨c, hc, _⟩ := Option.map_eq_some_iff.mp hstep
            rcases Calls.step_ways hc with ⟨hmade, hbefore, _⟩ | ⟨hnone, _⟩ | ⟨hnone, _⟩
            · refine .inr ⟨u, a, _, side, f, by rw [hmade]; rfl, hcall, ?_⟩
              show s.implSeen u = _
              have hentered : entered ((s.calls (side.pipe u)).locks.pc u) = false := hbefore
              rw [State.implSeen, State.pending_of_call hphase hcall, hentered]
              rfl
            · exact .inl (by rw [hnone]; rfl)
            · exact .inl (by rw [hnone]; rfl)
  | _ => exact .inl ⟨rfl, by rintro _ _ ⟨⟩⟩

/-- Conditions on the callbacks carry over to what is seen. -/
theorem takes_effects {Q : Pipeline.State V σ → Label V σ → Prop} {l : Label V σ}
    (hstep : Locked.step b s l = some s')
    (hplain : (∀ u a, l = .worker u a → (s.now.role u).call (s.now.impls u) = none) → Q s.seen l)
    (hcalls : ∀ u a, (s.seen.impls u).pc ≠ .process → (s.seen.impls u).pc ≠ .callback →
      Q s.seen (.worker u a)) : Takes Pipeline.step Q s.seen (effects b s l) := by
  rcases effects_cases hstep with ⟨heffects, hcall⟩ | heffects |
    ⟨u, a, ok, side, f, heffects, hcall, hsame⟩ <;> rw [heffects]
  · exact ⟨hplain hcall, fun _ _ => trivial⟩
  · trivial
  · obtain ⟨hprocess, hcallback⟩ := (Role.call_cases hcall).pc_ne
    refine ⟨hcalls u _ ?_ ?_, fun _ _ => trivial⟩ <;> rwa [hsame]

theorem Obeys.effects {nodes : Nat → Node V σ} (hs : Inv b s) {l : Label V σ}
    (hstep : Locked.step b s l = some s') (hobeys : Obeys nodes s.now l) :
    Takes Pipeline.step (Obeys nodes) s.seen (effects b s l) := by
  refine takes_effects hstep (fun hcall => ?_) fun u a hprocess hcallback _ =>
    ⟨fun h => absurd h hprocess, fun h => absurd h hcallback⟩
  cases l with
  | worker u a =>
      intro hle
      have himpl : s.seen.impls u = s.now.impls u := hs.implSeen_eq (hcall u a rfl)
      have hobeys := hobeys hle
      unfold View.Obeys View.content at hobeys ⊢
      simp only [Pipeline.State.view, himpl, State.seen_memory] at hobeys ⊢
      exact hobeys
  | _ => trivial

theorem PushesWritten.effects (hs : Inv b s) {l : Label V σ}
    (hstep : Locked.step b s l = some s') (hwritten : PushesWritten s.now l) :
    Takes Pipeline.step PushesWritten s.seen (effects b s l) := by
  refine takes_effects hstep (fun hcall => ?_) fun u a _ hcallback _ h =>
    absurd h hcallback
  cases l with
  | worker u a =>
      intro hle
      have himpl : s.seen.impls u = s.now.impls u := hs.implSeen_eq (hcall u a rfl)
      have hwritten := hwritten hle
      unfold View.PushesWritten at hwritten ⊢
      simp only [Pipeline.State.view, himpl] at hwritten ⊢
      exact hwritten
  | _ => trivial

/-- **One stream, under the mutexes.**  The threads of a fresh pipeline with filled pipes
and its callers make any steps, one statement after the other, without a disable call.
The callbacks of the source and the stages are functions and push only what they have
written.  What a stage or the sink receives, in the order in which its thread gets the
mutex of the queue, begins the sequence that the unit before it computes when the units
run one after the other over unbounded queues. -/
theorem locked_streams_determined {nodes : Nat → Node V σ} {s₀ : Pipeline.State V σ}
    (hs₀ : Created s₀) (hfilled : ∀ u ≤ s₀.nStages, Filled (s₀.pipes (u + 1)))
    {ls : List (Label V σ)} (hsession : .call .disable ∉ ls)
    (htruly : b.assertions = true → Takes (step b) (AnswersTruly b) (start b s₀) ls)
    (hobeys : Takes (step b) (fun s l => Obeys nodes s.now l) (start b s₀) ls)
    (hwritten : Takes (step b) (fun s l => PushesWritten s.now l) (start b s₀) ls)
    (hrun : run (step b) (start b s₀) ls = some s) :
    ∀ u ≤ s₀.nStages,
      Begins (observe (step b) (received b (u + 1)) (start b s₀) ls) (sequence nodes u) := by
  have hstart : (start b s₀).seen = s₀ := (start_quiet b s₀).seen
  have hinv : Inv b (start b s₀) ∧ Shape (start b s₀).seen :=
    ⟨start_inv b, by rw [hstart]; exact hs₀.shape⟩
  have htruly := takes_truly htruly
  have hseen (s : State V σ) (l : Label V σ) (s' : State V σ) (hs : Inv b s ∧ Shape s.seen)
      (hl : b.assertions = true → AnswersTruly b s l) (hnext : step b s l = some s') :=
    Inv.step_and_shape hs hl hnext
  have hrun' := run_simulates_of_takes hseen hinv htruly hrun
  have hobeys' : Takes Pipeline.step (Obeys nodes) (start b s₀).seen
      (observe (step b) (effects b) (start b s₀) ls) :=
    takes_simulates (fun s l s' hs hl => hseen s l s' hs hl.1)
      (fun s l s' hs hl hnext => Obeys.effects hs.1 hnext hl.2) hinv (htruly.and hobeys) hrun
  have hwritten' : Takes Pipeline.step PushesWritten (start b s₀).seen
      (observe (step b) (effects b) (start b s₀) ls) :=
    takes_simulates (fun s l s' hs hl => hseen s l s' hs hl.1)
      (fun s l s' hs hl hnext => PushesWritten.effects hs.1 hnext hl.2) hinv
      (htruly.and hwritten) hrun
  have hsession' : .call .disable ∉ observe (step b) (effects b) (start b s₀) ls := by
    intro h
    obtain ⟨s, l, hl, heffect⟩ := mem_observe h
    rw [eq_disable_of_mem_effects heffect] at hl
    exact hsession hl
  rw [hstart] at hrun' hobeys' hwritten'
  have hflow := FlowInv.of_run hs₀ hfilled hsession' hobeys' hwritten' hrun'
  intro u hu
  have hreceived : observe (step b) (received b (u + 1)) (start b s₀) ls =
      observe Pipeline.step (Pipeline.received (u + 1)) s₀
        (observe (step b) (effects b) (start b s₀) ls) := by
    have h : observe Pipeline.step (Pipeline.received (u + 1)) (start b s₀).seen
        (observe (step b) (effects b) (start b s₀) ls) =
          observe (step b) (received b (u + 1)) (start b s₀) ls :=
      observe_simulates hseen hinv htruly hrun
    rw [hstart] at h
    exact h.symm
  rw [hreceived]
  have hu : u ≤ s.seen.nStages := hflow.own.nStages ▸ hu
  exact (hflow.begins_sent hu).of_isPrefix (hflow.received_isPrefix hu)

/-- A release build for C11 threads. -/
def release : Build := ⟨.c11, false⟩

/-- The source has the mutex of the pool when the sink gets the one of the queue. -/
def bothLocked : List (Label Bool Bool) :=
  enableAndStart ++ returning 0 20 ⟨true, some true, true, true⟩ ++
    returning 1 8 ⟨true, none, false, true⟩

theorem locked_streams_determined_bothLocked :
    observe (step release) (received release 1) (start release (smallestOf false false))
        bothLocked = [true] ∧
      Begins (observe (step release) (received release 1)
        (start release (smallestOf false false)) bothLocked) (sequence (fun _ => fill true) 0) :=
  ⟨by decide +kernel, locked_streams_determined (smallestOf_created false false)
    (fun u _ => smallestOf_filled false false (u + 1))
    (by simp [bothLocked, enableAndStart, returning, controllerSteps]) (fun h => by cases h)
    (by decide +kernel) (by decide +kernel)
    (s := (run (step release) (start release (smallestOf false false)) bothLocked).get
      (by decide +kernel))
    (Option.some_get _).symm 0 (Nat.le_refl 0)⟩

end Locked

end Mtdp.Pipeline
