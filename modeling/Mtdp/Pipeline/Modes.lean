import Mtdp.Lib.Transition
import Mtdp.Pipeline.Moves

/-!
# What a controller sees of a pipeline

`include/mtdp/pipeline.h` describes a pipeline to its controller as a machine
with three states: disabled, enabled and active.  A call is legal in some of
them and leads to another; elsewhere it returns an error code and changes
nothing.

In the pipeline a call takes many steps, with those of the threads and of the
waiter in between, and it reads `enabled` and `active` once, at its start.
Still the answers of the calls are those of the machine, in any run.

## Main results

* `step_callsAnswered` — what one step adds to the calls and their answers.
* `calls_follow_modes` — the answers to the calls of a run.
-/

namespace Mtdp.Pipeline

open Lib.Transition

variable {V σ : Type}

/-! ## The machine -/

/-- The states of a pipeline, as its documentation has them. -/
inductive Mode where
  | disabled
  | enabled
  | active
  deriving DecidableEq, Repr

namespace Mode

/-- The answer to a call, and the state it leads to. -/
def call : Mode → Call → MtdpError × Mode
  | .disabled, .enable => (.ok, .enabled)
  | .disabled, _ => (.notEnabled, .disabled)
  | .enabled, .enable => (.enabled, .enabled)
  | .enabled, .start => (.ok, .active)
  | .enabled, .stop => (.enabled, .enabled)
  | .active, .enable => (.enabled, .active)
  | .active, .start => (.active, .active)
  | .active, .stop => (.ok, .enabled)
  | _, .disable => (.ok, .disabled)

/-- The state after some calls. -/
def after (m : Mode) (cs : List Call) : Mode := cs.foldl (fun m c => (m.call c).2) m

/-- The answers to some calls. -/
def answers : Mode → List Call → List (Call × MtdpError)
  | _, [] => []
  | m, c :: cs => (c, (m.call c).1) :: answers (m.call c).2 cs

theorem after_concat (m : Mode) (cs : List Call) (c : Call) :
    m.after (cs ++ [c]) = ((m.after cs).call c).2 := by
  simp [after]

theorem answers_concat (m : Mode) (cs : List Call) (c : Call) :
    m.answers (cs ++ [c]) = m.answers cs ++ [(c, ((m.after cs).call c).1)] := by
  induction cs generalizing m with
  | nil => rfl
  | cons c' cs ih =>
      rw [List.cons_append, answers, answers, ih, List.cons_append]
      rfl

/-- A call that is refused changes nothing. -/
theorem call_refused {m : Mode} {c : Call} (hne : (m.call c).1 ≠ .ok) : (m.call c).2 = m := by
  cases m <;> cases c <;> first | rfl | exact absurd rfl hne

end Mode

/-! ## The pipeline -/

/-- What the flags of the pipeline say. -/
def State.mode (s : State V σ) : Mode :=
  if s.enabled then if s.active then .active else .enabled else .disabled

/-- The call that is in progress. -/
def Controller.call : Controller → Option Call
  | .idle => none
  | .enabling _ => some .enable
  | .starting _ => some .start
  | .stopping _ => some .stop
  | .disabling | .destroying _ | .destroyed _ | .joining _ | .clearing _ | .returning _
  | .marking _ => some .disable

/-- The calls that a run begins. -/
def calls (ls : List (Label V σ)) : List Call :=
  ls.filterMap fun
    | .call c => some c
    | _ => none

theorem calls_concat (ls : List (Label V σ)) (l : Label V σ) :
    calls (ls ++ [l]) = calls ls ++ calls [l] := List.filterMap_append

/-- The calls `cs` have been begun and all but the one in progress have been
answered as the machine does. -/
def CallsAnswered (cs : List Call) (s : State V σ) : Prop :=
  match s.controller.call with
  | none => s.returned.reverse = Mode.disabled.answers cs ∧ s.mode = Mode.disabled.after cs
  | some c => ∃ cs', cs = cs' ++ [c] ∧ s.returned.reverse = Mode.disabled.answers cs' ∧
      s.mode = Mode.disabled.after cs' ∧ (s.mode.call c).1 = .ok

/-- The tests at the start of a call are those of the machine. -/
theorem State.beginCall_mode (s : State V σ) (c : Call) :
    ((s.mode.call c).1 ≠ .ok ∧ s.beginCall c = s.report c (s.mode.call c).1) ∨
      ((s.mode.call c).1 = .ok ∧ (s.beginCall c).controller.call = some c ∧
        (s.beginCall c).returned = s.returned ∧ (s.beginCall c).mode = s.mode) := by
  cases c <;> cases henabled : s.enabled <;> cases hactive : s.active <;>
    simp [State.beginCall, State.mode, Mode.call, Controller.call, henabled, hactive]

/-- A call goes on, or it returns and leads where the machine goes. -/
theorem controllerStep_mode {s s' : State V σ} {allocated : Nat → Bool}
    (hstep : s.controllerStep allocated = some s') :
    ∃ c, s.controller.call = some c ∧
      ((s'.controller.call = some c ∧ s'.returned = s.returned ∧ s'.mode = s.mode) ∨
        (s'.controller = .idle ∧ s'.returned = (c, .ok) :: s.returned ∧
          ((s.mode.call c).1 = .ok → s'.mode = (s.mode.call c).2))) := by
  cases controllerStep_move hstep <;> rename_i hcontroller
  case enabled =>
    refine ⟨.enable, by rw [hcontroller]; rfl, .inr ⟨rfl, rfl, ?_⟩⟩
    cases s.mode <;> simp [Mode.call, State.mode, State.report]
  case started =>
    refine ⟨.start, by rw [hcontroller]; rfl, .inr ⟨rfl, rfl, ?_⟩⟩
    cases henabled : s.enabled <;> cases hactive : s.active <;>
      simp [Mode.call, State.mode, State.report, henabled, hactive]
  case stopped =>
    refine ⟨.stop, by rw [hcontroller]; rfl, .inr ⟨rfl, rfl, ?_⟩⟩
    cases henabled : s.enabled <;> cases hactive : s.active <;>
      simp [Mode.call, State.mode, State.report, henabled, hactive]
  case disabled =>
    refine ⟨.disable, by rw [hcontroller]; rfl, .inr ⟨rfl, rfl, ?_⟩⟩
    cases s.mode <;> simp [Mode.call, State.mode, State.report]
  all_goals exact ⟨_, by rw [hcontroller]; rfl, .inl ⟨rfl, rfl, rfl⟩⟩

/-- **One step.** -/
theorem step_callsAnswered {s s' : State V σ} {l : Label V σ} {cs : List Call}
    (hs : CallsAnswered cs s) (hstep : step s l = some s') :
    CallsAnswered (cs ++ calls [l]) s' := by
  cases l with
  | worker u a =>
      obtain ⟨_, v, _, rfl⟩ := step_worker hstep
      exact (List.append_nil cs).symm ▸ hs
  | waiter =>
      cases hstep
      exact (List.append_nil cs).symm ▸ hs
  | call c =>
      change CallsAnswered (cs ++ [c]) s'
      simp only [step] at hstep
      split at hstep <;> cases hstep
      rename_i hidle
      obtain ⟨hreturned, hmode⟩ : _ ∧ _ := by simpa [CallsAnswered, hidle, Controller.call] using hs
      rcases s.beginCall_mode c with ⟨hrefused, heq⟩ | ⟨hok, hcall, hsame, hmode'⟩
      · rw [heq]
        refine ⟨?_, ?_⟩
        · simp [State.report, Mode.answers_concat, hreturned, hmode]
        · show s.mode = _
          rw [Mode.after_concat, ← hmode, Mode.call_refused hrefused]
      · rw [CallsAnswered, hcall]
        exact ⟨cs, rfl, hsame ▸ hreturned, hmode'.trans hmode, hmode' ▸ hok⟩
  | controller allocated =>
      obtain ⟨c, hcall, hgoes⟩ := controllerStep_mode hstep
      rw [CallsAnswered, hcall] at hs
      obtain ⟨cs', rfl, hreturned, hmode, hok⟩ := hs
      rw [show cs' ++ [c] ++ calls [.controller allocated] = cs' ++ [c] from List.append_nil _]
      rcases hgoes with ⟨hcall', hsame, hmode'⟩ | ⟨hidle, hanswer, hmode'⟩
      · rw [CallsAnswered, hcall']
        exact ⟨cs', rfl, hsame ▸ hreturned, hmode'.trans hmode, hmode' ▸ hok⟩
      · rw [CallsAnswered, hidle]
        refine ⟨?_, ?_⟩
        · rw [hanswer, List.reverse_cons, hreturned, Mode.answers_concat, ← hmode, hok]
        · rw [hmode' hok, hmode, Mode.after_concat]

/-- **The controller sees three states.**  In any run of a freshly created
pipeline, whatever its threads do in between, the calls that have returned
have been answered as the machine of the documentation answers them one after
the other, and between the calls the pipeline is in the state they lead to. -/
theorem calls_follow_modes {s t : State V σ} {ls : List (Label V σ)} (hs : Created s)
    (hrun : run step s ls = some t) (hidle : t.controller = .idle) :
    t.returned.reverse = Mode.disabled.answers (calls ls) ∧
      t.mode = Mode.disabled.after (calls ls) := by
  have ht : CallsAnswered (calls ls) t := by
    refine run_snoc_induction (motive := fun ls t => CallsAnswered (calls ls) t) ?_ ?_ hrun
    · rw [CallsAnswered, hs.controller]
      exact ⟨by rw [hs.returned]; rfl, by simp [State.mode, hs.enabled, Mode.after, calls]⟩
    · intro ls l s t _ hs hstep
      rw [calls_concat]
      exact step_callsAnswered hs hstep
  rwa [CallsAnswered, hidle] at ht

/-- Calls that are refused in between. -/
def refusedCalls : List (Label Unit Unit) :=
  [.call .stop, .call .enable] ++ controllerSteps 3 ++ [.call .enable, .call .start] ++
    controllerSteps 1 ++ threadSteps 0 1 true true false ++ controllerSteps 2 ++
    [.call .start, .call .stop] ++ controllerSteps 3

theorem calls_follow_modes_refusedCalls :
    let t := (run step smallest refusedCalls).get (by decide)
    t.returned.reverse = Mode.disabled.answers (calls refusedCalls) ∧
      t.mode = Mode.disabled.after (calls refusedCalls) :=
  calls_follow_modes smallest_created (Option.some_get _).symm (by decide)

end Mtdp.Pipeline
