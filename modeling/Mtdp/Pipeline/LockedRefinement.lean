import Mtdp.Pipeline.Locked
import Mtdp.Pipeline.Shape

/-!
# What is seen of a pipeline under the mutexes of its pipes

A thread that has the mutex of a call is seen at the end of the call, and so is the
pipe; before that it is seen where it is.  A step of a thread is then seen as a step of
`Mtdp.Pipeline.Control`, or not at all.

## Main results

* `Inv.callStep` — a step of a thread that is in a function of a pipe.
* `Inv.plain` — a step of a thread that is in none.
-/

namespace Mtdp.Pipeline

open Lib.Critical Lib.Transition Calls

variable {V σ : Type}

/-! ## Threads in a call -/

/-- A thread in a call does not rest, nor does it once the call is over. -/
theorem CallsPipe.not_resting {role : Role} {i : Impl V σ} {side : Side} {f : Bool → Operation}
    (hcalls : CallsPipe role i side f) :
    ¬ i.pc.Resting ∧ ∀ r, ¬ (i.resume role r).pc.Resting := by
  have hresume (hpc : ¬ i.pc.Resting) (r : Result) : ¬ (i.resume role r).pc.Resting := by
    unfold Impl.resume
    split
    case h_1 ok _ => cases ok <;> simp [Pc.Resting]
    case h_3 => cases role <;> simp [Pc.Resting, Role.afterPull]
    case h_8 => exact hpc
    all_goals simp [Pc.Resting]
  suffices hpc : ¬ i.pc.Resting from ⟨hpc, hresume hpc⟩
  cases hcalls <;> simp [Pc.Resting, *]

/-- What the allocator answers is part of the call. -/
theorem CallsPipe.answered {role : Role} {i : Impl V σ} {side : Side} {f : Bool → Operation}
    (hcalls : CallsPipe role i side f) (ok : Bool) : f (answered (f ok)) = f ok := by
  cases hcalls <;> rfl

/-- These functions take one mutex. -/
theorem CallsPipe.job {role : Role} {i : Impl V σ} {side : Side} {f : Bool → Operation}
    (hcalls : CallsPipe role i side f) (ok : Bool) : (f ok).job ≠ .both := by
  cases hcalls <;> rintro ⟨⟩

/-- A call at once, for the whole pipeline. -/
theorem State.putView_called (s : State V σ) (u : Nat) (role : Role) (f : Operation)
    (side : Side) :
    s.putView u ((s.view u).called role f side) =
      (s.setImpl u ((s.impls u).resume role (f.run (s.pipes (side.pipe u))).2)).setPipe
        (side.pipe u) (f.run (s.pipes (side.pipe u))).1 := by
  have hpipes (k : Nat) : Function.update s.pipes k (s.pipes k) = s.pipes :=
    Function.update_eq_self k s.pipes
  cases side with
  | input =>
      simp only [putView, setPipe, setImpl, View.called, Side.pipe, view]
      rw [Function.update_comm (by omega), hpipes]
  | output =>
      simp only [putView, setPipe, setImpl, View.called, Side.pipe, view]
      rw [hpipes]

namespace Locked

/-! ## What is seen of a state -/

namespace State

/-- What the function a thread is in is going to return, if that is settled. -/
def pending (s : State V σ) (u : Nat) : Option Result :=
  match s.phase u, (s.now.role u).call (s.now.impls u) with
  | .after r, _ => some r
  | .call, some (side, _) =>
      if entered ((s.calls (side.pipe u)).locks.pc u) then (s.pipe (side.pipe u)).seen.result u
      else none
  | _, _ => none

/-- A unit once the call its thread is in is over. -/
def implSeen (s : State V σ) (u : Nat) : Impl V σ :=
  match s.pending u with
  | some r => (s.now.impls u).resume (s.now.role u) r
  | none => s.now.impls u

/-- The pipeline once the calls under way are over. -/
def seen (s : State V σ) : Pipeline.State V σ :=
  { s.now with impls := s.implSeen, pipes := fun k => (s.pipe k).seen.channel }

end State

/-- A call takes effect when its thread gets the mutex; assertions have none. -/
def effects (b : Build) (s : State V σ) : Label V σ → List (Label V σ)
  | .worker u a =>
      match (s.now.role u).call (s.now.impls u) with
      | none => [.worker u a]
      | some (side, f) =>
          if s.phase u = .call then
            (Calls.effects b.platform (s.pipe (side.pipe u)) ⟨u, s.operation u (f a.ok)⟩).map
              fun call => .worker u { a with ok := answered call.2 }
          else []
  | l => [l]

namespace State

variable {s s' : State V σ} {u k : Nat}

@[simp] theorem pipe_toProgress : (s.pipe k).toProgress = s.calls k := rfl

@[simp] theorem putPipe_calls_self (c : Calls.State V Nat) :
    (s.putPipe k c).calls k = c.toProgress := by
  simp [putPipe]

theorem putPipe_calls_of_ne (c : Calls.State V Nat) {j : Nat} (hne : j ≠ k) :
    (s.putPipe k c).calls j = s.calls j := by
  simp [putPipe, hne]

@[simp] theorem putPipe_impls (c : Calls.State V Nat) :
    (s.putPipe k c).now.impls = s.now.impls := rfl

@[simp] theorem putPipe_role (c : Calls.State V Nat) :
    (s.putPipe k c).now.role = s.now.role := rfl

@[simp] theorem pipe_putPipe_self (c : Calls.State V Nat) : (s.putPipe k c).pipe k = c := by
  simp [pipe, putPipe]

theorem pipe_putPipe_of_ne (c : Calls.State V Nat) {j : Nat} (hne : j ≠ k) :
    (s.putPipe k c).pipe j = s.pipe j := by
  simp [pipe, putPipe, hne]

/-- Nothing has happened to a unit and to the call its thread is in. -/
structure SameUnit (s s' : State V σ) (u : Nat) : Prop where
  nStages : s'.now.nStages = s.now.nStages
  phase : s'.phase u = s.phase u
  impl : s'.now.impls u = s.now.impls u
  pc : ∀ k, (s'.calls k).locks.pc u = (s.calls k).locks.pc u
  call : ∀ k, (s'.calls k).call u = (s.calls k).call u
  result : ∀ k, (s'.pipe k).seen.result u = (s.pipe k).seen.result u

theorem SameUnit.trans {s'' : State V σ} (h : SameUnit s s' u) (h' : SameUnit s' s'' u) :
    SameUnit s s'' u where
  nStages := h'.nStages.trans h.nStages
  phase := h'.phase.trans h.phase
  impl := h'.impl.trans h.impl
  pc k := (h'.pc k).trans (h.pc k)
  call k := (h'.call k).trans (h.call k)
  result k := (h'.result k).trans (h.result k)

theorem SameUnit.role (h : SameUnit s s' u) : s'.now.role u = s.now.role u := by
  unfold Pipeline.State.role
  rw [h.nStages]

theorem SameUnit.implSeen (h : SameUnit s s' u) : s'.implSeen u = s.implSeen u := by
  have hpending : s'.pending u = s.pending u := by
    unfold pending
    simp only [h.phase, h.role, h.impl, h.pc, h.result]
  unfold State.implSeen
  rw [hpending, h.impl, h.role]

/-- A function returns, or an assertion does. -/
inductive Unlocks (b : Build) (s : State V σ) (u : Nat) (r : Result) : State V σ → Prop
  | asserted : s.phase u = .before → r = .bool true → Unlocks b s u r (s.setPhase u .call)
  | called : s.phase u = .call → b.assertions = true →
      Unlocks b s u r (s.setPhase u (.after r))
  | returned : s.phase u = .call → b.assertions = false → Unlocks b s u r (s.resume u r)
  | assertedAfter {r' : Result} : s.phase u = .after r' → r = .bool true →
      Unlocks b s u r ((s.resume u r').setPhase u .before)
  | failed : s.phase u ≠ .call → r ≠ .bool true → Unlocks b s u r { s with aborted := true }

theorem unlocked_unlocks (b : Build) (s : State V σ) (u : Nat) (r : Result) :
    Unlocks b s u r (s.unlocked b u (some r)) := by
  unfold unlocked
  split
  case h_1 hphase hr => exact .asserted hphase (Option.some.inj hr)
  case h_2 hphase hr =>
    obtain rfl := Option.some.inj hr
    split
    · exact .called hphase ‹_›
    · exact .returned hphase (Bool.eq_false_iff.mpr ‹_›)
  case h_3 hphase hr => exact .assertedAfter hphase (Option.some.inj hr)
  case h_4 hbefore hcall hafter =>
    refine .failed (fun hphase => hcall r hphase rfl) ?_
    rintro rfl
    cases hphase : s.phase u with
    | before => exact hbefore hphase rfl
    | call => exact hcall _ hphase rfl
    | after r' => exact hafter r' hphase rfl

theorem pending_of_call (hphase : s.phase u = .call) {side : Side} {f : Bool → Operation}
    (hcall : (s.now.role u).call (s.now.impls u) = some (side, f)) : s.pending u =
      if entered ((s.calls (side.pipe u)).locks.pc u) then (s.pipe (side.pipe u)).seen.result u
      else none := by
  rw [pending, hphase, hcall]

/-- The call has not begun, or has been over for a while. -/
theorem pending_of_idle (hphase : s.phase u = .call)
    (hidle : ∀ k, (s.calls k).locks.pc u = .idle) : s.pending u = none := by
  rw [pending, hphase]
  cases (s.now.role u).call (s.now.impls u) with
  | none => rfl
  | some pipeCall => simp [hidle, entered]

theorem pending_of_before (hphase : s.phase u = .before) : s.pending u = none := by
  rw [pending, hphase]

theorem pending_of_after {r : Result} (hphase : s.phase u = .after r) : s.pending u = some r := by
  rw [pending, hphase]

theorem pending_putPipe {side : Side} {f : Bool → Operation} {c : Calls.State V Nat}
    (hcall : (s.now.role u).call (s.now.impls u) = some (side, f)) :
    (s.putPipe (side.pipe u) c).pending u =
      match s.phase u with
      | .before => none
      | .call => if entered (c.locks.pc u) then c.seen.result u else none
      | .after r => some r := by
  have hcall' : ((s.putPipe (side.pipe u) c).now.role u).call
      ((s.putPipe (side.pipe u) c).now.impls u) = some (side, f) := hcall
  have hphase : (s.putPipe (side.pipe u) c).phase u = s.phase u := rfl
  rw [pending, hcall', hphase]
  cases s.phase u <;> simp

/-- A thread that is about to call something, or nothing. -/
theorem pending_of_first {b : Build} (hphase : s.phase u = b.first)
    (hidle : ∀ k, (s.calls k).locks.pc u = .idle) : s.pending u = none := by
  rw [Build.first] at hphase
  split at hphase
  · exact pending_of_before hphase
  · exact pending_of_idle hphase hidle

end State

/-- The part of the invariant that is about one thread. -/
structure ThreadOk (b : Build) (s : State V σ) (u : Nat) : Prop where
  calling : ∀ k, (s.calls k).locks.pc u ≠ .idle → u ≤ s.now.nStages + 1 ∧
    ∃ side f ok, (s.now.role u).call (s.now.impls u) = some (side, f) ∧ side.pipe u = k ∧
      (s.calls k).call u = s.operation u (f ok)
  phase : (s.now.role u).call (s.now.impls u) = none → s.phase u = b.first
  asserts : s.phase u ≠ .call → b.assertions = true

/-- What holds of the calls under way. -/
structure Inv (b : Build) (s : State V σ) : Prop where
  pipes : ∀ k, Calls.Inv (s.pipe k)
  threads : ∀ u, ThreadOk b s u

theorem State.SameUnit.threadOk {b : Build} {s s' : State V σ} {u : Nat} (h : s.SameUnit s' u)
    (hs : ThreadOk b s u) : ThreadOk b s' u := by
  refine ⟨fun k hbusy => ?_, fun hcall => ?_, fun hphase => ?_⟩
  · have hoperation : s'.operation u = s.operation u := by
      funext f
      simp only [State.operation, h.phase]
    rw [h.pc] at hbusy
    rw [h.nStages, h.role, h.impl, h.call, hoperation]
    exact hs.calling k hbusy
  · rw [h.role, h.impl] at hcall
    rw [h.phase]
    exact hs.phase hcall
  · rw [h.phase] at hphase
    exact hs.asserts hphase

/-- A step of one thread. -/
theorem Inv.of_others {b : Build} {s s' : State V σ} {u : Nat} (hs : Inv b s)
    (hothers : ∀ w, w ≠ u → s.SameUnit s' w) (hpipes : ∀ k, Calls.Inv (s'.pipe k))
    (hself : ThreadOk b s' u) : Inv b s' := by
  refine ⟨hpipes, fun w => ?_⟩
  by_cases hne : w = u
  · subst hne
    exact hself
  · exact (hothers w hne).threadOk (hs.threads w)

/-- The units that are seen after it. -/
theorem State.implSeen_of_others {s s' : State V σ} {u : Nat}
    (hothers : ∀ w, w ≠ u → s.SameUnit s' w) :
    s'.implSeen = Function.update s.implSeen u (s'.implSeen u) := by
  funext w
  by_cases hne : w = u
  · subst hne
    rw [Function.update_self]
  · rw [Function.update_of_ne hne, (hothers w hne).implSeen]

/-- What is seen after it, when the controller has not moved. -/
theorem State.seen_of_others {s s' : State V σ} {u : Nat}
    (hothers : ∀ w, w ≠ u → s.SameUnit s' w)
    (hnow : s'.now = { s.now with impls := s'.now.impls, pipes := s'.now.pipes }) :
    s'.seen = { s.seen with
      impls := Function.update s.seen.impls u (s'.implSeen u)
      pipes := fun k => (s'.pipe k).seen.channel } := by
  have himpls := State.implSeen_of_others hothers
  unfold seen
  rw [hnow]
  simp only
  rw [← himpls]

/-- A thread that calls nothing is in none of the functions of the pipes. -/
theorem Inv.idle {b : Build} {s : State V σ} (hs : Inv b s) {u : Nat}
    (hcall : (s.now.role u).call (s.now.impls u) = none) (k : Nat) :
    (s.calls k).locks.pc u = .idle := by
  by_contra hbusy
  obtain ⟨_, side, f, _, hsome, _⟩ := (hs.threads u).calling k hbusy
  rw [hcall] at hsome
  cases hsome

/-- It is seen as it is. -/
theorem Inv.implSeen_eq {b : Build} {s : State V σ} (hs : Inv b s) {u : Nat}
    (hcall : (s.now.role u).call (s.now.impls u) = none) : s.implSeen u = s.now.impls u := by
  rw [State.implSeen, State.pending_of_first ((hs.threads u).phase hcall) (hs.idle hcall)]

/-! ## Steps of a call -/

section CallSteps

variable {b : Build} {s : State V σ} {u : Nat} {side : Side} {f : Bool → Operation} {ok : Bool}
  {c : Calls.State V Nat}

/-- The others are seen as before. -/
theorem Inv.others (hs : Inv b s) {k : Nat} {f : Operation}
    (htruly : Calls.AnswersTruly b.platform (s.pipe k) ⟨u, f⟩)
    (hstep : Calls.step b.platform (s.pipe k) ⟨u, f⟩ = some c) {w : Nat} (hne : w ≠ u) :
    s.SameUnit (s.putPipe k c) w := by
  obtain ⟨_, hseen⟩ := (hs.pipes k).step htruly hstep
  obtain ⟨hframe, _⟩ := Calls.step_frame hstep
  refine ⟨rfl, rfl, rfl, fun j => ?_, fun j => ?_, fun j => ?_⟩ <;> by_cases hj : j = k
  · subst hj
    simpa using (hframe w hne).1
  · rw [State.putPipe_calls_of_ne _ hj]
  · subst hj
    simpa using (hframe w hne).2
  · rw [State.putPipe_calls_of_ne _ hj]
  · subst hj
    rw [State.pipe_putPipe_self]
    rcases Calls.step_ways hstep with ⟨heffects, _⟩ | ⟨heffects, _⟩ | ⟨heffects, _⟩ <;>
      rw [heffects] at hseen
    · obtain ⟨m, hcall, hseen⟩ := run_cons.mp hseen
      rw [← Option.some.inj hseen, ← Option.some.inj hcall]
      exact Function.update_of_ne hne ..
    · rw [Option.some.inj hseen]
    · rw [Option.some.inj hseen]
  · rw [State.pipe_putPipe_of_ne _ hj]

/-- A thread in a function of a pipe is in no other. -/
theorem Inv.idle_elsewhere (hs : Inv b s)
    (hcall : (s.now.role u).call (s.now.impls u) = some (side, f)) {k : Nat}
    (hk : k ≠ side.pipe u) : (s.calls k).locks.pc u = .idle := by
  by_contra hbusy
  obtain ⟨_, side', f', _, hsome, hpipe, _⟩ := (hs.threads u).calling k hbusy
  rw [hcall] at hsome
  cases hsome
  exact hk hpipe.symm

theorem Inv.putPipe (hs : Inv b s) (hu : u ≤ s.now.nStages + 1)
    (hcall : (s.now.role u).call (s.now.impls u) = some (side, f))
    (htruly : Calls.AnswersTruly b.platform (s.pipe (side.pipe u)) ⟨u, s.operation u (f ok)⟩)
    (hstep : Calls.step b.platform (s.pipe (side.pipe u)) ⟨u, s.operation u (f ok)⟩ = some c) :
    Inv b (s.putPipe (side.pipe u) c) := by
  obtain ⟨hc, _⟩ := (hs.pipes _).step htruly hstep
  obtain ⟨_, hmade⟩ := Calls.step_frame hstep
  refine hs.of_others (fun w hne => hs.others htruly hstep hne) (fun k => ?_)
    ⟨fun k hbusy => ?_, (hs.threads u).phase, (hs.threads u).asserts⟩
  · by_cases hk : k = side.pipe u
    · subst hk
      rw [State.pipe_putPipe_self]
      exact hc
    · rw [State.pipe_putPipe_of_ne _ hk]
      exact hs.pipes k
  · by_cases hk : k = side.pipe u
    · subst hk
      refine ⟨hu, side, f, ?_⟩
      have hcalled : ∃ ok, c.call u = s.operation u (f ok) := by
        simp only at hmade
        split at hmade
        · exact ⟨ok, hmade⟩
        · obtain ⟨_, side', f', ok', hsome, _, hcalled⟩ := (hs.threads u).calling _ ‹_›
          rw [hcall] at hsome
          cases hsome
          exact ⟨ok', hmade.trans hcalled⟩
      obtain ⟨ok', hcalled⟩ := hcalled
      exact ⟨ok', hcall, rfl, by rw [State.putPipe_calls_self]; exact hcalled⟩
    · rw [State.putPipe_calls_of_ne _ hk] at hbusy
      exact absurd (hs.idle_elsewhere hcall hk) hbusy

/-- A step of one thread that leads to the same unit and the same pipes. -/
theorem State.seen_of_same {s' : State V σ} (hothers : ∀ w, w ≠ u → s.SameUnit s' w)
    (hnow : s'.now = { s.now with impls := s'.now.impls, pipes := s'.now.pipes })
    (himpl : s'.implSeen u = s.implSeen u)
    (hpipes : ∀ k, (s'.pipe k).seen.channel = (s.pipe k).seen.channel) : s'.seen = s.seen := by
  rw [State.seen_of_others hothers hnow, himpl, show s.implSeen u = s.seen.impls u from rfl,
    Function.update_eq_self, show (fun k => (s'.pipe k).seen.channel) = s.seen.pipes from
      funext hpipes]

theorem State.seen_pipe_putPipe {k : Nat} (hchannel : c.seen.channel = (s.pipe k).seen.channel)
    (j : Nat) : ((s.putPipe k c).pipe j).seen.channel = (s.pipe j).seen.channel := by
  by_cases hj : j = k
  · subst hj
    rw [State.pipe_putPipe_self, hchannel]
  · rw [State.pipe_putPipe_of_ne _ hj]

/-- The call goes on, and does not take effect now. -/
theorem Inv.goesOn (hs : Inv b s)
    (hcall : (s.now.role u).call (s.now.impls u) = some (side, f))
    (htruly : Calls.AnswersTruly b.platform (s.pipe (side.pipe u)) ⟨u, s.operation u (f ok)⟩)
    (hstep : Calls.step b.platform (s.pipe (side.pipe u)) ⟨u, s.operation u (f ok)⟩ = some c)
    (hseen : c.seen = (s.pipe (side.pipe u)).seen)
    (hentered : entered (c.locks.pc u) = entered ((s.calls (side.pipe u)).locks.pc u)) :
    (s.putPipe (side.pipe u) c).seen = s.seen := by
  refine State.seen_of_same (fun w hne => hs.others htruly hstep hne) rfl ?_
    (State.seen_pipe_putPipe (by rw [hseen]))
  have hpending : (s.putPipe (side.pipe u) c).pending u = s.pending u := by
    rw [State.pending_putPipe hcall, hentered, hseen, State.pending]
    cases s.phase u <;> simp only [hcall]
  rw [State.implSeen, State.implSeen, hpending]
  rfl

/-- **The call takes effect.** -/
theorem Inv.enters (hs : Inv b s) {a : Answer V σ} (hu : u ≤ s.now.nStages + 1)
    (hcall : (s.now.role u).call (s.now.impls u) = some (side, f))
    (htruly : Calls.AnswersTruly b.platform (s.pipe (side.pipe u)) ⟨u, s.operation u (f a.ok)⟩)
    (hstep : Calls.step b.platform (s.pipe (side.pipe u)) ⟨u, s.operation u (f a.ok)⟩ = some c)
    (heffects : Calls.effects b.platform (s.pipe (side.pipe u)) ⟨u, s.operation u (f a.ok)⟩ =
      [(u, (s.calls (side.pipe u)).call u)])
    (hbefore : entered ((s.calls (side.pipe u)).locks.pc u) = false)
    (hbusy : (s.calls (side.pipe u)).locks.pc u ≠ .idle)
    (hentered : entered (c.locks.pc u) = true) :
    run Pipeline.step s.seen (effects b s (.worker u a)) =
      some (s.putPipe (side.pipe u) c).seen := by
  obtain ⟨_, hseen⟩ := (hs.pipes _).step htruly hstep
  rw [heffects] at hseen
  obtain ⟨m, hmade, hseen⟩ := run_cons.mp hseen
  obtain rfl := Option.some.inj hseen
  have hc := (Option.some.inj hmade).symm
  obtain ⟨_, side', f', ok, hsome, _, hcalled⟩ := (hs.threads u).calling _ hbusy
  rw [hcall] at hsome
  cases hsome
  rw [hcalled] at hc heffects
  have hresult : (s.putPipe (side.pipe u) c).implSeen u =
      if s.phase u = .call then
        (s.now.impls u).resume (s.now.role u)
          ((f ok).run (s.pipe (side.pipe u)).seen.channel).2
      else s.implSeen u := by
    rw [State.implSeen, State.pending_putPipe hcall, hentered, hc, State.implSeen, State.pending]
    cases hphase : s.phase u <;> simp [State.operation, hphase]
  simp only [effects, hcall, heffects]
  by_cases hphase : s.phase u = .call
  · have himpl : s.implSeen u = s.now.impls u := by
      rw [State.implSeen, State.pending_of_call hphase hcall, hbefore]
      rfl
    rw [if_pos hphase] at hresult
    have hcall' : (s.seen.role u).call (s.seen.view u).impl = some (side, f) := by
      rw [State.view_impl, show s.seen.impls u = s.implSeen u from rfl, himpl]
      exact hcall
    rw [if_pos hphase]
    refine run_cons.mpr ⟨_, ?_, rfl⟩
    simp only [Pipeline.step]
    rw [if_pos (show u ≤ s.seen.nStages + 1 from hu), workerRoutine_of_call hcall',
      Option.map_some, State.putView_called,
      State.seen_of_others (fun w hne => hs.others htruly hstep hne) rfl, hresult]
    have hoperation : f (answered (s.operation u (f ok))) = f ok := by
      rw [State.operation, if_pos hphase]
      exact (Role.call_cases hcall).answered ok
    have hpipes : (fun k => ((s.putPipe (side.pipe u) c).pipe k).seen.channel) =
        Function.update s.seen.pipes (side.pipe u)
          ((f ok).run (s.pipe (side.pipe u)).seen.channel).1 := by
      funext k
      by_cases hk : k = side.pipe u
      · subst hk
        rw [State.pipe_putPipe_self, Function.update_self, hc, State.operation, if_pos hphase]
      · rw [State.pipe_putPipe_of_ne _ hk, Function.update_of_ne hk]
        rfl
    rw [hpipes, hoperation, show s.seen.impls u = s.implSeen u from rfl, himpl]
    rfl
  · -- an assertion looks at the pipe and leaves it
    rw [if_neg hphase] at hresult
    rw [if_neg hphase]
    refine congrArg some (State.seen_of_same (fun w hne => hs.others htruly hstep hne) rfl hresult
      (State.seen_pipe_putPipe ?_)).symm
    rw [hc, State.operation, if_neg hphase]
    rfl

/-- The others are where they were, and so are the pipes. -/
theorem State.Unlocks.frame {r : Result} {s' : State V σ} (hunlocks : s.Unlocks b u r s') :
    (∀ w, w ≠ u → s.SameUnit s' w) ∧ s'.calls = s.calls ∧ s'.pipe = s.pipe ∧
      s'.now = { s.now with impls := s'.now.impls, pipes := s'.now.pipes } := by
  have hunits (w : Nat) (hne : w ≠ u) :
      s'.phase w = s.phase w ∧ s'.now.impls w = s.now.impls w := by
    cases hunlocks <;> simp [State.setPhase, State.resume, hne]
  obtain ⟨hcalls, hpipe, hnow⟩ : s'.calls = s.calls ∧ s'.pipe = s.pipe ∧
      s'.now = { s.now with impls := s'.now.impls, pipes := s'.now.pipes } := by
    cases hunlocks <;> exact ⟨rfl, rfl, rfl⟩
  refine ⟨fun w hne => ?_, hcalls, hpipe, hnow⟩
  exact ⟨by rw [hnow], (hunits w hne).1, (hunits w hne).2,
    fun k => by rw [hcalls], fun k => by rw [hcalls], fun k => by rw [hpipe]⟩

/-- The thread has left the function it was in, and may be in the next one. -/
theorem State.Unlocks.threadOk {r : Result} {s' : State V σ} (hs : ThreadOk b s u)
    (hcall : (s.now.role u).call (s.now.impls u) = some (side, f))
    (hidle : ∀ k, (s.calls k).locks.pc u = .idle) (hunlocks : s.Unlocks b u r s') :
    ThreadOk b s' u := by
  obtain ⟨_, hcalls, _, _⟩ := hunlocks.frame
  have hcalling (k : Nat) (hbusy : (s'.calls k).locks.pc u ≠ .idle) : False := by
    rw [hcalls] at hbusy
    exact hbusy (hidle k)
  have hbusy {q : CallPhase} (h : (s.now.role u).call (s.now.impls u) = none) : q = b.first := by
    rw [hcall] at h
    cases h
  suffices h : ((s'.now.role u).call (s'.now.impls u) = none → s'.phase u = b.first) ∧
      (s'.phase u ≠ .call → b.assertions = true) from
    ⟨fun k hk => (hcalling k hk).elim, h.1, h.2⟩
  cases hunlocks with
  | asserted => exact ⟨hbusy, fun h => absurd (Function.update_self ..) h⟩
  | called _ hasserts => exact ⟨hbusy, fun _ => hasserts⟩
  | returned hphase hasserts =>
      refine ⟨fun _ => ?_, fun h => absurd hphase h⟩
      rw [Build.first, hasserts]
      exact hphase
  | assertedAfter hphase =>
      have hasserts : b.assertions = true := hs.asserts (by rw [hphase]; rintro ⟨⟩)
      refine ⟨fun _ => ?_, fun _ => hasserts⟩
      rw [Build.first, hasserts]
      exact Function.update_self ..
  | failed => exact ⟨hbusy, hs.asserts⟩

/-- A function that returns has been seen to; an assertion is not seen. -/
theorem State.Unlocks.implSeen {r : Result} {s' : State V σ}
    (hidle : ∀ k, (s.calls k).locks.pc u = .idle) (hunlocks : s.Unlocks b u r s') :
    s'.implSeen u =
      if s.phase u = .call then (s.now.impls u).resume (s.now.role u) r else s.implSeen u := by
  cases hunlocks with
  | asserted hphase =>
      have hpending : (s.setPhase u .call).pending u = none :=
        State.pending_of_idle (Function.update_self ..) hidle
      rw [if_neg (by rw [hphase]; rintro ⟨⟩), State.implSeen, hpending, State.implSeen,
        State.pending_of_before hphase]
      rfl
  | called hphase =>
      have hpending : (s.setPhase u (.after r)).pending u = some r :=
        State.pending_of_after (Function.update_self ..)
      rw [if_pos hphase, State.implSeen, hpending]
      rfl
  | returned hphase =>
      have hpending : (s.resume u r).pending u = none := State.pending_of_idle hphase hidle
      rw [if_pos hphase, State.implSeen, hpending]
      exact Function.update_self ..
  | @assertedAfter r' hphase =>
      have hpending : ((s.resume u r').setPhase u .before).pending u = none :=
        State.pending_of_before (Function.update_self ..)
      rw [if_neg (by rw [hphase]; rintro ⟨⟩), State.implSeen, hpending, State.implSeen,
        State.pending_of_after hphase]
      exact Function.update_self ..
  | failed hphase =>
      rw [if_neg hphase]
      rfl

/-- **The call returns.** -/
theorem Inv.returns (hs : Inv b s)
    (hcall : (s.now.role u).call (s.now.impls u) = some (side, f))
    (hidle : ∀ k, (s.calls k).locks.pc u = .idle) {r : Result} {s' : State V σ}
    (hunlocks : s.Unlocks b u r s') : Inv b s' := by
  obtain ⟨hothers, _, hpipe, _⟩ := hunlocks.frame
  refine hs.of_others hothers (fun k => ?_) (hunlocks.threadOk (hs.threads u) hcall hidle)
  rw [hpipe]
  exact hs.pipes k

/-- What a call returns has been seen. -/
theorem State.returned_of_seen {k : Nat} (hseen : c.seen = (s.pipe k).seen)
    (hbefore : entered ((s.calls k).locks.pc u) = true) (hidle : c.locks.pc u = .idle) :
    ∃ r, (s.pipe k).seen.result u = some r ∧ c.result u = some r := by
  refine ⟨_, if_pos hbefore, ?_⟩
  have hown : c.seen.result u = c.result u := by
    simp only [Calls.State.seen, hidle]
    rfl
  rw [← hown, hseen]
  exact if_pos hbefore

/-- **A return** changes nothing that is seen. -/
theorem Inv.returning (hs : Inv b s)
    (hcall : (s.now.role u).call (s.now.impls u) = some (side, f))
    (htruly : Calls.AnswersTruly b.platform (s.pipe (side.pipe u)) ⟨u, s.operation u (f ok)⟩)
    (hstep : Calls.step b.platform (s.pipe (side.pipe u)) ⟨u, s.operation u (f ok)⟩ = some c)
    (hseen : c.seen = (s.pipe (side.pipe u)).seen)
    (hbefore : entered ((s.calls (side.pipe u)).locks.pc u) = true)
    (hidle : c.locks.pc u = .idle) (hput : Inv b (s.putPipe (side.pipe u) c)) :
    let s' := (s.putPipe (side.pipe u) c).unlocked b u (c.result u)
    Inv b s' ∧ run Pipeline.step s.seen [] = some s'.seen := by
  have hidle' (k : Nat) : ((s.putPipe (side.pipe u) c).calls k).locks.pc u = .idle := by
    by_cases hk : k = side.pipe u
    · subst hk
      simpa using hidle
    · rw [State.putPipe_calls_of_ne _ hk]
      exact hs.idle_elsewhere hcall hk
  obtain ⟨r, hresult, hreturned⟩ := State.returned_of_seen hseen hbefore hidle
  rw [hreturned]
  have hunlocks := State.unlocked_unlocks b (s.putPipe (side.pipe u) c) u r
  obtain ⟨hothers, _, hpipe, hnow⟩ := hunlocks.frame
  have himpl' : (s.putPipe (side.pipe u) c).implSeen u =
      if s.phase u = .call then s.now.impls u else s.implSeen u := by
    rw [State.implSeen, State.pending_putPipe hcall, hidle, State.implSeen, State.pending]
    cases s.phase u <;> simp [entered]
  refine ⟨hput.returns hcall hidle' hunlocks, congrArg some (State.seen_of_same
    (fun w hne => (hs.others htruly hstep hne).trans (hothers w hne)) hnow ?_ fun k => ?_).symm⟩
  · rw [hunlocks.implSeen hidle', himpl',
      show (s.putPipe (side.pipe u) c).phase u = s.phase u from rfl]
    by_cases hphase : s.phase u = .call
    · rw [if_pos hphase, State.implSeen, State.pending_of_call hphase hcall, if_pos hbefore,
        hresult]
      rfl
    · rw [if_neg hphase, if_neg hphase]
  · rw [hpipe]
    exact State.seen_pipe_putPipe (by rw [hseen]) k

/-- **One step of a call** is seen as the whole call or not at all. -/
theorem Inv.callStep (hs : Inv b s) {a : Answer V σ} (hu : u ≤ s.now.nStages + 1)
    (hcall : (s.now.role u).call (s.now.impls u) = some (side, f))
    (htruly : Calls.AnswersTruly b.platform (s.pipe (side.pipe u)) ⟨u, s.operation u (f a.ok)⟩)
    {s' : State V σ} (hrun : s.callStep b u (side.pipe u) (f a.ok) = some s') :
    Inv b s' ∧ run Pipeline.step s.seen (effects b s (.worker u a)) = some s'.seen := by
  obtain ⟨c, hstep, rfl⟩ := Option.map_eq_some_iff.mp hrun
  have hput := hs.putPipe hu hcall htruly hstep
  obtain ⟨hc, hseen⟩ := (hs.pipes _).step htruly hstep
  have heffects (hnone : Calls.effects b.platform (s.pipe (side.pipe u))
      ⟨u, s.operation u (f a.ok)⟩ = []) : effects b s (.worker u a) = [] := by
    simp only [effects, hcall, hnone, List.map_nil, ite_self]
  rcases Calls.step_ways hstep with ⟨hmade, hbefore, hbusy, hentered⟩ | ⟨hnone, hbusy, hentered⟩ |
    ⟨hnone, hbefore, hidle⟩
  · have hback : c.locks.pc u ≠ .idle := by
      intro h
      rw [show c.locks.pc u = .idle from h] at hentered
      cases hentered
    rw [if_neg hback]
    exact ⟨hput, hs.enters hu hcall htruly hstep hmade hbefore hbusy hentered⟩
  · rw [if_neg hbusy, heffects hnone]
    rw [hnone] at hseen
    exact ⟨hput, congrArg some
      (hs.goesOn hcall htruly hstep (Option.some.inj hseen).symm hentered).symm⟩
  · rw [if_pos hidle, heffects hnone]
    rw [hnone] at hseen
    exact hs.returning hcall htruly hstep (Option.some.inj hseen).symm hbefore hidle hput

end CallSteps

/-! ## Other steps -/

section Accesses

variable {f g : Channel V → Channel V} {u : Nat}

/-- What accesses to the two pipes of a unit do to all pipes. -/
def accesses (f g : Channel V → Channel V) (u k : Nat) : Channel V → Channel V :=
  if k = u + 1 then g else if k = u then f else id

theorem accesses_outside (hf : Outside f) (hg : Outside g) (k : Nat) :
    Outside (accesses f g u k) := by
  unfold accesses
  split
  · exact hg
  · split
    · exact hf
    · exact .id

theorem putView_accesses (s : Pipeline.State V σ) (i : Impl V σ) :
    (s.putView u ⟨i, f (s.pipes u), g (s.pipes (u + 1))⟩).pipes =
      fun k => accesses f g u k (s.pipes k) := by
  funext k
  unfold accesses
  by_cases hout : k = u + 1
  · subst hout
    simp
  · by_cases hin : k = u
    · subst hin
      simp
    · simp [Pipeline.State.putView, hout, hin]

end Accesses

section OtherSteps

variable {b : Build} {s : State V σ} {u : Nat}

/-- **A thread that calls nothing.** -/
theorem Inv.plain (hs : Inv b s) {a : Answer V σ} {now : Pipeline.State V σ}
    (hcall : (s.now.role u).call (s.now.impls u) = none)
    (hstep : Pipeline.step s.now (.worker u a) = some now) :
    let s' := { s with now }
    Inv b s' ∧ Pipeline.step s.seen (.worker u a) = some s'.seen ∧
      ∀ k, (s'.pipe k).seen.result = (s.pipe k).seen.result := by
  intro s'
  simp only [Pipeline.step] at hstep ⊢
  split at hstep
  case isFalse => cases hstep
  rename_i hu
  obtain ⟨v, hrun, rfl⟩ := Option.map_eq_some_iff.mp hstep
  obtain ⟨f, g, hf, hg, hv, hagain⟩ := workerRoutine_outside (v := s.now.view u) hcall hrun
  have hpipes : s'.now.pipes = fun k => accesses f g u k (s.now.pipes k) := by
    rw [← putView_accesses s.now v.impl]
    exact congrArg (fun w => (s.now.putView u w).pipes) hv
  have hseen (k : Nat) : Calls.Inv (s'.pipe k) ∧
      (s'.pipe k).seen = ⟨accesses f g u k (s.pipe k).seen.channel, (s.pipe k).seen.result⟩ := by
    simp only [State.pipe, hpipes]
    exact (hs.pipes k).outside (accesses_outside hf hg k)
  have hidle := hs.idle hcall
  have hphase := (hs.threads u).phase hcall
  have hothers (w : Nat) (hne : w ≠ u) : s.SameUnit s' w :=
    ⟨rfl, rfl, State.putView_impls_of_ne _ _ _ hne, fun _ => rfl, fun _ => rfl,
      fun k => by rw [(hseen k).2]⟩
  refine ⟨?_, ?_, fun k => by rw [(hseen k).2]⟩
  · exact hs.of_others hothers (fun k => (hseen k).1)
      ⟨fun k hbusy => absurd (hidle k) hbusy, fun _ => hphase, (hs.threads u).asserts⟩
  · -- the same step, from what is seen
    have himpl : s'.implSeen u = v.impl := by
      have hpending : s'.pending u = none := State.pending_of_first hphase hidle
      rw [State.implSeen, hpending]
      exact State.putView_impls_self ..
    have hview : s.seen.view u =
        ⟨s.now.impls u, (s.pipe u).seen.channel, (s.pipe (u + 1)).seen.channel⟩ := by
      simp only [Pipeline.State.view, State.seen, hs.implSeen_eq hcall]
    have hagain := hagain (s.pipe u).seen.channel (s.pipe (u + 1)).seen.channel
      (s.pipe u).seen_semaphore
    simp only [State.view_impl] at hagain
    rw [if_pos (show u ≤ s.seen.nStages + 1 from hu), hview,
      show s.seen.role u = s.now.role u from rfl, hagain, Option.map_some,
      State.seen_of_others hothers rfl, himpl]
    have hpipes : (fun k => (s'.pipe k).seen.channel) =
        (s.seen.putView u
          ⟨v.impl, f (s.pipe u).seen.channel, g (s.pipe (u + 1)).seen.channel⟩).pipes := by
      refine Eq.trans (funext fun k => ?_) (putView_accesses s.seen v.impl).symm
      rw [(hseen k).2]
      rfl
    rw [hpipes]
    rfl

end OtherSteps

end Locked

end Mtdp.Pipeline
