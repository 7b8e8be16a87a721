import Mtdp.Pipeline.Shape

/-!
# The buffers a thread holds

A thread owns the buffer in `context.input` and the one in `context.output`.
`Impl.Consistent` says what the ready flags tell about them at which program
point.  A step of a thread then moves buffers between its context and its
pipes without losing or copying one.

## Main results

* `Move.consistent` — flags and buffers stay consistent.
* `Move.input_count`, `Move.output_count` — no buffer is lost or copied.
-/

namespace Mtdp.Pipeline

variable {V σ : Type}

namespace Impl

/-- The output buffer the producer still owns: what it has pushed belongs to
the queue.  Before its first thread starts, a unit holds nothing. -/
def heldOutput (i : Impl V σ) : List Nat :=
  if i.pc = .absent ∨ i.pc = .release then [] else i.output.toList

/-- The input buffer the consumer owns. -/
def heldInput (i : Impl V σ) : List Nat :=
  if i.pc = .absent then [] else i.input.toList

/-- A buffer that is ready exists, one is pulled into a free place, and the
callbacks have their buffers. -/
def Consistent (role : Role) (i : Impl V σ) : Prop :=
  (role ≠ .sink → i.readyToPush = true → i.output.isSome) ∧
  match i.pc with
  | .acquire => role = .sink ∨ i.readyToPull = true → i.input = none
  | .acquired | .getFull | .emptyGet => role ≠ .source → i.input = none
  | .process => role = .stage → i.input.isSome ∧ i.readyToPull = false
  | .callback | .finishing =>
      (role ≠ .sink → i.output.isSome) ∧ (role = .stage → i.input.isSome)
  | .recycle => role = .stage → i.input.isSome
  | _ => role = .stage → i.readyToPull = true → i.input = none

theorem heldOutput_of_ne {i : Impl V σ} (h : i.pc ≠ .absent ∧ i.pc ≠ .release) :
    i.heldOutput = i.output.toList := by
  simp [heldOutput, h]

theorem heldInput_of_ne {i : Impl V σ} (h : i.pc ≠ .absent) : i.heldInput = i.input.toList := by
  simp [heldInput, h]

end Impl

/-- A fresh thread has nothing. -/
theorem Role.createThread_consistent (role : Role) (i : Impl V σ) :
    (role.createThread i).Consistent role := by
  cases role <;> simp [Impl.Consistent, Role.createThread, sourceCreateThread, stageCreateThread,
    sinkCreateThread]

theorem Role.createThread_empty (role : Role) (i : Impl V σ) :
    (role ≠ .source → (role.createThread i).heldInput = []) ∧
      (role ≠ .sink → (role.createThread i).heldOutput = []) := by
  cases role <;> simp [Impl.heldInput, Impl.heldOutput, Role.createThread, sourceCreateThread,
    stageCreateThread, sinkCreateThread]

/-- A stage that has its input is not going to pull another one. -/
theorem Impl.readyToPull_eq_false {i : Impl V σ} (hpull : i.readyToPull = true → i.input = none)
    (hinput : i.input.isSome) : i.readyToPull = false := by
  by_contra hready
  rw [hpull (by simpa using hready)] at hinput
  cases hinput

theorem Goto.consistent {role : Role} {a : Answer V σ} {v : View V σ} {pc : Pc}
    (hgoto : Goto role a v pc) (hv : v.impl.Consistent role) :
    (v.goto pc).impl.Consistent role := by
  obtain ⟨hpush, hpc⟩ := hv
  refine ⟨hpush, ?_⟩
  cases hgoto
  case leave h _ => rcases h with h | h <;> simpa [View.goto, h] using hpc
  case enter h _ =>
    rw [h] at hpc
    cases role <;> exact hpc
  case skipPush h _ => cases role <;> simp_all [View.goto, Role.afterPush]
  case skipPull h hpull => cases role <;> simp_all [View.goto, Role.afterPull]
  case hasOutput h hinput _ =>
    simp only [h] at hpc
    exact fun hstage => ⟨hinput hstage, Impl.readyToPull_eq_false (hpc hstage) (hinput hstage)⟩
  all_goals simp_all [View.goto]

/-- A step of a thread keeps flags and buffers consistent. -/
theorem Move.consistent {role : Role} {a : Answer V σ} {v v' : View V σ}
    (hmove : Move role a v v') (hv : v.impl.Consistent role) : v'.impl.Consistent role := by
  cases hmove
  case goto hgoto => exact hgoto.consistent hv
  all_goals obtain ⟨hpush, hpc⟩ := hv
  case pushed h _ _ _ =>
    simp only [h] at hpc
    exact ⟨hpush, hpc⟩
  case released h =>
    simp only [h] at hpc
    refine ⟨nofun, ?_⟩
    cases role <;> simp_all [View.releaseOutput, Role.afterPush]
  case flagged h =>
    refine ⟨hpush, ?_⟩
    rcases h with h | h | h <;> simpa [View.storeDone, h] using hpc
  case asked h hnone => exact ⟨hpush, fun _ _ => hnone⟩
  case gotOutput h hinput _ _ =>
    simp only [h] at hpc
    exact ⟨fun _ _ => rfl,
      fun hstage => ⟨hinput hstage, Impl.readyToPull_eq_false (hpc hstage) (hinput hstage)⟩⟩
  case noOutput h hinput _ _ =>
    simp only [h] at hpc
    exact ⟨hpush,
      fun hstage => ⟨hinput hstage, Impl.readyToPull_eq_false (hpc hstage) (hinput hstage)⟩⟩
  case gotFull hrole h _ =>
    refine ⟨hpush, ?_⟩
    cases role <;> simp_all [Role.afterPull]
  case invoked h houtput hinput =>
    simp only [h] at hpc
    exact ⟨hpush, houtput, fun hstage => (hpc hstage).1⟩
  case returned h _ =>
    simp only [h] at hpc
    refine ⟨fun hrole _ => hpc.1 hrole, ?_⟩
    cases role <;> simp_all [View.returns, Role.afterCallback]
  case finishing h _ =>
    simp only [h] at hpc
    exact ⟨hpush, hpc⟩
  case recycled h _ _ => exact ⟨hpush, fun _ _ => rfl⟩
  case putBack h _ _ _ => exact ⟨hpush, fun _ => rfl⟩
  case acquired h hready _ =>
    simp only [h] at hpc
    exact ⟨hpush, fun _ => hpc (.inr hready)⟩
  case gotNone => exact ⟨hpush, fun _ => rfl⟩
  case compensated hrole h =>
    simp only [h] at hpc
    exact ⟨hpush, fun _ _ => hpc hrole⟩
  case unflagged h | finished h =>
    simp only [h] at hpc
    exact ⟨hpush, hpc⟩

/-! ## Counting -/

/-- A step of a thread neither loses nor copies a buffer of its input pipe,
as long as the pool has room for the one the thread holds. -/
theorem Move.input_count {role : Role} {a : Answer V σ} {v v' : View V σ}
    (hmove : Move role a v v') (hrole : role ≠ .source) (hv : v.impl.Consistent role)
    (hroom : v.inputPipe.pool.length + v.impl.heldInput.length ≤ v.inputPipe.capacity) :
    v'.inputPipe.capacity = v.inputPipe.capacity ∧
      v'.inputPipe.totalBuffers = v.inputPipe.totalBuffers ∧ ∀ b,
      v'.inputPipe.pool.count b + v'.inputPipe.fifo.count b + v'.impl.heldInput.count b =
        v.inputPipe.pool.count b + v.inputPipe.fifo.count b + v.impl.heldInput.count b := by
  obtain ⟨hpc, hpc'⟩ := hmove.not_absent
  rw [Impl.heldInput_of_ne hpc] at hroom ⊢
  rw [Impl.heldInput_of_ne hpc']
  cases hmove
  case gotFull h hfifo =>
    have hnone := hv.2
    simp only [h] at hnone
    simp only [hfifo, hnone hrole, List.count_cons, Option.toList_some, Option.toList_none,
      List.count_nil, true_and]
    omega
  case gotNone h hfifo =>
    have hnone := hv.2
    simp only [h] at hnone
    simp [hnone hrole]
  case recycled h hready hinput =>
    simp only [hinput, Option.toList_some, List.length_singleton] at hroom
    simp only [Channel.putBack_of_lt hroom, hinput, List.count_append, Option.toList_none,
      Option.toList_some, List.count_nil, true_and]
    omega
  case putBack h hready hinput hput =>
    simp only [hinput, Option.toList_some, List.length_singleton] at hroom
    simp only [Channel.putBack_of_lt hroom, hinput, List.count_append, Option.toList_none,
      Option.toList_some, List.count_nil, true_and]
    omega
  all_goals exact ⟨rfl, rfl, fun _ => rfl⟩

theorem Goto.not_release {role : Role} {a : Answer V σ} {v : View V σ} {pc : Pc}
    (hgoto : Goto role a v pc) : v.impl.pc ≠ .release ∧ pc ≠ .release := by
  cases hgoto
  case leave h _ => rcases h with h | h <;> simp [h]
  case enter h _ => cases role <;> simp [h, Role.entry]
  case skipPush h _ => cases role <;> simp [h, Role.afterPush]
  case skipPull h _ => cases role <;> simp [h, Role.afterPull]
  all_goals simp [*]

/-- A step of a thread neither loses nor copies a buffer of its output pipe. -/
theorem Move.output_count {role : Role} {a : Answer V σ} {v v' : View V σ}
    (hmove : Move role a v v') (hrole : role ≠ .sink) :
    v'.outputPipe.capacity = v.outputPipe.capacity ∧
      v'.outputPipe.totalBuffers = v.outputPipe.totalBuffers ∧ ∀ b,
      v'.outputPipe.pool.count b + v'.outputPipe.fifo.count b + v'.impl.heldOutput.count b =
        v.outputPipe.pool.count b + v.outputPipe.fifo.count b + v.impl.heldOutput.count b := by
  obtain ⟨hpc, hpc'⟩ := hmove.not_absent
  have hsame (hrelease : v.impl.pc ≠ .release) (hrelease' : v'.impl.pc ≠ .release)
      (houtput : v'.impl.output = v.impl.output) : v'.impl.heldOutput = v.impl.heldOutput := by
    rw [Impl.heldOutput_of_ne ⟨hpc, hrelease⟩, Impl.heldOutput_of_ne ⟨hpc', hrelease'⟩, houtput]
  cases hmove
  case goto hgoto =>
    rw [hsame hgoto.not_release.1 hgoto.not_release.2 rfl]
    exact ⟨rfl, rfl, fun _ => rfl⟩
  case pushed h hready houtput hok =>
    refine ⟨rfl, rfl, fun b => ?_⟩
    simp only [Impl.heldOutput, h, houtput, Channel.pushBuffer, if_true, List.count_append,
      reduceCtorEq, or_true, or_self, if_false, Option.toList_some, List.count_nil]
    omega
  case released h =>
    refine ⟨rfl, rfl, fun b => ?_⟩
    cases role <;> simp [Impl.heldOutput, h, View.releaseOutput, Channel.release, Role.afterPush]
  case gotOutput h _ hnone hpool =>
    refine ⟨rfl, rfl, fun b => ?_⟩
    simp only [Impl.heldOutput, h, hnone, hpool, List.count_append, reduceCtorEq, or_self, if_false,
      Option.toList_some, Option.toList_none, List.count_nil]
    omega
  case returned r h hret =>
    rw [hsame (by simp [h]) (by cases role <;> simp [Role.afterCallback]) rfl]
    simp only [View.returns]
    split <;> exact ⟨rfl, rfl, fun _ => rfl⟩
  case flagged h =>
    rw [hsame (by rcases h with h | h | h <;> simp [h]) (by rintro ⟨⟩) rfl]
    exact ⟨rfl, rfl, fun _ => rfl⟩
  case asked h _ =>
    rw [hsame (by rcases h with ⟨_, h⟩ | ⟨_, h⟩ <;> simp [h]) (by rintro ⟨⟩) rfl]
    exact ⟨rfl, rfl, fun _ => rfl⟩
  case gotFull h _ =>
    rw [hsame (by simp [h]) (by cases role <;> simp [Role.afterPull]) rfl]
    exact ⟨rfl, rfl, fun _ => rfl⟩
  all_goals
    rw [hsame (by simp [*]) (by rintro ⟨⟩) rfl]
    exact ⟨rfl, rfl, fun _ => rfl⟩

/-! ## Returning the buffers -/

/-- The input of an exited thread goes back to its pipe. -/
theorem View.returnInput_eq {v : View V σ} (hpc : v.impl.pc = .exited) (ok : Bool)
    (hroom : v.inputPipe.pool.length + v.impl.heldInput.length ≤ v.inputPipe.capacity) :
    v.returnInput ok =
      { v with
        impl := { v.impl with input := none }
        inputPipe := { v.inputPipe with pool := v.inputPipe.pool ++ v.impl.heldInput } } := by
  rw [Impl.heldInput_of_ne (by simp [hpc])] at hroom ⊢
  unfold returnInput
  split
  · rename_i buf hinput
    rw [hinput, Option.toList_some, List.length_singleton] at hroom
    simp [Channel.putBack_of_lt hroom, hinput]
  · rename_i hinput
    simp only [hinput, Option.toList_none, List.append_nil]
    rw [← hinput]

/-- The output of an exited thread goes back to its pipe. -/
theorem View.returnOutput_eq {v : View V σ} (hpc : v.impl.pc = .exited) (ok : Bool)
    (hroom : v.outputPipe.pool.length + v.impl.heldOutput.length ≤ v.outputPipe.capacity) :
    v.returnOutput ok =
      { v with
        impl := { v.impl with output := none }
        outputPipe := { v.outputPipe with pool := v.outputPipe.pool ++ v.impl.heldOutput } } := by
  rw [Impl.heldOutput_of_ne (by simp [hpc])] at hroom ⊢
  unfold returnOutput
  split
  · rename_i buf houtput
    rw [houtput, Option.toList_some, List.length_singleton] at hroom
    simp [Channel.putBack_of_lt hroom, houtput]
  · rename_i houtput
    simp only [houtput, Option.toList_none, List.append_nil]
    rw [← houtput]

/-- The buffers of an exited thread go back to its pipes. -/
theorem Role.returnBuffers_eq (role : Role) {v : View V σ} (hpc : v.impl.pc = .exited)
    (allocated : Nat → Bool)
    (hinput : role ≠ .source →
      v.inputPipe.pool.length + v.impl.heldInput.length ≤ v.inputPipe.capacity)
    (houtput : role ≠ .sink →
      v.outputPipe.pool.length + v.impl.heldOutput.length ≤ v.outputPipe.capacity) :
    role.returnBuffers allocated v =
      { impl := { v.impl with
          input := if role = .source then v.impl.input else none
          output := if role = .sink then v.impl.output else none }
        inputPipe := if role = .source then v.inputPipe else
          { v.inputPipe with pool := v.inputPipe.pool ++ v.impl.heldInput }
        outputPipe := if role = .sink then v.outputPipe else
          { v.outputPipe with pool := v.outputPipe.pool ++ v.impl.heldOutput } } := by
  cases role with
  | source => rw [Role.returnBuffers, View.returnOutput_eq hpc _ (houtput (by rintro ⟨⟩))]; rfl
  | stage =>
      rw [Role.returnBuffers, View.returnInput_eq hpc _ (hinput (by rintro ⟨⟩)),
        View.returnOutput_eq (by exact hpc) _ (by exact houtput (by rintro ⟨⟩))]
      rfl
  | sink => rw [Role.returnBuffers, View.returnInput_eq hpc _ (hinput (by rintro ⟨⟩))]; rfl

end Mtdp.Pipeline
