import Mtdp.Pipeline.Shape

/-!
# Semaphore tokens and queued buffers

The semaphore of a pipe is meant to count the buffers in its FIFO, up to the
token a consumer has taken and not used yet and the one its producer has yet
to release.  All steps of the threads keep this balance.  The controller
breaks it when it clears a pipe: `mtdp_pipe_clear` empties the FIFO and
leaves the semaphore.

## Main results

* `Move.input_tokens`, `Move.output_tokens` — what a thread does to the two
  pipes of its unit.
* `tokens_agree_iff` — the runs in which tokens and buffers agree are those
  in which only empty FIFOs are cleared.
* `disable_leaves_a_token` — one buffer left in the FIFO at a disable.
-/

namespace Mtdp.Pipeline

open Lib.Transition

variable {V σ : Type}

/-- The consumer is between a successful acquire and its get, or between an
empty get and the release that makes up for it. -/
def Pc.taken : Pc → Nat
  | .acquired => 1
  | .getFull => 1
  | .emptyGet => 1
  | _ => 0

/-- The producer is between a successful push and its release. -/
def Pc.owed : Pc → Nat
  | .release => 1
  | _ => 0

/-- Tokens and buffers balance in every pipe. -/
def Balanced (s : State V σ) : Prop := ∀ u ≤ s.nStages,
  (s.pipes (u + 1)).semaphore + (s.impls (u + 1)).pc.taken + (s.impls u).pc.owed =
    (s.pipes (u + 1)).fifo.length

/-- The agreement of tokens and buffers, with what it means for an idle
pipeline and for a consumer that has acquired the semaphore. -/
structure TokensAgree (s : State V σ) : Prop where
  balanced : Balanced s
  idle : (∀ u ≤ s.nStages + 1, (s.impls u).pc.inRoutine = false) →
    ∀ u ≤ s.nStages, (s.pipes (u + 1)).semaphore = (s.pipes (u + 1)).fifo.length
  nonempty : ∀ u ≤ s.nStages, (s.impls (u + 1)).pc = .getFull → (s.pipes (u + 1)).fifo ≠ []

/-- A pipe that the controller clears has nothing queued. -/
def ClearsEmpty (s : State V σ) (l : Label V σ) : Prop :=
  ∀ allocated left, l = .controller allocated → s.controller = .clearing (left + 1) →
    (s.pipes (left + 1)).fifo = []

/-! ## The threads -/

theorem Goto.taken {role : Role} {a : Answer V σ} {v : View V σ} {pc : Pc}
    (hgoto : Goto role a v pc) : pc.taken = v.impl.pc.taken := by
  cases hgoto
  case leave h _ => rcases h with h | h <;> simp [h, Pc.taken]
  case enter h _ => cases role <;> simp [h, Pc.taken, Role.entry]
  case skipPush h _ => cases role <;> simp [h, Pc.taken, Role.afterPush]
  case skipPull h _ => cases role <;> simp [h, Pc.taken, Role.afterPull]
  all_goals simp_all [Pc.taken]

theorem Goto.owed {role : Role} {a : Answer V σ} {v : View V σ} {pc : Pc}
    (hgoto : Goto role a v pc) : pc.owed = v.impl.pc.owed := by
  cases hgoto
  case leave h _ => rcases h with h | h <;> simp [h, Pc.owed]
  case enter h _ => cases role <;> simp [h, Pc.owed, Role.entry]
  case skipPush h _ => cases role <;> simp [h, Pc.owed, Role.afterPush]
  case skipPull h _ => cases role <;> simp [h, Pc.owed, Role.afterPull]
  all_goals simp_all [Pc.owed]

/-- A thread takes a token for every buffer it takes from its input pipe. -/
theorem Move.input_tokens {role : Role} {a : Answer V σ} {v v' : View V σ}
    (hmove : Move role a v v') :
    v'.inputPipe.semaphore + v'.impl.pc.taken + v.inputPipe.fifo.length =
      v.inputPipe.semaphore + v.impl.pc.taken + v'.inputPipe.fifo.length := by
  cases hmove
  case goto hgoto => simp [View.goto, hgoto.taken]
  case pushed hpc _ _ _ => simp [hpc, Pc.taken]
  case released hpc => cases role <;> simp [View.releaseOutput, hpc, Pc.taken, Role.afterPush]
  case flagged h => rcases h with h | h | h <;> simp [View.storeDone, h, Pc.taken]
  case acquired hpc _ hsem =>
    simp only [hpc, Pc.taken, Channel.acquire]
    omega
  case unflagged hpc => simp [View.storeDone, hpc, Pc.taken]
  case gotFull hpc hfifo =>
    cases role <;> simp only [hpc, hfifo, Pc.taken, Role.afterPull, List.length_cons]
    all_goals omega
  case gotNone hpc hfifo => simp [hpc, Pc.taken]
  case compensated hpc => simp [View.releaseInput, hpc, Pc.taken, Channel.release]
  case asked h _ => rcases h with ⟨_, h⟩ | ⟨_, h⟩ <;> simp [View.askInput, h, Pc.taken]
  case gotOutput hpc _ _ _ => simp [hpc, Pc.taken]
  case noOutput hpc _ _ _ => simp [hpc, Pc.taken]
  case invoked hpc _ _ => simp [View.invoke, hpc, Pc.taken]
  case finishing hpc _ => simp [View.storeDone, hpc, Pc.taken]
  case finished hpc => simp [hpc, Pc.taken]
  case returned hpc _ => cases role <;> simp [View.returns, hpc, Pc.taken, Role.afterCallback]
  case recycled hpc _ _ => simp [hpc, Pc.taken]
  case putBack hpc _ _ _ => simp [hpc, Pc.taken]

/-- A thread releases a token for every buffer it pushes to its output pipe. -/
theorem Move.output_tokens {role : Role} {a : Answer V σ} {v v' : View V σ}
    (hmove : Move role a v v') :
    v'.outputPipe.semaphore + v'.impl.pc.owed + v.outputPipe.fifo.length =
      v.outputPipe.semaphore + v.impl.pc.owed + v'.outputPipe.fifo.length := by
  cases hmove
  case goto hgoto => simp [View.goto, hgoto.owed]
  case pushed hpc _ _ _ =>
    simp only [hpc, Pc.owed, Channel.pushBuffer, if_true, List.length_append, List.length_cons,
      List.length_nil]
    omega
  case released hpc =>
    cases role <;> simp only [View.releaseOutput, hpc, Pc.owed, Role.afterPush, Channel.release]
  case flagged h => rcases h with h | h | h <;> simp [View.storeDone, h, Pc.owed]
  case acquired hpc _ _ => simp [hpc, Pc.owed]
  case unflagged hpc => simp [View.storeDone, hpc, Pc.owed]
  case gotFull hpc _ => cases role <;> simp [hpc, Pc.owed, Role.afterPull]
  case gotNone hpc _ => simp [hpc, Pc.owed]
  case compensated hpc => simp [View.releaseInput, hpc, Pc.owed]
  case asked h _ => rcases h with ⟨_, h⟩ | ⟨_, h⟩ <;> simp [View.askInput, h, Pc.owed]
  case gotOutput hpc _ _ _ => simp [hpc, Pc.owed]
  case noOutput hpc _ _ _ => simp [hpc, Pc.owed]
  case invoked hpc _ _ => simp [View.invoke, hpc, Pc.owed]
  case finishing hpc _ => simp [View.storeDone, hpc, Pc.owed]
  case finished hpc => simp [hpc, Pc.owed]
  case returned hpc _ => cases role <;> simp [View.returns_queue, hpc, Pc.owed, Role.afterCallback]
  case recycled hpc _ _ => simp [hpc, Pc.owed]
  case putBack hpc _ _ _ => simp [hpc, Pc.owed]

/-- A step of a thread keeps the balance. -/
theorem worker_balanced {s s' : State V σ} {u : Nat} {a : Answer V σ} (hs : Balanced s)
    (hstep : step s (.worker u a) = some s') : Balanced s' := by
  obtain ⟨_, v, hmove, rfl⟩ := step_worker hstep
  intro w hw
  have hbefore := hs w hw
  have hinput := hmove.input_tokens
  have houtput := hmove.output_tokens
  simp only [State.view] at hinput houtput
  by_cases hconsumer : u = w + 1
  · subst hconsumer
    simp only [State.putView_pipes_self, State.putView_impls_self,
      State.putView_impls_of_ne _ _ _ (show w ≠ w + 1 by omega)]
    omega
  by_cases hproducer : u = w
  · subst hproducer
    simp only [State.putView_pipes_succ, State.putView_impls_self,
      State.putView_impls_of_ne _ _ _ (show u + 1 ≠ u by omega)]
    omega
  · rwa [State.putView_pipes_of_ne _ _ _ (by omega) (by omega),
      State.putView_impls_of_ne _ _ _ (by omega), State.putView_impls_of_ne _ _ _ (by omega)]

/-- The balance is a matter of the queues, the semaphores and the program
points. -/
theorem Balanced.of_same {s s' : State V σ} (hs : Balanced s) (hn : s'.nStages = s.nStages)
    (hpipes : ∀ k, (s'.pipes k).semaphore = (s.pipes k).semaphore ∧
      (s'.pipes k).fifo = (s.pipes k).fifo)
    (hpc : ∀ u ≤ s.nStages + 1, (s'.impls u).pc.taken = (s.impls u).pc.taken ∧
      (s'.impls u).pc.owed = (s.impls u).pc.owed) : Balanced s' := by
  intro u hu
  rw [hn] at hu
  rw [(hpipes _).1, (hpipes _).2, (hpc _ (by omega)).1, (hpc u (by omega)).2]
  exact hs u hu

theorem Pc.Resting.tokens {pc : Pc} (h : pc.Resting) : pc.taken = 0 ∧ pc.owed = 0 := by
  rcases h with rfl | rfl <;> exact ⟨rfl, rfl⟩

/-- From a balanced state, the only step to lose the balance clears a FIFO
that is not empty. -/
theorem step_balanced {s s' : State V σ} {l : Label V σ} (hshape : Shape s) (hs : Balanced s)
    (hstep : step s l = some s') : Balanced s' ↔ ClearsEmpty s l := by
  cases step_effect hstep with
  | worker _ _ => exact iff_of_true (worker_balanced hs hstep) (by simp [ClearsEmpty])
  | create hcontroller =>
      rename_i left
      refine iff_of_true ?_ (by simp [ClearsEmpty, hcontroller])
      simp only [Shape, hcontroller] at hshape
      refine hs.of_same rfl (fun _ => ⟨rfl, rfl⟩) fun u _ => ?_
      by_cases hne : u = left
      · subst hne
        simp only [State.setImpl_impls_self, Role.createThread_pc,
          (hshape.2.2 u (by omega)).tokens]
        exact ⟨rfl, rfl⟩
      · simp [hne]
  | clear hcontroller =>
      rename_i allocated left
      have hle : left + 1 ≤ s.nStages + 1 := by
        simp only [Shape, hcontroller] at hshape
        exact hshape.2.1
      constructor
      · intro hbalanced _ _ _ heq'
        rw [hcontroller] at heq'
        cases heq'
        have hbefore := hs left (by omega)
        have hafter := hbalanced left (by simp only [State.setPipe]; omega)
        simp only [State.setPipe_pipes_self, State.setPipe_impls, Channel.clear_fifo,
          Channel.clear_semaphore, List.length_nil] at hafter
        exact List.length_eq_zero_iff.mp (by omega)
      · intro hempty
        have hfifo := hempty allocated left rfl hcontroller
        refine hs.of_same rfl (fun k => ?_) fun _ _ => ⟨rfl, rfl⟩
        by_cases hne : k = left + 1
        · subst hne
          simp [hfifo]
        · simp [hne]
  | giveBack hcontroller =>
      rename_i allocated left
      refine iff_of_true ?_ (by simp [ClearsEmpty, hcontroller])
      obtain ⟨hinput, houtput⟩ :=
        (s.role left).returnBuffers_queue allocated (s.view left)
      refine hs.of_same rfl (fun k => ?_) fun u _ => ?_
      · by_cases hin : k = left
        · subst hin
          simpa using hinput
        by_cases hout : k = left + 1
        · subst hout
          simpa using houtput
        · simp [State.putView_pipes_of_ne _ _ _ hin hout]
      · by_cases hne : u = left
        · subst hne
          simp [Role.returnBuffers_flags, State.view]
        · simp [hne]
  | flags hlabel hclear hsame =>
      refine iff_of_true ?_ fun allocated left hl hcontroller =>
        absurd hcontroller (hclear allocated left hl)
      refine hs.of_same hsame.nStages (fun k => by rw [hsame.pipes]; exact ⟨rfl, rfl⟩) fun u _ => ?_
      rw [hsame.impls u]
      exact ⟨rfl, rfl⟩

/-! ## Whole runs -/

/-- The rest of the agreement follows from the balance. -/
theorem tokensAgree_iff_balanced {s : State V σ} : TokensAgree s ↔ Balanced s := by
  refine ⟨fun h => h.balanced, fun h => ⟨h, fun hidle u hu => ?_, fun u hu hpc hempty => ?_⟩⟩
  · have houtside {pc : Pc} (hpc : pc.inRoutine = false) : pc.taken = 0 ∧ pc.owed = 0 := by
      cases pc <;> first | exact ⟨rfl, rfl⟩ | cases hpc
    have := h u hu
    have := (houtside (hidle (u + 1) (by omega))).1
    have := (houtside (hidle u (by omega))).2
    omega
  · have hbalance := h u hu
    rw [hpc, hempty, List.length_nil] at hbalance
    simp only [Pc.taken] at hbalance
    omega

theorem Created.balanced {s : State V σ} (hs : Created s) : Balanced s := by
  intro u _
  rw [hs.semaphore, hs.fifo, hs.pc, hs.pc]
  rfl

/-- **Tokens and buffers.**  Along a run of a freshly created pipeline, the
semaphores agree with the FIFOs in every state exactly when every FIFO that
`mtdp_pipe_clear` is called on is empty. -/
theorem tokens_agree_iff {s t : State V σ} {ls : List (Label V σ)} (hs : Created s)
    (hrun : run step s ls = some t) :
    Visits step TokensAgree s ls ↔ Takes step ClearsEmpty s ls := by
  refine visits_iff_takes (I := Shape) (G := fun _ => True) (R := fun _ _ => True)
    (fun _ _ _ hshape _ _ hstep _ => step_shape hshape hstep)
    (fun s l s' hshape hagree _ hstep => ?_) hs.shape (tokensAgree_iff_balanced.mpr hs.balanced)
    trivial (fun _ _ => trivial) (takes_of_mem fun _ _ _ => trivial) hrun
  simp only [and_true, tokensAgree_iff_balanced] at hagree ⊢
  exact step_balanced hshape hagree hstep

/-- The source of `smallest` pushes one buffer and the pipeline is disabled
before the sink has taken it. -/
def disableWithOneQueued : List (Label Unit Unit) :=
  enableAndStart ++ threadSteps 0 12 true true false ++ [.call .disable] ++ controllerSteps 6 ++
    threadSteps 0 4 true false false ++ threadSteps 1 1 true false false ++ controllerSteps 9

theorem tokens_agree_iff_disableWithOneQueued :
    Visits step TokensAgree smallest disableWithOneQueued ↔
      Takes step ClearsEmpty smallest disableWithOneQueued :=
  tokens_agree_iff smallest_created (Option.some_get (by decide)).symm

/-- After that disable the semaphore still has the token of the buffer that
is back in the pool. -/
theorem disable_leaves_a_token :
    ¬ ∀ (s t : State Unit Unit) (ls : List (Label Unit Unit)), Created s →
      run step s ls = some t → Visits step TokensAgree s ls := by
  intro hall
  have hend : (run step smallest disableWithOneQueued).map (fun t =>
      (t.nStages, (t.pipes 1).semaphore, (t.pipes 1).fifo)) = some (0, 1, []) := by decide
  obtain ⟨t, hrun, hobserved⟩ := Option.map_eq_some_iff.mp hend
  simp only [Prod.mk.injEq] at hobserved
  obtain ⟨_, hsemaphore, hfifo⟩ := hobserved
  have hagree : TokensAgree t :=
    (hall _ _ _ smallest_created hrun).of_run hrun
  have hbalance := hagree.balanced 0 (Nat.zero_le _)
  rw [hsemaphore, hfifo, List.length_nil] at hbalance
  omega

end Mtdp.Pipeline
