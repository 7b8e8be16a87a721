import Mtdp.Pipeline.Held

/-!
# Buffers are conserved

Every buffer of a pipe is in the pool, in the FIFO, or in the context of the
producer or the consumer, and in one of these places only.  This survives
stops, disables and new enables: `mtdp_pipeline_clear` brings all buffers
back to their pools, and no pool ever has to grow for that.

## Main results

* `step_ownInv` — every step keeps the buffers.
* `buffers_conserved` — what that means for the pipes of a pipeline in any
  state it reaches.
-/

namespace Mtdp.Pipeline

open Lib.Transition

variable {V σ : Type}

/-- In how many places a buffer of pipe `u + 1` is. -/
def State.copies (s : State V σ) (u buf : Nat) : Nat :=
  (s.pipes (u + 1)).pool.count buf + (s.pipes (u + 1)).fifo.count buf +
    (s.impls u).heldOutput.count buf + (s.impls (u + 1)).heldInput.count buf

/-- A pipe as the user supplies it. -/
structure Filled (c : Channel V) : Prop where
  distinct : c.pool.Nodup
  total : c.pool.length = c.totalBuffers
  capacity : c.pool.length ≤ c.capacity

/-- A pipe that was resized with success and filled with distinct buffers. -/
theorem sized_filled {c : Fifo.Config} {junk p p' : Pipe} {n : UInt64}
    (hinit : Pipe.init c junk = some p) (hn : n.toNat ≤ 2 ^ 60)
    (hrun : p.resize c n = some (⟨.ok, true⟩, p')) {bufs : List Nat} (hdistinct : bufs.Nodup)
    (hlen : bufs.length = n.toNat) (memory : Nat → V) :
    ∃ ch : Channel V, Filled ch ∧ ch.pool = bufs ∧ ch.fifo = [] ∧ ch.semaphore = 0 ∧
      Refines c { p' with pool := { p'.pool with buffers := fun i => bufs[i]? } } ch :=
  ⟨_, ⟨hdistinct, hlen, Nat.le_of_eq hlen⟩, rfl, rfl, rfl,
    sized_refines hinit hn hrun bufs hlen memory⟩

/-- Where the buffers of the pipelines are that started with the pipes of
`s₀`. -/
structure Conserved (s₀ s : State V σ) : Prop where
  once : ∀ u ≤ s.nStages, ∀ buf ∈ (s₀.pipes (u + 1)).pool, s.copies u buf = 1
  noOther : ∀ u ≤ s.nStages, ∀ buf ∉ (s₀.pipes (u + 1)).pool, s.copies u buf = 0
  total : ∀ u ≤ s.nStages, (s.pipes (u + 1)).pool.length + (s.pipes (u + 1)).fifo.length +
    ((s.impls u).heldOutput.length + (s.impls (u + 1)).heldInput.length) =
      (s.pipes (u + 1)).totalBuffers
  held : ∀ u ≤ s.nStages,
    (s.impls u).heldOutput.length + (s.impls (u + 1)).heldInput.length ≤ 2
  check : ∀ u ≤ s.nStages, (s.pipes (u + 1)).checkInvariants = true
  /-- what is pushed or put back is a buffer -/
  consistent : ∀ u ≤ s.nStages + 1, ¬ (s.impls u).pc.Resting → (s.impls u).Consistent (s.role u)
  disabled : s.controller = .idle → s.enabled = false → WasDisabled s →
    (∀ u ≤ s.nStages, (s.pipes (u + 1)).pool.Perm (s₀.pipes (u + 1)).pool ∧
      (s.pipes (u + 1)).fifo = []) ∧
    ∀ u ≤ s.nStages + 1, (u ≠ 0 → (s.impls u).input = none) ∧
      (u ≤ s.nStages → (s.impls u).output = none)

/-! ## What is left behind -/

/-- A unit holds no buffer. -/
def EmptyHanded (s : State V σ) (u : Nat) : Prop :=
  (u ≠ 0 → (s.impls u).heldInput = []) ∧ (u ≤ s.nStages → (s.impls u).heldOutput = [])

/-- Which pipes and units `mtdp_pipeline_clear` has emptied so far. -/
def Emptied (s : State V σ) : Prop :=
  match s.controller with
  | .idle => s.enabled = false →
      (∀ u ≤ s.nStages, (s.pipes (u + 1)).fifo = []) ∧ ∀ u ≤ s.nStages + 1, EmptyHanded s u
  | .enabling left => ∀ u < left, EmptyHanded s u
  | .clearing left => ∀ u ≤ s.nStages, left ≤ u → (s.pipes (u + 1)).fifo = []
  | .returning left =>
      (∀ u ≤ s.nStages, (s.pipes (u + 1)).fifo = []) ∧
        ∀ u ≤ s.nStages + 1, left ≤ u → EmptyHanded s u
  | .marking _ =>
      (∀ u ≤ s.nStages, (s.pipes (u + 1)).fifo = []) ∧ ∀ u ≤ s.nStages + 1, EmptyHanded s u
  | _ => True

theorem Created.emptied {s : State V σ} (hs : Created s) : Emptied s := by
  rw [Emptied, hs.controller]
  exact fun _ => ⟨fun u _ => hs.fifo _,
    fun u _ => ⟨fun _ => by simp [Impl.heldInput, hs.pc],
      fun _ => by simp [Impl.heldOutput, hs.pc]⟩⟩

/-- A unit that has given its buffers back has none. -/
theorem Role.returnBuffers_none (role : Role) (allocated : Nat → Bool) (v : View V σ) :
    (role ≠ .source → (role.returnBuffers allocated v).impl.input = none) ∧
      (role ≠ .sink → (role.returnBuffers allocated v).impl.output = none) := by
  have hinput (v : View V σ) (ok : Bool) : (v.returnInput ok).impl.input = none := by
    unfold View.returnInput
    split
    · rfl
    · assumption
  have houtput (v : View V σ) (ok : Bool) : (v.returnOutput ok).impl.output = none := by
    unfold View.returnOutput
    split
    · rfl
    · assumption
  have hkeep (v : View V σ) (ok : Bool) : (v.returnOutput ok).impl.input = v.impl.input := by
    unfold View.returnOutput
    split <;> rfl
  cases role <;> simp [Role.returnBuffers, hinput, houtput, hkeep]

/-- The controller keeps track of what it has emptied. -/
theorem controllerStep_emptied {s s' : State V σ} {allocated : Nat → Bool} (hshape : Shape s)
    (hs : Emptied s) (hstep : s.controllerStep allocated = some s') : Emptied s' := by
  unfold Emptied at hs
  cases controllerStep_move hstep <;> rename_i hcontroller <;>
    simp only [Shape, hcontroller] at hshape hs
  case create left =>
    intro u hu
    simpa [EmptyHanded, State.setImpl, Nat.ne_of_lt hu] using hs u (Nat.lt_succ_of_lt hu)
  case enabled | started | stopped => simp [Emptied, State.report, hshape]
  case joined => exact fun u hu hle => absurd hu (Nat.not_le_of_lt hle)
  case clear left =>
    intro u hu hle
    by_cases hne : u = left
    · subst hne
      simp
    · simpa [hne] using hs u hu (by omega)
  case cleared =>
    exact ⟨fun u hu => hs u hu (Nat.zero_le u), fun u hu hle => absurd hu (Nat.not_le_of_lt hle)⟩
  case giveBack left =>
    obtain ⟨hinput, houtput⟩ := (s.role left).returnBuffers_queue allocated (s.view left)
    obtain ⟨hnoInput, hnoOutput⟩ := (s.role left).returnBuffers_none allocated (s.view left)
    refine ⟨fun u hu => ?_, fun u hu hle => ?_⟩
    · have hbefore := hs.1 u hu
      by_cases hin : u + 1 = left
      · subst hin
        simpa [hinput.2] using hbefore
      by_cases hout : u = left
      · subst hout
        simpa [houtput.2] using hbefore
      · simpa [State.putView_pipes_of_ne _ _ _ hin (by omega)] using hbefore
    · by_cases hne : u = left
      · subst hne
        constructor
        · intro hsource
          simp [Impl.heldInput, hnoInput (mt State.role_eq_source.mp hsource)]
        · intro hsink
          simp [Impl.heldOutput, hnoOutput (s.role_ne_sink hsink)]
      · simpa [EmptyHanded, hne] using hs.2 u hu (by omega)
  case gaveBack => exact ⟨hs.1, fun u hu => hs.2 u hu (Nat.zero_le u)⟩
  case mark w _ =>
    refine ⟨hs.1, fun u hu => ?_⟩
    by_cases hne : u = w
    · subst hne
      simpa [EmptyHanded, State.setImpl, setDone, Impl.heldInput, Impl.heldOutput] using hs.2 u hu
    · simpa [EmptyHanded, State.setImpl, hne] using hs.2 u hu
  case disabled => exact fun _ => hs
  all_goals trivial

/-- Nothing is filled again while the threads rest. -/
theorem step_emptied {s s' : State V σ} {l : Label V σ} (hshape : Shape s) (hs : Emptied s)
    (hstep : step s l = some s') : Emptied s' := by
  cases l with
  | worker u a =>
      obtain ⟨hn, hcontroller, henabled, hframe⟩ := step_worker_frame hstep
      obtain ⟨hu, v, hmove, rfl⟩ := step_worker hstep
      have hhands {w : Nat} (hrest : (s.impls w).pc.Resting) (hw : EmptyHanded s w) :
          EmptyHanded (s.putView u v) w := by
        rw [EmptyHanded, hframe w hrest]
        exact hw
      unfold Emptied at hs ⊢
      unfold Shape at hshape
      rw [hcontroller]
      cases hc : s.controller <;> simp only [hc] at hs hshape ⊢
      case enabling => exact fun w hw => hhands (hshape.2.2 w hw) (hs w hw)
      case idle =>
        intro hdisabled
        exact absurd (hshape hdisabled u hu) hmove.not_resting
      case clearing => exact absurd (hshape.2.2 u hu) hmove.not_resting
      case returning => exact absurd (hshape.2.2 u hu) hmove.not_resting
      case marking => exact absurd (hshape.2.2.2 u hu) hmove.not_resting
  | call c =>
      simp only [step] at hstep
      split at hstep <;> cases hstep
      rename_i hidle
      simp only [Emptied, hidle] at hs
      rcases s.beginCall_cases c with ⟨e, _, _, heq⟩ | ⟨_, henabled, heq⟩ | ⟨_, _, _, heq⟩ |
        ⟨_, _, _, heq⟩ | ⟨_, _, heq⟩ <;> rw [heq]
      · exact hs
      · exact fun u hu => (hs henabled).2 u (Nat.le_of_lt_succ hu)
      all_goals trivial
  | controller allocated => exact controllerStep_emptied hshape hs hstep
  | waiter =>
      cases hstep
      exact hs

/-! ## The invariant -/

structure OwnInv (s₀ s : State V σ) : Prop where
  shape : Shape s
  existing : Existing s
  emptied : Emptied s
  nStages : s.nStages = s₀.nStages
  consistent : ∀ u ≤ s.nStages + 1, ¬ (s.impls u).pc.Resting → (s.impls u).Consistent (s.role u)
  sizes : ∀ u ≤ s.nStages, (s.pipes (u + 1)).capacity = (s₀.pipes (u + 1)).capacity ∧
    (s.pipes (u + 1)).totalBuffers = (s₀.pipes (u + 1)).totalBuffers
  copies : ∀ u ≤ s.nStages, ∀ b, s.copies u b = (s₀.pipes (u + 1)).pool.count b

theorem Created.ownInv {s : State V σ} (hs : Created s) : OwnInv s s where
  shape := hs.shape
  existing := hs.existing
  emptied := hs.emptied
  nStages := rfl
  consistent := fun u _ h => absurd (.inl (hs.pc u)) h
  sizes := fun _ _ => ⟨rfl, rfl⟩
  copies := fun u _ b => by
    simp [State.copies, hs.fifo, Impl.heldOutput, Impl.heldInput, hs.pc]

/-- What the counts say about the lists. -/
theorem OwnInv.perm {s₀ s : State V σ} (hs : OwnInv s₀ s) {u : Nat} (hu : u ≤ s.nStages) :
    ((s.pipes (u + 1)).pool ++ (s.pipes (u + 1)).fifo ++ (s.impls u).heldOutput ++
      (s.impls (u + 1)).heldInput).Perm (s₀.pipes (u + 1)).pool := by
  rw [List.perm_iff_count]
  intro b
  simp only [List.count_append]
  exact hs.copies u hu b

theorem OwnInv.length {s₀ s : State V σ} (hs : OwnInv s₀ s) {u : Nat} (hu : u ≤ s.nStages) :
    (s.pipes (u + 1)).pool.length + (s.pipes (u + 1)).fifo.length +
      ((s.impls u).heldOutput.length + (s.impls (u + 1)).heldInput.length) =
        (s₀.pipes (u + 1)).pool.length := by
  have := (hs.perm hu).length_eq
  simp only [List.length_append] at this
  omega

/-- The pool of a pipe has room for all its buffers. -/
theorem OwnInv.room {s₀ s : State V σ} (hs : OwnInv s₀ s)
    (hfilled : ∀ u ≤ s₀.nStages, Filled (s₀.pipes (u + 1))) {u : Nat} (hu : u ≤ s.nStages) :
    (s.pipes (u + 1)).pool.length + (s.pipes (u + 1)).fifo.length +
      ((s.impls u).heldOutput.length + (s.impls (u + 1)).heldInput.length) ≤
        (s.pipes (u + 1)).capacity := by
  rw [hs.length hu, (hs.sizes u hu).1]
  exact (hfilled u (hs.nStages ▸ hu)).capacity

/-- The assertions of `src/pipe.c` account for a buffer on either side of a pipe. -/
theorem OwnInv.checkInvariants {s₀ s : State V σ} (hs : OwnInv s₀ s)
    (hfilled : ∀ u ≤ s₀.nStages, Filled (s₀.pipes (u + 1))) {u : Nat} (hu : u ≤ s.nStages) :
    (s.pipes (u + 1)).checkInvariants = true := by
  have hlength := hs.length hu
  have htotal := (hs.sizes u hu).2
  have hpool := (hfilled u (hs.nStages ▸ hu)).total
  have houtput : (s.impls u).heldOutput.length ≤ 1 := by
    unfold Impl.heldOutput
    split <;> simp [Option.length_toList_le]
  have hinput : (s.impls (u + 1)).heldInput.length ≤ 1 := by
    unfold Impl.heldInput
    split <;> simp [Option.length_toList_le]
  simp only [Channel.checkInvariants, Bool.or_eq_true, beq_iff_eq]
  omega

/-! ## Steps -/

/-- A step of a thread keeps the buffers. -/
theorem worker_copies {s₀ s : State V σ} {u : Nat} {a : Answer V σ} {v : View V σ}
    (hs : OwnInv s₀ s) (hfilled : ∀ u ≤ s₀.nStages, Filled (s₀.pipes (u + 1)))
    (hu : u ≤ s.nStages + 1) (hmove : Move (s.role u) a (s.view u) v) {w : Nat}
    (hw : w ≤ s.nStages) :
    (((s.putView u v).pipes (w + 1)).capacity = (s.pipes (w + 1)).capacity ∧
      ((s.putView u v).pipes (w + 1)).totalBuffers = (s.pipes (w + 1)).totalBuffers) ∧
    ∀ b, (s.putView u v).copies w b = s.copies w b := by
  have hconsistent := hs.consistent u hu hmove.not_resting
  by_cases hconsumer : u = w + 1
  · subst hconsumer
    have hroom := hs.room hfilled hw
    obtain ⟨hcapacity, htotal, hcount⟩ := hmove.input_count
      (mt State.role_eq_source.mp (Nat.succ_ne_zero w)) hconsistent
      (by simp only [State.view]; omega)
    refine ⟨by simpa using ⟨hcapacity, htotal⟩, fun b => ?_⟩
    have := hcount b
    simp only [State.view] at this
    simp only [State.copies, State.putView_pipes_self, State.putView_impls_self,
      State.putView_impls_of_ne _ _ _ (show w ≠ w + 1 by omega)]
    omega
  by_cases hproducer : u = w
  · subst hproducer
    obtain ⟨hcapacity, htotal, hcount⟩ := hmove.output_count (s.role_ne_sink hw)
    refine ⟨by simpa using ⟨hcapacity, htotal⟩, fun b => ?_⟩
    have := hcount b
    simp only [State.view] at this
    simp only [State.copies, State.putView_pipes_succ, State.putView_impls_self,
      State.putView_impls_of_ne _ _ _ (show u + 1 ≠ u by omega)]
    omega
  · rw [State.putView_pipes_of_ne _ _ _ (by omega) (by omega)]
    refine ⟨⟨rfl, rfl⟩, fun b => ?_⟩
    rw [State.copies, State.copies, State.putView_pipes_of_ne _ _ _ (by omega) (by omega),
      State.putView_impls_of_ne _ _ _ (by omega), State.putView_impls_of_ne _ _ _ (by omega)]

/-- Giving the buffers of a unit back keeps the buffers. -/
theorem returnBuffers_copies {s₀ s : State V σ} {u : Nat} (allocated : Nat → Bool)
    (hs : OwnInv s₀ s) (hfilled : ∀ u ≤ s₀.nStages, Filled (s₀.pipes (u + 1)))
    (hu : u ≤ s.nStages + 1) (hpc : (s.impls u).pc = .exited) {v : View V σ}
    (hv : (s.role u).returnBuffers allocated (s.view u) = v) {w : Nat} (hw : w ≤ s.nStages) :
    (((s.putView u v).pipes (w + 1)).capacity = (s.pipes (w + 1)).capacity ∧
      ((s.putView u v).pipes (w + 1)).totalBuffers = (s.pipes (w + 1)).totalBuffers) ∧
    ∀ b, (s.putView u v).copies w b = s.copies w b := by
  rw [Role.returnBuffers_eq _ hpc allocated (fun hrole => ?_) (fun hrole => ?_)] at hv
  · by_cases hconsumer : u = w + 1
    · subst hconsumer
      have hrole : s.role (w + 1) ≠ .source := mt State.role_eq_source.mp (Nat.succ_ne_zero w)
      have hempty : v.impl.heldInput = [] := by simp [← hv, Impl.heldInput, hrole]
      have hpipe : v.inputPipe = { s.pipes (w + 1) with
          pool := (s.pipes (w + 1)).pool ++ (s.impls (w + 1)).heldInput } := by
        simp [← hv, hrole]
      refine ⟨by simp [hpipe], fun b => ?_⟩
      simp only [State.copies, State.putView_pipes_self, State.putView_impls_self, hpipe, hempty,
        State.putView_impls_of_ne _ _ _ (show w ≠ w + 1 by omega), List.count_append,
        List.count_nil]
      omega
    by_cases hproducer : u = w
    · subst hproducer
      have hrole : s.role u ≠ .sink := s.role_ne_sink hw
      have hempty : v.impl.heldOutput = [] := by simp [← hv, Impl.heldOutput, hrole]
      have hpipe : v.outputPipe = { s.pipes (u + 1) with
          pool := (s.pipes (u + 1)).pool ++ (s.impls u).heldOutput } := by
        simp [← hv, hrole]
      refine ⟨by simp [hpipe], fun b => ?_⟩
      simp only [State.copies, State.putView_pipes_succ, State.putView_impls_self, hpipe, hempty,
        State.putView_impls_of_ne _ _ _ (show u + 1 ≠ u by omega), List.count_append,
        List.count_nil]
      omega
    · rw [State.putView_pipes_of_ne _ _ _ (by omega) (by omega)]
      refine ⟨⟨rfl, rfl⟩, fun b => ?_⟩
      rw [State.copies, State.copies, State.putView_pipes_of_ne _ _ _ (by omega) (by omega),
        State.putView_impls_of_ne _ _ _ (by omega), State.putView_impls_of_ne _ _ _ (by omega)]
  · -- the pipe that feeds the unit
    obtain ⟨k, rfl⟩ := Nat.exists_eq_add_one_of_ne_zero (mt State.role_eq_source.mpr hrole)
    have := hs.room hfilled (Nat.le_of_succ_le_succ hu)
    simp only [State.view]
    omega
  · have := hs.room hfilled (s.le_of_role_ne_sink hrole)
    simp only [State.view]
    omega

/-- Flags and buffers stay consistent. -/
theorem step_consistent {s₀ s s' : State V σ} {l : Label V σ} (hs : OwnInv s₀ s)
    (hstep : step s l = some s') :
    ∀ u ≤ s.nStages + 1, ¬ (s'.impls u).pc.Resting → (s'.impls u).Consistent (s.role u) := by
  intro u hu hpc
  have hbefore := hs.consistent u hu
  cases step_effect hstep with
  | @worker w a v _ hmove =>
      by_cases hne : u = w
      · subst hne
        simpa using hmove.consistent (hbefore hmove.not_resting)
      · simp only [State.putView_impls_of_ne _ _ _ hne] at hpc ⊢
        exact hbefore hpc
  | @create _ left _ =>
      by_cases hne : u = left
      · subst hne
        simpa using Role.createThread_consistent _ _
      · simp only [State.setImpl_impls_of_ne _ _ hne] at hpc ⊢
        exact hbefore hpc
  | clear => exact hbefore hpc
  | @giveBack allocated left hcontroller =>
      by_cases hne : u = left
      · subst hne
        simp only [State.putView_impls_self, Role.returnBuffers_flags, State.view_impl] at hpc ⊢
        have hshape := hs.shape
        simp only [Shape, hcontroller] at hshape
        exact absurd (hshape.2.2 u hu) hpc
      · simp only [State.putView_impls_of_ne _ _ _ hne] at hpc ⊢
        exact hbefore hpc
  | flags _ _ hsame =>
      rw [hsame.impls u] at hpc ⊢
      exact hbefore hpc

/-- Every step keeps the buffers. -/
theorem step_ownInv {s₀ s s' : State V σ} {l : Label V σ} (hs : OwnInv s₀ s)
    (hfilled : ∀ u ≤ s₀.nStages, Filled (s₀.pipes (u + 1))) (hstep : step s l = some s') :
    OwnInv s₀ s' := by
  have hn := step_nStages hstep
  suffices hkeep : ∀ u ≤ s.nStages,
      ((s'.pipes (u + 1)).capacity = (s.pipes (u + 1)).capacity ∧
        (s'.pipes (u + 1)).totalBuffers = (s.pipes (u + 1)).totalBuffers) ∧
      ∀ b, s'.copies u b = s.copies u b by
    refine
      { shape := step_shape hs.shape hstep
        existing := step_existing hs.shape hs.existing hstep
        emptied := step_emptied hs.shape hs.emptied hstep
        nStages := hn.trans hs.nStages
        consistent := fun u hu hpc => ?_
        sizes := fun u hu => ?_
        copies := fun u hu b => ?_ }
    · rw [State.role, hn]
      exact step_consistent hs hstep u (hn ▸ hu) hpc
    · rw [(hkeep u (hn ▸ hu)).1.1, (hkeep u (hn ▸ hu)).1.2]
      exact hs.sizes u (hn ▸ hu)
    · rw [(hkeep u (hn ▸ hu)).2 b]
      exact hs.copies u (hn ▸ hu) b
  intro w hw
  cases step_effect hstep with
  | worker hu hmove => exact worker_copies hs hfilled hu hmove hw
  | @create _ left hcontroller =>
      refine ⟨⟨rfl, rfl⟩, fun b => ?_⟩
      have hemptied := hs.emptied
      simp only [Emptied, hcontroller] at hemptied
      obtain ⟨hinput, houtput⟩ := hemptied left (Nat.lt_succ_self left)
      have hfresh := Role.createThread_empty (s.role left) (s.impls left)
      simp only [State.copies, State.setImpl_pipes]
      by_cases hproducer : w = left
      · subst hproducer
        rw [State.setImpl_impls_self, State.setImpl_impls_of_ne _ _ (by omega), houtput hw,
          hfresh.2 (s.role_ne_sink hw)]
      by_cases hconsumer : w + 1 = left
      · subst hconsumer
        rw [State.setImpl_impls_self, State.setImpl_impls_of_ne _ _ hproducer,
          hinput (Nat.succ_ne_zero w), hfresh.1 (mt State.role_eq_source.mp (Nat.succ_ne_zero w))]
      · rw [State.setImpl_impls_of_ne _ _ hproducer, State.setImpl_impls_of_ne _ _ hconsumer]
  | @clear allocated left hcontroller =>
      by_cases hne : w = left
      · subst hne
        have hroom := hs.room hfilled hw
        rw [Channel.clear_of_le allocated (by omega)]
        refine ⟨by simp, fun b => ?_⟩
        simp only [State.copies, State.setPipe_pipes_self, State.setPipe_impls, List.count_append,
          List.count_nil]
        omega
      · simp [State.copies, hne]
  | @giveBack allocated left hcontroller =>
      have hshape := hs.shape
      simp only [Shape, hcontroller] at hshape
      exact returnBuffers_copies allocated hs hfilled (by omega)
        (hs.existing.exited hshape.1 hshape.2.2 (by omega)) rfl hw
  | flags _ _ hsame =>
      rw [hsame.pipes]
      refine ⟨⟨rfl, rfl⟩, fun b => ?_⟩
      rw [State.copies, State.copies, hsame.pipes, hsame.impls w, hsame.impls (w + 1)]
      rfl

/-- **Conservation.**  Take any run of a freshly created pipeline whose pipes
have been sized and filled with distinct buffers.  In every state it leads
to, each buffer is in exactly one place, the assertions of `src/pipe.c` hold,
and after a disable all buffers are back in their pools. -/
theorem buffers_conserved {s t : State V σ} {ls : List (Label V σ)} (hs : Created s)
    (hfilled : ∀ u ≤ s.nStages, Filled (s.pipes (u + 1))) (hrun : run step s ls = some t) :
    Conserved s t := by
  have hinv : OwnInv s t :=
    run_invariant (fun _ _ _ hinv hstep => step_ownInv hinv hfilled hstep) hs.ownInv hrun
  have htotal {u : Nat} (hu : u ≤ t.nStages) :
      (t.pipes (u + 1)).pool.length + (t.pipes (u + 1)).fifo.length +
        ((t.impls u).heldOutput.length + (t.impls (u + 1)).heldInput.length) =
          (t.pipes (u + 1)).totalBuffers := by
    rw [hinv.length hu, (hinv.sizes u hu).2, (hfilled u (hinv.nStages ▸ hu)).total]
  have hheld (u : Nat) :
      (t.impls u).heldOutput.length + (t.impls (u + 1)).heldInput.length ≤ 2 := by
    have houtput : (t.impls u).heldOutput.length ≤ 1 := by
      unfold Impl.heldOutput
      split <;> simp [Option.length_toList_le]
    have hinput : (t.impls (u + 1)).heldInput.length ≤ 1 := by
      unfold Impl.heldInput
      split <;> simp [Option.length_toList_le]
    omega
  refine
    { once := fun u hu buf hbuf => ?_
      noOther := fun u hu buf hbuf => ?_
      total := fun u hu => htotal hu
      held := fun u _ => hheld u
      check := fun u hu => hinv.checkInvariants hfilled hu
      consistent := hinv.consistent
      disabled := fun hidle henabled hwas => ?_ }
  · rw [hinv.copies u hu]
    exact List.count_eq_one_of_mem (hfilled u (hinv.nStages ▸ hu)).distinct hbuf
  · rw [hinv.copies u hu]
    exact List.count_eq_zero_of_not_mem hbuf
  · have hemptied := hinv.emptied
    simp only [Emptied, hidle] at hemptied
    obtain ⟨hfifo, hhands⟩ := hemptied henabled
    have hexited {u : Nat} (hu : u ≤ t.nStages + 1) : (t.impls u).pc = .exited := by
      have hshape := hinv.shape
      simp only [Shape, hidle] at hshape
      exact (hshape henabled u hu).resolve_left (hinv.existing.all (.inr hwas) u hu)
    refine ⟨fun u hu => ⟨?_, hfifo u hu⟩, fun u hu => ⟨fun hsource => ?_, fun hsink => ?_⟩⟩
    · have hperm := hinv.perm hu
      rw [hfifo u hu, (hhands u (by omega)).2 hu, (hhands (u + 1) (by omega)).1 (by omega)] at hperm
      simpa using hperm
    · have := (hhands u hu).1 hsource
      rwa [Impl.heldInput_of_ne (by simp [hexited hu]), Option.toList_eq_nil_iff] at this
    · have := (hhands u hu).2 hsink
      rwa [Impl.heldOutput_of_ne (by simp [hexited hu]), Option.toList_eq_nil_iff] at this

/-- The source of `smallest` pushes a buffer, gets the other one, and the
pipeline is disabled. -/
def disabledWhileFilling : List (Label Unit Unit) :=
  enableAndStart ++ threadSteps 0 12 true true false ++ [.call .disable] ++ controllerSteps 6 ++
    threadSteps 0 4 true false false ++ threadSteps 1 1 true false false ++ controllerSteps 9

theorem smallestOf_filled (self : σ) (x : V) (k : Nat) : Filled ((smallestOf self x).pipes k) :=
  ⟨(by decide : [1, 2].Nodup), rfl, Nat.le_refl 2⟩

theorem buffers_conserved_disabledWhileFilling :
    Conserved smallest ((run step smallest disabledWhileFilling).get (by decide)) :=
  buffers_conserved smallest_created (fun u _ => smallestOf_filled () () (u + 1))
    (Option.some_get (by decide)).symm

end Mtdp.Pipeline
