import Mtdp.Lib.Kahn
import Mtdp.Pipeline.Ownership
import Mtdp.Pipeline.Session

/-!
# One stream, whatever the schedule

The source and the stages as nodes of a row.  Their callbacks are functions
of their private state, of what they read, and of what they have written to
the buffer they are filling.  `View.Follows` relates a thread to the node it
runs; the buffers between two threads hold what one has pushed and the other
has not received.

A buffer comes out of the pool with what it was last filled with.  A callback
that pushes it as it is pushes something that depends on the schedule.

## Main results

* `Move.follows` — a step of a thread is a step of its node, or none.
* `streams_determined` — what a unit receives begins the sequence of the unit
  before it, if only buffers that were written are pushed.
* `unwritten_contents_depend_on_schedule` — they have to be.
-/

namespace Mtdp.Pipeline

open Lib.Transition Lib.Kahn

variable {V σ : Type}

/-! ## What is observed -/

/-- The contents of the buffer the thread is about to get. -/
def View.gets (v : View V σ) : List V :=
  match v.impl.pc with
  | .getFull => (v.inputPipe.fifo.head?.map v.inputPipe.memory).toList
  | _ => []

/-- The contents of the buffer the thread is about to push. -/
def View.pushes (v : View V σ) (a : Answer V σ) : List V :=
  match v.impl.pc with
  | .push =>
      if v.impl.readyToPush && a.ok then (v.impl.output.map v.outputPipe.memory).toList else []
  | _ => []

/-- What unit `u` receives through `mtdp_pipe_get_full_buffer`. -/
def received (u : Nat) (s : State V σ) : Label V σ → List V
  | .worker w _ => if w = u then (s.view u).gets else []
  | _ => []

/-- What unit `u` hands over to `mtdp_pipe_push_buffer`. -/
def sent (u : Nat) (s : State V σ) : Label V σ → List V
  | .worker w a => if w = u then (s.view u).pushes a else []
  | _ => []

/-! ## Deterministic callbacks -/

/-- Units that have an input. -/
def Role.reads : Role → Bool
  | .source => false
  | _ => true

/-- What the callbacks find in `context.input`. -/
def View.content (role : Role) (v : View V σ) : Option V :=
  if role.reads then v.impl.input.map v.inputPipe.memory else none

/-- A call of a node, seen by the routine. -/
def Return.ofOutcome (o : Outcome V σ) : Return V σ := ⟨o.self, o.write, o.push, o.pull⟩

/-- If the callback returns, it leaves behind what satisfies `P`. -/
def CallbackStep.Returns (P : Return V σ → Prop) : CallbackStep V σ → Prop
  | .finish => True
  | .ret r => P r

instance (P : Return V σ → Prop) [DecidablePred P] :
    (c : CallbackStep V σ) → Decidable (c.Returns P)
  | .finish => .isTrue trivial
  | .ret r => inferInstanceAs (Decidable (P r))

/-- The callbacks of a unit behave like a node. -/
def View.Obeys (role : Role) (node : Node V σ) (v : View V σ) (a : Answer V σ) : Prop :=
  (v.impl.pc = .process → a.init = node.init) ∧
  (v.impl.pc = .callback → a.callback.Returns fun r =>
    r = .ofOutcome (node.call v.impl.self (v.content role) v.impl.written))

/-- A buffer that becomes ready has been written since it was obtained. -/
def View.PushesWritten (v : View V σ) (a : Answer V σ) : Prop :=
  v.impl.pc = .callback → a.callback.Returns fun r =>
    r.readyToPush = true → (r.write.or v.impl.written).isSome

/-- The source and the stages behave like the nodes.  The sink may do
anything. -/
def Obeys (nodes : Nat → Node V σ) (s : State V σ) : Label V σ → Prop
  | .worker u a => u ≤ s.nStages → (s.view u).Obeys (s.role u) (nodes u) a
  | _ => True

/-- The source and the stages push only what they have written. -/
def PushesWritten (s : State V σ) : Label V σ → Prop
  | .worker u a => u ≤ s.nStages → (s.view u).PushesWritten a
  | _ => True

/-! ## A thread and its node -/

/-- The flags are as the routine expects them. -/
def Impl.Orderly (role : Role) (i : Impl V σ) : Prop :=
  match i.pc with
  | .release => i.readyToPush = true
  | .acquire | .timedOut | .getEmpty | .process => i.readyToPush = false
  | .acquired | .getFull | .emptyGet => i.readyToPush = false ∧ i.readyToPull = true
  | .callback | .finishing =>
      i.readyToPush = false ∧ i.initialized = true ∧ (role = .stage → i.readyToPull = false)
  | _ => True

namespace View

/-- The contents of a buffer that is ready and has not been pushed. -/
def pending (v : View V σ) : List V :=
  if v.impl.readyToPush = true ∧ v.impl.pc ≠ .release then
    (v.impl.output.map v.outputPipe.memory).toList
  else []

/-- The node that the thread runs, when it has pushed the listed contents. -/
def config (role : Role) (node : Node V σ) (given : List V) (v : View V σ) : Config V σ where
  self := if v.impl.initialized then v.impl.self else node.init
  input := if v.impl.readyToPull then none else v.content role
  written := if v.impl.readyToPush then none else v.impl.output.bind fun _ => v.impl.written
  rest := []
  outputs := given ++ v.pending

/-- The output buffer contains what was written to it. -/
def Stored (v : View V σ) : Prop :=
  ∀ buf x, v.impl.output = some buf → v.impl.written = some x → v.outputPipe.memory buf = x

/-- The thread has received and pushed the listed contents, as its node may. -/
def Follows (role : Role) (node : Node V σ) (taken given : List V) (v : View V σ) : Prop :=
  if v.impl.pc = .absent then taken = [] ∧ given = [] ∧ v.impl.initialized = false
  else v.impl.Orderly role ∧ v.Stored ∧ node.Reaches role.reads taken (v.config role node given)

end View

/-! ## Steps of a thread -/

section Steps

variable {role : Role} {a : Answer V σ} {v v' : View V σ}

theorem Goto.orderly {pc : Pc} (hgoto : Goto role a v pc) (hrole : role ≠ .sink)
    (hv : v.impl.Orderly role) : (v.goto pc).impl.Orderly role := by
  cases hgoto
  case enter h _ => cases role <;> trivial
  case skipPush h hready => cases role <;> exact hready
  case skipPull h hready =>
    simp only [Impl.Orderly, h] at hv
    cases role <;> exact hv
  case hasOutput h _ _ | timeout h _ _ =>
    simp only [Impl.Orderly, h] at hv
    exact hv
  all_goals trivial

/-- A step of the source or a stage keeps the flags in order. -/
theorem Move.orderly (hmove : Move role a v v') (hrole : role ≠ .sink)
    (hconsistent : v.impl.Consistent role) (hv : v.impl.Orderly role) :
    v'.impl.Orderly role := by
  cases hmove
  case goto hgoto => exact hgoto.orderly hrole hv
  case pushed hready _ _ => exact hready
  case released => cases role <;> rfl
  case acquired h hready _ =>
    simp only [Impl.Orderly, h] at hv
    exact ⟨hv, hready⟩
  case gotFull h _ =>
    simp only [Impl.Orderly, h] at hv
    cases role <;> exact hv.1
  case invoked h _ _ =>
    simp only [Impl.Orderly, h] at hv
    have hpull := hconsistent.2
    simp only [h] at hpull
    exact ⟨hv, rfl, fun hstage => (hpull hstage).2⟩
  case returned => cases role <;> trivial
  case unflagged h | gotNone h _ | gotOutput h _ _ _ | noOutput h _ _ _ | finishing h _ |
      finished h =>
    simp only [Impl.Orderly, h] at hv
    exact hv
  all_goals trivial

/-- A step of the source or a stage keeps track of the output buffer. -/
theorem Move.stored (hmove : Move role a v v') (hv : v.Stored) :
    v'.Stored := by
  cases hmove
  case pushed hready houtput hok => exact hv
  case released => exact nofun
  case gotOutput => exact fun _ _ _ => nofun
  case noOutput => exact fun _ _ _ => nofun
  case returned r h hret =>
    intro buf x houtput hwritten
    have hbuf : v.impl.output = some buf := houtput
    have hx : (role.keep r).write.or v.impl.written = some x := hwritten
    cases hwrite : (role.keep r).write with
    | none =>
        rw [hwrite, Option.none_or] at hx
        simpa [View.returns, hwrite] using hv buf x hbuf hx
    | some y =>
        rw [hwrite, Option.some_or] at hx
        simpa [View.returns, hwrite, hbuf, Channel.write] using hx
  all_goals exact hv

/-- Only a callback that returns changes a buffer, and it changes its own. -/
theorem Move.memory_eq (hmove : Move role a v v') {buf : Nat} (hbuf : buf ∉ v.impl.heldOutput) :
    v'.outputPipe.memory buf = v.outputPipe.memory buf := by
  cases hmove
  case returned r h hret =>
    have hne : v.impl.output ≠ some buf := by
      rintro houtput
      simp [Impl.heldOutput, h, houtput] at hbuf
    unfold View.returns
    dsimp only
    split
    · rename_i x b _ houtput
      have : buf ≠ b := by
        rintro rfl
        exact hne houtput
      simp [Channel.write, this]
    · rfl
  all_goals rfl

theorem View.gets_of_ne (hpc : v.impl.pc ≠ .getFull) : v.gets = [] := by
  unfold gets
  split <;> first | rfl | contradiction

theorem View.pushes_of_ne (hpc : v.impl.pc ≠ .push) : v.pushes a = [] := by
  unfold pushes
  split <;> first | rfl | contradiction

/-- A step to another program point neither gets nor pushes. -/
theorem Goto.silent {pc : Pc} (hgoto : Goto role a v pc) : v.gets = [] ∧ v.pushes a = [] := by
  cases hgoto
  case leave h _ =>
    rcases h with h | h <;>
      exact ⟨View.gets_of_ne (by simp [h]), View.pushes_of_ne (by simp [h])⟩
  case pushRefused h _ _ hok => exact ⟨View.gets_of_ne (by simp [h]), by simp [View.pushes, h, hok]⟩
  case skipPush h hready => exact ⟨View.gets_of_ne (by simp [h]), by simp [View.pushes, h, hready]⟩
  all_goals exact ⟨View.gets_of_ne (by simp [*]), View.pushes_of_ne (by simp [*])⟩

/-- The producer puts into the queue what it pushes. -/
theorem Move.output_flow (hmove : Move role a v v')
    (hown : ∀ buf ∈ v.outputPipe.fifo, buf ∉ v.impl.heldOutput) :
    v'.outputPipe.fifo.map v'.outputPipe.memory =
      v.outputPipe.fifo.map v.outputPipe.memory ++ v.pushes a := by
  have hsame (hfifo : v'.outputPipe.fifo = v.outputPipe.fifo) (hpushes : v.pushes a = []) :
      v'.outputPipe.fifo.map v'.outputPipe.memory =
        v.outputPipe.fifo.map v.outputPipe.memory ++ v.pushes a := by
    rw [hfifo, hpushes, List.append_nil]
    exact List.map_congr_left fun buf hbuf => hmove.memory_eq (hown buf hbuf)
  cases hmove
  case goto hgoto => exact hsame rfl hgoto.silent.2
  case pushed h hready houtput hok =>
    simp [View.pushes, h, hready, houtput, hok, Channel.pushBuffer]
  case flagged h =>
    exact hsame rfl (View.pushes_of_ne (by rcases h with h | h | h <;> simp [h]))
  case asked h _ =>
    exact hsame rfl (View.pushes_of_ne (by rcases h with ⟨_, h⟩ | ⟨_, h⟩ <;> simp [h]))
  case returned r h _ =>
    exact hsame (v.returns_queue _ _).1 (View.pushes_of_ne (by simp [h]))
  all_goals exact hsame rfl (View.pushes_of_ne (by simp [*]))

/-- The consumer takes out of the queue what it gets. -/
theorem Move.input_flow (hmove : Move role a v v') :
    v'.inputPipe.memory = v.inputPipe.memory ∧
      v.inputPipe.fifo.map v.inputPipe.memory =
        v.gets ++ v'.inputPipe.fifo.map v.inputPipe.memory := by
  have hsame (hmemory : v'.inputPipe.memory = v.inputPipe.memory)
      (hfifo : v'.inputPipe.fifo = v.inputPipe.fifo) (hgets : v.gets = []) :
      v'.inputPipe.memory = v.inputPipe.memory ∧
        v.inputPipe.fifo.map v.inputPipe.memory =
          v.gets ++ v'.inputPipe.fifo.map v.inputPipe.memory := by
    rw [hmemory, hfifo, hgets]
    exact ⟨rfl, rfl⟩
  cases hmove
  case goto hgoto => exact hsame rfl rfl hgoto.silent.1
  case gotFull h hfifo => simp [View.gets, h, hfifo]
  case gotNone h hfifo => simp [View.gets, h, hfifo]
  case flagged h =>
    exact hsame rfl rfl (View.gets_of_ne (by rcases h with h | h | h <;> simp [h]))
  case asked h _ =>
    exact hsame rfl rfl (View.gets_of_ne (by rcases h with ⟨_, h⟩ | ⟨_, h⟩ <;> simp [h]))
  case recycled h _ _ =>
    exact hsame (by simp) (by simp) (View.gets_of_ne (by simp [h]))
  case putBack h _ _ _ =>
    exact hsame (by simp) (by simp) (View.gets_of_ne (by simp [h]))
  all_goals exact hsame rfl rfl (View.gets_of_ne (by simp [*]))

variable {node : Node V σ}

/-- The node does not notice where its thread is. -/
theorem View.config_eq (given : List V)
    (himpl : v'.impl = { v.impl with
      destroyed := v'.impl.destroyed, pc := v'.impl.pc, done := v'.impl.done })
    (hinput : v'.inputPipe.memory = v.inputPipe.memory)
    (houtput : v'.outputPipe.memory = v.outputPipe.memory)
    (hpc : v.impl.pc ≠ .release) (hpc' : v'.impl.pc ≠ .release) :
    v'.config role node given = v.config role node given := by
  unfold config content pending
  rw [hinput, houtput, himpl]
  simp only [hpc, hpc', ne_eq, not_false_eq_true, and_true]

/-- A callback that returns is a call of the node. -/
theorem View.config_returns {r : Return V σ} (hrole : role ≠ .sink) (hpc : v.impl.pc = .callback)
    (hconsistent : v.impl.Consistent role) (horderly : v.impl.Orderly role)
    (hstored : (v.returns (role.keep r) role.afterCallback).Stored)
    (hr : r = .ofOutcome (node.call v.impl.self (v.content role) v.impl.written))
    (hwritten : r.readyToPush = true → (r.write.or v.impl.written).isSome) (given : List V) :
    (v.returns (role.keep r) role.afterCallback).config role node given =
      node.fire (v.config role node given) := by
  have hbuffers := hconsistent.2
  simp only [hpc] at hbuffers
  simp only [Impl.Orderly, hpc] at horderly
  obtain ⟨hpush, hinitialized, hpull⟩ := horderly
  obtain ⟨buf, hbuf⟩ := Option.isSome_iff_exists.mp (hbuffers.1 hrole)
  have hconfig : v.config role node given =
      ⟨v.impl.self, v.content role, v.impl.written, [], given⟩ := by
    have hinput : (if v.impl.readyToPull then none else v.content role) = v.content role := by
      cases role with
      | source => simp [content, Role.reads]
      | stage => simp [hpull rfl]
      | sink => contradiction
    simp [config, pending, hpush, hinitialized, hbuf, hinput]
  rw [hconfig, Node.fire]
  generalize node.call v.impl.self (v.content role) v.impl.written = o at hr ⊢
  subst hr
  have hself : (role.keep (.ofOutcome o)).self = o.self := by cases role <;> rfl
  have hwrite : (role.keep (.ofOutcome o)).write = o.write := by
    cases role <;> first | rfl | contradiction
  have hready : (role.keep (.ofOutcome o)).readyToPush = o.push := by
    cases role <;> first | rfl | contradiction
  have hafter : role.afterCallback ≠ .release := by cases role <;> nofun
  refine Config.ext ?_ ?_ ?_ rfl ?_
  · simp [config, returns, hinitialized, hself]
  · cases role with
    | source => simp [config, content, Role.reads]
    | stage => rfl
    | sink => contradiction
  · simp [config, returns, hwrite, hready, hbuf]
  · -- what is ready is what has been written
    cases hpushed : o.push with
    | false => simp [config, pending, hready, returns, hpushed]
    | true =>
        obtain ⟨x, hx⟩ := Option.isSome_iff_exists.mp (hwritten hpushed)
        have hx' : o.write.or v.impl.written = some x := hx
        have hmemory := hstored buf x hbuf (by rw [returns, hwrite]; exact hx)
        have hready' : (v.returns (role.keep (.ofOutcome o)) role.afterCallback).impl.readyToPush =
          true := hready.trans hpushed
        have houtput : (v.returns (role.keep (.ofOutcome o)) role.afterCallback).impl.output =
          some buf := hbuf
        simp [config, pending, hready', hx', hafter, houtput, hmemory]

/-- A step of the source or a stage gives its node an item, is one of its
calls, or none of its business. -/
theorem Move.node_step (hmove : Move role a v v') (hrole : role ≠ .sink)
    (hconsistent : v.impl.Consistent role) (horderly : v.impl.Orderly role) (hstored : v.Stored)
    (hobeys : v.Obeys role node a) (hwritten : v.PushesWritten a) (given : List V) :
    (v.gets = [] ∧ v'.config role node (given ++ v.pushes a) = v.config role node given) ∨
    (∃ x, v.gets = [x] ∧ role.reads = true ∧ (v.config role node given).input = none ∧
      v'.config role node (given ++ v.pushes a) =
        { v.config role node given with input := some x }) ∨
    (v.gets = [] ∧ (role.reads = true → (v.config role node given).input.isSome) ∧
      v'.config role node (given ++ v.pushes a) = node.fire (v.config role node given)) := by
  have hquiet (himpl : v'.impl = { v.impl with
        destroyed := v'.impl.destroyed, pc := v'.impl.pc, done := v'.impl.done })
      (hinput : v'.inputPipe.memory = v.inputPipe.memory)
      (houtput : v'.outputPipe.memory = v.outputPipe.memory)
      (hpc : v.impl.pc ≠ .release) (hpc' : v'.impl.pc ≠ .release)
      (hpushes : v.pushes a = []) :
      v'.config role node (given ++ v.pushes a) = v.config role node given := by
    rw [hpushes, List.append_nil]
    exact View.config_eq given himpl hinput houtput hpc hpc'
  cases hmove
  case goto hgoto =>
    exact .inl ⟨hgoto.silent.1,
      hquiet rfl rfl rfl hgoto.not_release.1 hgoto.not_release.2 hgoto.silent.2⟩
  case flagged h =>
    refine .inl ⟨View.gets_of_ne ?_, hquiet rfl rfl rfl ?_ nofun (View.pushes_of_ne ?_)⟩ <;>
      rcases h with h | h | h <;> simp [h]
  case acquired h _ _ | compensated h | unflagged h | finishing h _ | finished h =>
    exact .inl ⟨View.gets_of_ne (by simp [h]),
      hquiet rfl rfl rfl (by simp [h]) nofun (View.pushes_of_ne (by simp [h]))⟩
  case pushed h hready houtput hok =>
    refine .inl ⟨View.gets_of_ne (by simp [h]), Config.ext rfl rfl rfl rfl ?_⟩
    simp [View.config, View.pending, View.pushes, h, hready, houtput, hok, Channel.pushBuffer]
  case released h =>
    simp only [Impl.Orderly, h] at horderly
    rw [View.pushes_of_ne (by simp [h]), List.append_nil]
    refine .inl ⟨View.gets_of_ne (by simp [h]), Config.ext rfl rfl ?_ rfl ?_⟩
    · simp [View.config, View.releaseOutput, horderly]
    · simp [View.config, View.pending, View.releaseOutput, h]
  case gotFull buf bufs hsource h hfifo =>
    simp only [Impl.Orderly, h] at horderly
    have hreads : role.reads = true := by cases role <;> trivial
    rw [View.pushes_of_ne (by simp [h]), List.append_nil]
    refine .inr (.inl ⟨v.inputPipe.memory buf, by simp [View.gets, h, hfifo], hreads, ?_,
      Config.ext rfl ?_ rfl rfl ?_⟩)
    · simp [View.config, horderly.2]
    · simp [View.config, View.content, hreads]
    · simp [View.config, View.pending, horderly.1]
  case gotNone h hfifo =>
    simp only [Impl.Orderly, h] at horderly
    rw [View.pushes_of_ne (by simp [h]), List.append_nil]
    refine .inl ⟨by simp [View.gets, h, hfifo], Config.ext rfl ?_ rfl rfl ?_⟩
    · simp [View.config, horderly.2]
    · simp [View.config, View.pending, horderly.1]
  case asked h hnone =>
    have hpc : v.impl.pc = .getEmpty := h.elim (fun h => h.2) fun h => absurd h.1 hrole
    rw [View.pushes_of_ne (by simp [hpc]), List.append_nil]
    refine .inl ⟨View.gets_of_ne (by simp [hpc]), Config.ext rfl ?_ rfl rfl ?_⟩
    · simp [View.config, View.content, View.askInput, hnone]
    · simp [View.config, View.pending, View.askInput, hpc]
  case gotOutput h _ hnone _ =>
    simp only [Impl.Orderly, h] at horderly
    rw [View.pushes_of_ne (by simp [h]), List.append_nil]
    refine .inl ⟨View.gets_of_ne (by simp [h]), Config.ext rfl rfl ?_ rfl ?_⟩
    · simp [View.config, hnone]
    · simp [View.config, View.pending, horderly]
  case noOutput h _ hnone _ =>
    rw [View.pushes_of_ne (by simp [h]), List.append_nil]
    refine .inl ⟨View.gets_of_ne (by simp [h]), Config.ext rfl rfl ?_ rfl ?_⟩
    · simp [View.config, hnone]
    · simp [View.config, View.pending, h]
  case invoked h _ _ =>
    rw [View.pushes_of_ne (by simp [h]), List.append_nil]
    refine .inl ⟨View.gets_of_ne (by simp [h]), Config.ext ?_ rfl rfl rfl ?_⟩
    · simp [View.config, View.invoke, hobeys.1 h]
    · simp [View.config, View.pending, View.invoke, h]
  case recycled h hready hinput =>
    rw [View.pushes_of_ne (by simp [h]), List.append_nil]
    refine .inl ⟨View.gets_of_ne (by simp [h]), Config.ext rfl ?_ rfl rfl ?_⟩
    · simp [View.config, hready]
    · simp [View.config, View.pending, h]
  case returned r h hret =>
    refine .inr (.inr ⟨View.gets_of_ne (by simp [h]), fun hreads => ?_, ?_⟩)
    · have hbuffers := hconsistent.2
      simp only [h] at hbuffers
      simp only [Impl.Orderly, h] at horderly
      cases role
      case source => cases hreads
      case stage =>
        simpa [View.config, View.content, Role.reads, horderly.2.2 rfl] using hbuffers.2 rfl
      case sink => contradiction
    · have hr := hobeys.2 h
      have hready := hwritten h
      rw [hret] at hr hready
      rw [View.pushes_of_ne (by simp [h]), List.append_nil]
      exact View.config_returns hrole h hconsistent horderly
        (Move.stored (.returned h hret) hstored) hr hready given
  case putBack => contradiction

/-- **A thread follows its node.**  A step of the source or a stage is a step
of the node it runs, or none. -/
theorem Move.follows (hmove : Move role a v v') (hrole : role ≠ .sink)
    (hconsistent : v.impl.Consistent role) (hobeys : v.Obeys role node a)
    (hwritten : v.PushesWritten a) {taken given : List V}
    (hv : v.Follows role node taken given) :
    v'.Follows role node (taken ++ v.gets) (given ++ v.pushes a) := by
  rw [View.Follows, if_neg hmove.not_absent.1] at hv
  rw [View.Follows, if_neg hmove.not_absent.2]
  obtain ⟨horderly, hstored, hreaches⟩ := hv
  refine ⟨hmove.orderly hrole hconsistent horderly, hmove.stored hstored, ?_⟩
  rcases hmove.node_step hrole hconsistent horderly hstored hobeys hwritten given with
    ⟨hgets, heq⟩ | ⟨x, hgets, hreads, hinput, heq⟩ | ⟨hgets, hinput, heq⟩ <;> rw [hgets, heq]
  · rwa [List.append_nil]
  · exact hreaches.pull x hreads hinput
  · rw [List.append_nil]
    exact hreaches.fire hinput

end Steps

/-- A thread that has just been created runs a node that has made no call. -/
theorem Role.createThread_follows (role : Role) (hrole : role ≠ .sink) {node : Node V σ}
    {v : View V σ} {taken given : List V} (hpc : v.impl.pc = .absent)
    (hv : v.Follows role node taken given) :
    View.Follows role node taken given { v with impl := role.createThread v.impl } := by
  rw [View.Follows, if_pos hpc] at hv
  obtain ⟨rfl, rfl, hinitialized⟩ := hv
  rw [View.Follows, if_neg (by simp [Role.createThread_pc])]
  refine ⟨by simp [Impl.Orderly, Role.createThread_pc], ?_, ?_⟩
  · intro buf x houtput
    cases role <;> contradiction
  · convert Node.Reaches.start
    cases role <;> first | contradiction |
      simp [View.config, View.content, View.pending, Role.createThread, sourceCreateThread,
        stageCreateThread, hinitialized, Node.start, Role.reads]

/-- Nothing that happens elsewhere concerns a thread and its node, as long as
the contents of its buffers stay. -/
theorem View.Follows.congr {role : Role} {node : Node V σ} {v v' : View V σ}
    {taken given : List V} (hv : v.Follows role node taken given)
    (himpl : v'.impl = { v.impl with enabled := v'.impl.enabled })
    (hinput : ∀ buf ∈ v.impl.heldInput, v'.inputPipe.memory buf = v.inputPipe.memory buf)
    (houtput : v'.outputPipe.memory = v.outputPipe.memory) :
    v'.Follows role node taken given := by
  have hpc : v'.impl.pc = v.impl.pc := by rw [himpl]
  unfold Follows at hv ⊢
  rw [hpc]
  split at hv
  · rename_i habsent
    rw [if_pos habsent, himpl]
    exact hv
  · rename_i habsent
    rw [if_neg habsent]
    obtain ⟨horderly, hstored, hreaches⟩ := hv
    have hcontent : v'.content role = v.content role := by
      rw [Impl.heldInput_of_ne habsent] at hinput
      unfold content
      rw [himpl]
      cases h : v.impl.input with
      | none => rfl
      | some buf => simp [h, hinput buf]
    have hconfig : v'.config role node given = v.config role node given := by
      unfold config pending
      rw [hcontent, houtput, himpl]
    rw [himpl, hconfig, Stored, houtput, himpl]
    exact ⟨horderly, hstored, hreaches⟩

/-! ## Runs -/

/-- Nothing is in two places. -/
theorem OwnInv.copies_le {s₀ s : State V σ} (hs : OwnInv s₀ s)
    (hfilled : ∀ u ≤ s₀.nStages, Filled (s₀.pipes (u + 1))) {u : Nat} (hu : u ≤ s.nStages)
    (buf : Nat) : s.copies u buf ≤ 1 := by
  rw [hs.copies u hu]
  exact List.nodup_iff_count_le_one.mp (hfilled u (hs.nStages ▸ hu)).distinct buf

/-- What holds along a run: the threads follow their nodes, and the queue
between two units holds what the first has pushed and the second has not
received. -/
structure FlowInv (nodes : Nat → Node V σ) (s₀ : State V σ) (ls : List (Label V σ))
    (s : State V σ) : Prop where
  own : OwnInv s₀ s
  follows : ∀ u ≤ s.nStages, (s.view u).Follows (s.role u) (nodes u)
    (observe step (received u) s₀ ls) (observe step (sent u) s₀ ls)
  flow : ∀ u ≤ s.nStages, observe step (sent u) s₀ ls =
    observe step (received (u + 1)) s₀ ls ++
      (s.pipes (u + 1)).fifo.map (s.pipes (u + 1)).memory

theorem Created.flowInv {s : State V σ} (hs : Created s) (nodes : Nat → Node V σ) :
    FlowInv nodes s [] s where
  own := hs.ownInv
  follows := fun u _ => by simp [View.Follows, hs.pc, hs.initialized, observe]
  flow := fun u _ => by simp [observe, hs.fifo]

/-- A step in which nobody gets or pushes anything. -/
theorem FlowInv.of_silent {nodes : Nat → Node V σ} {s₀ s s' : State V σ}
    {ls : List (Label V σ)} {l : Label V σ} (hs : FlowInv nodes s₀ ls s)
    (hrun : run step s₀ ls = some s) (hl : ∀ u a, l ≠ .worker u a) (hown : OwnInv s₀ s')
    (hn : s'.nStages = s.nStages) (hpipes : s'.pipes = s.pipes)
    (hfollows : ∀ u ≤ s.nStages, ∀ taken given,
      (s.view u).Follows (s.role u) (nodes u) taken given →
        (s'.view u).Follows (s.role u) (nodes u) taken given) :
    FlowInv nodes s₀ (ls ++ [l]) s' := by
  have hreceived (u : Nat) : received u s l = [] := by
    unfold received
    split
    · exact absurd rfl (hl _ _)
    · rfl
  have hsent (u : Nat) : sent u s l = [] := by
    unfold sent
    split
    · exact absurd rfl (hl _ _)
    · rfl
  refine ⟨hown, fun u hu => ?_, fun u hu => ?_⟩ <;> rw [hn] at hu
  · rw [observe_snoc hrun, observe_snoc hrun, hreceived, hsent, List.append_nil, List.append_nil,
      State.role, hn]
    exact hfollows u hu _ _ (hs.follows u hu)
  · rw [observe_snoc hrun, observe_snoc hrun, hreceived, hsent, List.append_nil, List.append_nil,
      hpipes]
    exact hs.flow u hu

/-- A step of a thread keeps the invariant. -/
theorem FlowInv.worker {nodes : Nat → Node V σ} {s₀ s : State V σ} {ls : List (Label V σ)}
    {w : Nat} {a : Answer V σ} {v : View V σ} (hs : FlowInv nodes s₀ ls s)
    (hfilled : ∀ u ≤ s₀.nStages, Filled (s₀.pipes (u + 1)))
    (hrun : run step s₀ ls = some s) (hown : OwnInv s₀ (s.putView w v))
    (hw : w ≤ s.nStages + 1) (hmove : Move (s.role w) a (s.view w) v)
    (hobeys : Obeys nodes s (.worker w a)) (hwritten : PushesWritten s (.worker w a)) :
    FlowInv nodes s₀ (ls ++ [.worker w a]) (s.putView w v) := by
  obtain ⟨hmemory, hgets⟩ := hmove.input_flow
  -- a buffer the producer holds is neither queued nor with the consumer
  have hqueued {u buf : Nat} (hu : u ≤ s.nStages) (hheld : buf ∈ (s.impls u).heldOutput) :
      buf ∉ (s.pipes (u + 1)).fifo ∧ buf ∉ (s.impls (u + 1)).heldInput := by
    have hle := hs.own.copies_le hfilled hu buf
    have hpos := List.count_pos_iff.mpr hheld
    simp only [State.copies] at hle
    exact ⟨List.count_eq_zero.mp (by omega), List.count_eq_zero.mp (by omega)⟩
  refine ⟨hown, fun u hu => ?_, fun u hu => ?_⟩
  · rw [observe_snoc hrun, observe_snoc hrun, received, sent]
    by_cases hne : w = u
    · subst hne
      rw [if_pos rfl, if_pos rfl]
      have hview : (s.putView w v).view w = v := by simp [State.view]
      rw [hview]
      exact hmove.follows (s.role_ne_sink hu)
        (hs.own.consistent w (by omega) hmove.not_resting) (hobeys hu)
        (hwritten hu) (hs.follows w hu)
    · rw [if_neg hne, if_neg hne, List.append_nil, List.append_nil]
      refine (hs.follows u hu).congr ?_ (fun buf hbuf => ?_) ?_
      · simp [Ne.symm hne]
      · by_cases hproducer : u = w + 1
        · subst hproducer
          have hheld : buf ∉ (s.view w).impl.heldOutput := fun hheld =>
            (hqueued (Nat.le_of_succ_le hu) hheld).2 hbuf
          simpa using hmove.memory_eq hheld
        · simp [State.putView_pipes_of_ne _ _ _ (Ne.symm hne) hproducer]
      · by_cases hconsumer : u + 1 = w
        · subst hconsumer
          simpa using hmemory
        · simp [State.putView_pipes_of_ne _ _ _ hconsumer (by omega)]
  · rw [observe_snoc hrun, observe_snoc hrun, hs.flow u hu, received, sent]
    by_cases hconsumer : w = u + 1
    · subst hconsumer
      rw [if_neg (by omega), if_pos rfl, List.append_nil, List.append_assoc,
        State.putView_pipes_self, hmemory]
      exact congrArg _ hgets
    by_cases hproducer : w = u
    · subst hproducer
      have hpushes := hmove.output_flow fun buf hfifo hheld => (hqueued hu hheld).1 hfifo
      rw [if_pos rfl, if_neg (by omega), List.append_nil, List.append_assoc,
        State.putView_pipes_succ, hpushes]
      rfl
    · rw [if_neg hproducer, if_neg hconsumer, List.append_nil, List.append_nil,
        State.putView_pipes_of_ne _ _ _ (by omega) (by omega)]

/-- A step of a session keeps the invariant. -/
theorem FlowInv.snoc {nodes : Nat → Node V σ} {s₀ s s' : State V σ} {ls : List (Label V σ)}
    {l : Label V σ} (hs : FlowInv nodes s₀ ls s)
    (hfilled : ∀ u ≤ s₀.nStages, Filled (s₀.pipes (u + 1)))
    (hrun : run step s₀ ls = some s) (hown : OwnInv s₀ s') (hobeys : Obeys nodes s l)
    (hwritten : PushesWritten s l) (hstep : SessionStep s l s') :
    FlowInv nodes s₀ (ls ++ [l]) s' := by
  cases hstep with
  | worker hw hmove => exact hs.worker hfilled hrun hown hw hmove hobeys hwritten
  | @create _ w _ _ habsent hn hpipes himpls =>
      refine hs.of_silent hrun (by rintro _ _ ⟨⟩) hown hn hpipes fun u hu taken given hfollows => ?_
      by_cases hne : u = w
      · subst hne
        have hview : s'.view u = { s.view u with impl := (s.role u).createThread (s.impls u) } := by
          simp [State.view, himpls, hpipes]
        rw [hview]
        exact Role.createThread_follows _ (s.role_ne_sink hu) habsent hfollows
      · have hview : s'.view u = s.view u := by simp [State.view, himpls, hpipes, hne]
        rwa [hview]
  | flags hl hn hpipes himpls =>
      refine hs.of_silent hrun hl hown hn hpipes fun u _ taken given hfollows => ?_
      obtain ⟨enabled, himpl⟩ := himpls u
      refine hfollows.congr ?_ (fun _ _ => ?_) ?_
      · rw [State.view_impl, himpl]
        rfl
      · rw [State.view_inputPipe, hpipes]
        rfl
      · rw [State.view_outputPipe, hpipes]
        rfl
  | wait => exact hs.of_silent hrun (by rintro _ _ ⟨⟩) hown rfl rfl fun _ _ _ _ hfollows => hfollows

theorem FlowInv.received_isPrefix {nodes : Nat → Node V σ} {s₀ s : State V σ}
    {ls : List (Label V σ)} (hs : FlowInv nodes s₀ ls s) {u : Nat} (hu : u ≤ s.nStages) :
    observe step (received (u + 1)) s₀ ls <+: observe step (sent u) s₀ ls :=
  ⟨_, (hs.flow u hu).symm⟩

/-- What a unit has pushed begins its sequence, unit after unit. -/
theorem FlowInv.begins_sent {nodes : Nat → Node V σ} {s₀ s : State V σ}
    {ls : List (Label V σ)} (hs : FlowInv nodes s₀ ls s) {u : Nat} (hu : u ≤ s.nStages) :
    Begins (observe step (sent u) s₀ ls) (sequence nodes u) := by
  induction u with
  | zero =>
      have hfollows := hs.follows 0 hu
      rw [View.Follows] at hfollows
      split at hfollows
      · simp [hfollows.2.1, Begins]
      · obtain ⟨_, _, hreaches⟩ := hfollows
        exact (begins_sequence_zero hreaches).of_isPrefix (List.prefix_append _ _)
  | succ u ih =>
      have hreceived := (ih (Nat.le_of_succ_le hu)).of_isPrefix
        (hs.received_isPrefix (Nat.le_of_succ_le hu))
      have hfollows := hs.follows (u + 1) hu
      rw [View.Follows] at hfollows
      split at hfollows
      · simp [hfollows.2.1, Begins]
      · obtain ⟨_, _, hreaches⟩ := hfollows
        have hrole : s.role (u + 1) = .stage := by simp [State.role, hu]
        rw [hrole] at hreaches
        exact (begins_sequence_succ hreaches hreceived).of_isPrefix (List.prefix_append _ _)

/-- In a session all threads follow their nodes. -/
theorem FlowInv.of_run {nodes : Nat → Node V σ} {s t : State V σ} {ls : List (Label V σ)}
    (hs : Created s) (hfilled : ∀ u ≤ s.nStages, Filled (s.pipes (u + 1)))
    (hsession : .call .disable ∉ ls) (hobeys : Takes step (Obeys nodes) s ls)
    (hwritten : Takes step PushesWritten s ls) (hrun : run step s ls = some t) :
    FlowInv nodes s ls t :=
  session_run (motive := FlowInv nodes s) hs (hs.flowInv nodes)
    (fun _ _ _ _ hrun hs hQ hnext _ hstep => hs.snoc hfilled hrun
      (step_ownInv hs.own hfilled hnext) hQ.1 hQ.2 hstep)
    hsession (hobeys.and hwritten) hrun

/-- **One stream.**  Take any run of a freshly created pipeline whose pipes
have been sized and filled, without a disable call, in which the callbacks of
the source and the stages are functions and push only what they have written.
What a stage or the sink receives begins the sequence that the unit before it
computes when the units run one after the other over unbounded queues. -/
theorem streams_determined {nodes : Nat → Node V σ} {s t : State V σ} {ls : List (Label V σ)}
    (hs : Created s) (hfilled : ∀ u ≤ s.nStages, Filled (s.pipes (u + 1)))
    (hsession : .call .disable ∉ ls) (hobeys : Takes step (Obeys nodes) s ls)
    (hwritten : Takes step PushesWritten s ls) (hrun : run step s ls = some t) :
    ∀ u ≤ s.nStages, Begins (observe step (received (u + 1)) s ls) (sequence nodes u) := by
  have hinv := FlowInv.of_run hs hfilled hsession hobeys hwritten hrun
  intro u hu
  rw [← hinv.own.nStages] at hu
  exact (hinv.begins_sent hu).of_isPrefix (hinv.received_isPrefix hu)

/-! ## Contents that were not written -/

instance [DecidableEq V] [DecidableEq σ] (role : Role) (node : Node V σ) (v : View V σ)
    (a : Answer V σ) : Decidable (v.Obeys role node a) :=
  inferInstanceAs (Decidable (_ ∧ _))

instance (v : View V σ) (a : Answer V σ) : Decidable (v.PushesWritten a) :=
  inferInstanceAs (Decidable (_ → _))

instance [DecidableEq V] [DecidableEq σ] (nodes : Nat → Node V σ) (s : State V σ) :
    (l : Label V σ) → Decidable (Obeys nodes s l)
  | .worker _ _ => inferInstanceAs (Decidable (_ → _))
  | .call _ => .isTrue trivial
  | .controller _ => .isTrue trivial
  | .waiter => .isTrue trivial

instance (s : State V σ) : (l : Label V σ) → Decidable (PushesWritten s l)
  | .worker _ _ => inferInstanceAs (Decidable (_ → _))
  | .call _ => .isTrue trivial
  | .controller _ => .isTrue trivial
  | .waiter => .isTrue trivial

/-- A source that makes every buffer ready.  It writes `true` to the first
one, and also to the others if `always`. -/
def fill (always : Bool) : Node Bool Bool where
  init := false
  call := fun called _ _ => ⟨true, if called && !always then none else some true, true, true⟩

/-- A thread makes `steps` steps; its callback returns `r`. -/
def returning (unit steps : Nat) (r : Return Bool Bool) : List (Label Bool Bool) :=
  List.replicate steps (.worker unit ⟨true, false, .ret r⟩)

/-- The source fills two buffers, the second one after the sink has put back
the first one, if `waits`. -/
def fillTwo (always waits : Bool) : List (Label Bool Bool) :=
  let write := if always then some true else none
  enableAndStart ++ returning 0 7 ⟨true, some true, true, true⟩ ++
    returning 0 5 ⟨true, none, true, true⟩ ++
    (if waits then returning 1 13 ⟨true, none, false, true⟩ else []) ++
    returning 0 8 ⟨true, write, true, true⟩ ++
    returning 1 (if waits then 3 else 16) ⟨true, none, false, true⟩

theorem fillTwo_session (always waits : Bool) : .call .disable ∉ fillTwo always waits := by
  cases always <;> cases waits <;>
    simp [fillTwo, enableAndStart, returning, controllerSteps]

theorem streams_determined_fillTwo :
    observe step (received 1) (smallestOf false false) (fillTwo true true) = [true, true] ∧
      Begins (observe step (received 1) (smallestOf false false) (fillTwo true true))
        (sequence (fun _ => fill true) 0) :=
  ⟨by decide, streams_determined (smallestOf_created false false)
    (fun u _ => smallestOf_filled false false (u + 1)) (fillTwo_session true true)
    (by decide) (by decide)
    (t := (run step (smallestOf false false) (fillTwo true true)).get (by decide))
    (Option.some_get _).symm 0 (Nat.le_refl 0)⟩

/-- The second buffer is pushed as it came out of the pool.  It contains what
the first one did if the sink has put that one back before. -/
theorem unwritten_contents_depend_on_schedule :
    ¬ ∀ (nodes : Nat → Node Bool Bool) (s : State Bool Bool), Created s →
      (∀ u ≤ s.nStages, Filled (s.pipes (u + 1))) →
      ∃ contents : Nat → Nat → Option Bool, ∀ (t : State Bool Bool) (ls : List (Label Bool Bool)),
        .call .disable ∉ ls → Takes step (Obeys nodes) s ls → run step s ls = some t →
        ∀ u ≤ s.nStages, Begins (observe step (received (u + 1)) s ls) (contents u) := by
  intro hall
  obtain ⟨contents, hcontents⟩ := hall (fun _ => fill false) _ (smallestOf_created false false)
    fun u _ => smallestOf_filled false false (u + 1)
  have hreceived (waits : Bool) : observe step (received 1) (smallestOf false false)
      (fillTwo false waits) = [true, waits] := by
    cases waits <;> decide
  have hsecond (waits : Bool) : contents 0 1 = some waits := by
    have hbegins := hcontents
      ((run step (smallestOf false false) (fillTwo false waits)).get (by cases waits <;> decide))
      (fillTwo false waits) (fillTwo_session false waits) (by cases waits <;> decide)
      (Option.some_get _).symm 0 (Nat.le_refl 0)
    rw [hreceived] at hbegins
    exact hbegins 1 (by simp)
  have := (hsecond false).symm.trans (hsecond true)
  cases this

end Mtdp.Pipeline
