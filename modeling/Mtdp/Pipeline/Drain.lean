import Mathlib.Data.DFinsupp.WellFounded
import Mtdp.Pipeline.Ownership
import Mtdp.Pipeline.Progress
import Mtdp.Pipeline.Session
import Mtdp.Pipeline.Wait

/-!
# A running pipeline can always drain itself

The threads of a pipeline wait for each other: a producer for an empty buffer, a
consumer for a token, and both may have turned back with a failed push, an empty
pool or a timeout behind them.  Whatever has happened in a session, a running
pipeline is never stuck in this: as long as anything is queued or held, the threads
by themselves can bring it to the sink.

The thread to run is one that has a token to release, or else the last one in the
pipeline that has something to do.  No unit behind it holds a buffer, so it finds an
empty one, and its step brings it closer to the end of its work.  What it adds to
the work of the next unit does not matter, since the units are compared in their
order, the first one first.

## Main results

* `Move.load_lt` — a thread with something to do gets closer to its end.
* `pipeline_drains` — from every state of a session in which the pipeline is active,
  a schedule of its threads leads to a drained one.
-/

namespace Mtdp.Pipeline

open Lib.Transition

variable {V σ : Type}

/-! ## What a unit has to do -/

/-- Nothing fails, and a callback consumes its input. -/
structure Willing (a : Answer V σ) : Prop where
  ok : a.ok = true
  callback : ∃ r, a.callback = .ret r ∧ r.readyToPull = true

namespace Impl

/-- An input is to be processed, which may leave an output behind, and then to be put
back; a unit that has none has to ask for one first. -/
def inputLeft (i : Impl V σ) : Nat :=
  if i.readyToPull then if i.input.isSome then 1 else 0 else 3

/-- An output is to be pushed, or its token to be released. -/
def pushLeft (role : Role) (i : Impl V σ) : Nat :=
  if role = .stage ∧ i.readyToPush = true then if i.pc = .release then 1 else 2 else 0

/-- What a stage or the sink has to do, with `queued` buffers in its input pipe. -/
def work (role : Role) (i : Impl V σ) (queued : Nat) : Nat :=
  4 * queued + (i.inputLeft + i.pushLeft role)

/-- How far its thread is from the end of its round.  A round that has come to
nothing ends first. -/
def away (role : Role) (i : Impl V σ) : Nat :=
  match i.pc with
  | .pushFailed | .putBackFailed | .timedOut | .emptyGet => 14
  | .test => 13
  | .gate => 12
  | .recheck => 11
  | .push | .putBack => 10
  | .release => 9
  | .acquire => 8
  | .acquired => 7
  | .getFull => 6
  | .getEmpty => 5
  | .process => if role = .sink ∨ i.output.isSome = true then 4 else 14
  | .callback => 3
  | .recycle => if i.readyToPull then 2 else 14
  | .absent | .finishing | .exited => 0

def load (role : Role) (i : Impl V σ) (queued : Nat) : Nat :=
  15 * i.work role queued + i.away role

/-- What the flags are at the program points that a thread comes to only if they
are. -/
def Phase (role : Role) (i : Impl V σ) : Prop :=
  match i.pc with
  | .release | .pushFailed => i.readyToPush = true
  | .acquire | .timedOut | .acquired | .getFull | .emptyGet =>
      role = .stage → i.readyToPush = false
  | .getEmpty | .process | .callback =>
      role ≠ .source → (role = .stage → i.readyToPush = false) ∧ i.readyToPull = false
  | _ => True

end Impl

theorem Goto.phase_kept {role : Role} {a : Answer V σ} {v : View V σ} {pc : Pc}
    (hgoto : Goto role a v pc) (hv : v.impl.Phase role) : (v.goto pc).impl.Phase role := by
  unfold Impl.Phase at hv ⊢
  cases hgoto
  case enter => cases role <;> trivial
  case skipPush h hready => cases role <;> simp_all [View.goto, Role.afterPush]
  case skipPull h hready => cases role <;> simp_all [View.goto, Role.afterPull]
  all_goals simp_all [View.goto]

/-- A step of a thread keeps the flags of its phase. -/
theorem Move.phase_kept {role : Role} {a : Answer V σ} {v v' : View V σ}
    (hmove : Move role a v v') (hv : v.impl.Phase role) : v'.impl.Phase role := by
  cases hmove
  case goto hgoto => exact hgoto.phase_kept hv
  all_goals unfold Impl.Phase at hv ⊢
  case released => cases role <;> simp [View.releaseOutput, Role.afterPush]
  case gotFull h _ => cases role <;> simp_all [Role.afterPull]
  case returned => cases role <;> simp [Role.afterCallback]
  all_goals simp_all [View.storeDone, View.releaseInput, View.askInput, View.invoke]

/-! ## One step closer -/

namespace Impl

variable {role : Role} {i i' : Impl V σ} {queued queued' : Nat}

theorem away_le (role : Role) (i : Impl V σ) : i.away role ≤ 14 := by
  unfold away
  repeat' split
  all_goals omega

theorem load_lt_of_work (hwork : i'.work role queued' < i.work role queued) :
    i'.load role queued' < i.load role queued := by
  have := i'.away_le role
  simp only [load]
  omega

theorem load_lt_of_away (hwork : i'.work role queued' ≤ i.work role queued)
    (haway : i'.away role < i.away role) : i'.load role queued' < i.load role queued := by
  simp only [load]
  omega

/-- The program point matters to the work only when a token is to be released. -/
theorem work_congr (hpull : i'.readyToPull = i.readyToPull) (hpush : i'.readyToPush = i.readyToPush)
    (hinput : i'.input = i.input) (hpc : i'.pc = .release ↔ i.pc = .release) :
    i'.work role queued = i.work role queued := by
  simp only [work, inputLeft, pushLeft, hpull, hpush, hinput, hpc]

end Impl

/-- What a stage or the sink finds in a session. -/
structure Supplied (role : Role) (v : View V σ) : Prop where
  alive : v.impl.destroyed = false
  phase : v.impl.Phase role
  consistent : v.impl.Consistent role
  /-- there is room for the buffer the unit holds -/
  room : v.inputPipe.pool.length + v.impl.heldInput.length ≤ v.inputPipe.capacity
  queued : v.impl.pc = .getFull → v.inputPipe.fifo ≠ []

/-- Nothing sends the unit back to the beginning of its round. -/
structure Unhindered (role : Role) (v : View V σ) (a : Answer V σ) : Prop where
  push : v.impl.pc = .push → a.ok = true
  acquire : v.impl.pc = .acquire → v.impl.readyToPull = true → a.ok = true
  empty : v.impl.pc = .getEmpty → role ≠ .sink → v.impl.output = none → v.outputPipe.pool ≠ []

/-- A step that does some of the work of the unit. -/
structure Works (role : Role) (v v' : View V σ) : Prop where
  work : v'.impl.work role v'.inputPipe.fifo.length < v.impl.work role v.inputPipe.fifo.length
  queue : v'.outputPipe.fifo.length ≤ v.outputPipe.fifo.length + 1

/-- A step on the way to the next one that does. -/
structure Walks (role : Role) (a : Answer V σ) (v v' : View V σ) : Prop where
  work : v'.impl.work role v'.inputPipe.fifo.length = v.impl.work role v.inputPipe.fifo.length
  queue : v'.outputPipe.fifo.length = v.outputPipe.fifo.length
  release : v'.impl.pc = .release ↔ v.impl.pc = .release
  away : Unhindered role v a → v'.impl.away role < v.impl.away role

theorem Goto.walks {role : Role} {a : Answer V σ} {v : View V σ} {pc : Pc}
    (hgoto : Goto role a v pc) (hrole : role ≠ .source) (hv : Supplied role v) :
    Walks role a v (v.goto pc) := by
  have hrelease : pc = .release ↔ v.impl.pc = .release := by
    have howed := hgoto.owed
    cases pc <;> cases h : v.impl.pc <;> simp_all [Pc.owed]
  refine ⟨Impl.work_congr rfl rfl rfl hrelease, rfl, hrelease, fun ha => ?_⟩
  cases hgoto
  case leave hdestroyed =>
    rw [hv.alive] at hdestroyed
    cases hdestroyed
  case enter h _ => cases role <;> simp [h, Impl.away, View.goto, Role.entry]
  case pushRefused h _ _ hrefused =>
    rw [ha.push h] at hrefused
    cases hrefused
  case timeout h hready hrefused =>
    rw [ha.acquire h hready] at hrefused
    cases hrefused
  case skipPush h _ => cases role <;> simp_all [Impl.away, View.goto, Role.afterPush]
  case skipPull h _ => cases role <;> simp_all [Impl.away, View.goto, Role.afterPull]
  case putBackRefused h _ hinput hfull =>
    have hroom := hv.room
    rw [Impl.heldInput_of_ne (by simp [h]), hinput, Option.toList_some, List.length_singleton]
      at hroom
    omega
  all_goals simp_all [Impl.away, View.goto]

/-- What a callback that consumes its input leaves to do. -/
theorem returned_works_or_walks {role : Role} {a : Answer V σ} {v : View V σ} {r : Return V σ}
    (hrole : role ≠ .source) (hv : Supplied role v) (hpc : v.impl.pc = .callback)
    (hpull : r.readyToPull = true) :
    Works role v (v.returns (role.keep r) role.afterCallback) ∨
      Walks role a v (v.returns (role.keep r) role.afterCallback) := by
  have hphase := hv.phase
  simp only [Impl.Phase, hpc] at hphase
  obtain ⟨hnot, hpulled⟩ := hphase hrole
  have hqueue : (v.returns (role.keep r) role.afterCallback).outputPipe.fifo =
      v.outputPipe.fifo := (v.returns_queue _ _).1
  have hbefore : v.impl.work role v.inputPipe.fifo.length = 4 * v.inputPipe.fifo.length + 3 := by
    cases role <;> simp_all [Impl.work, Impl.inputLeft, Impl.pushLeft]
  cases role with
  | source => contradiction
  | stage =>
      by_cases hboth : v.impl.input.isSome = true ∧ r.readyToPush = true
      · -- the output takes the place of the input
        refine .inr ⟨?_, by rw [hqueue], ?_, fun _ => ?_⟩
        · rw [hbefore]
          simp [Impl.work, Impl.inputLeft, Impl.pushLeft, View.returns, Role.keep,
            Role.afterCallback, hpull, hboth]
        · simp [hpc, Role.afterCallback]
        · simp [Impl.away, View.returns, Role.keep, Role.afterCallback, hpc, hpull]
      · refine .inl ⟨?_, by rw [hqueue]; exact Nat.le_succ _⟩
        rw [hbefore]
        simp only [Impl.work, Impl.inputLeft, Impl.pushLeft, View.returns, Role.keep,
          Role.afterCallback, hpull]
        cases hinput : v.impl.input.isSome <;> cases hpush : r.readyToPush <;>
          simp_all
  | sink =>
      refine .inl ⟨?_, by rw [hqueue]; exact Nat.le_succ _⟩
      rw [hbefore]
      simp only [Impl.work, Impl.inputLeft, Impl.pushLeft, View.returns, Role.keep,
        Role.afterCallback, hpull]
      cases v.impl.input.isSome <;> simp

/-- **One step** of a thread whose callbacks consume their inputs. -/
theorem Move.works_or_walks {role : Role} {a : Answer V σ} {v v' : View V σ}
    (hmove : Move role a v v') (hrole : role ≠ .source) (hv : Supplied role v)
    (hcallback : v.impl.pc = .callback → ∃ r, a.callback = .ret r ∧ r.readyToPull = true) :
    Works role v v' ∨ Walks role a v v' := by
  have hphase := hv.phase
  have hconsistent := hv.consistent.2
  cases hmove
  case goto hgoto => exact .inr (hgoto.walks hrole hv)
  case pushed hsink h hready _ _ =>
    have hstage : role = .stage := by cases role <;> first | rfl | contradiction
    refine .inl ⟨?_, by simp [Channel.pushBuffer]⟩
    simp [Impl.work, Impl.inputLeft, Impl.pushLeft, hstage, hready, h]
  case released hsink h =>
    have hstage : role = .stage := by cases role <;> first | rfl | contradiction
    simp only [Impl.Phase, h] at hphase
    refine .inl ⟨?_, by simp [View.releaseOutput, Channel.release]⟩
    simp [Impl.work, Impl.inputLeft, Impl.pushLeft, View.releaseOutput, hstage, hphase, h]
  case flagged h =>
    have haway : v.impl.away role = 14 ∧ v.impl.pc ≠ .release := by
      rcases h with h | h | h <;> simp [Impl.away, h]
    refine .inr ⟨Impl.work_congr rfl rfl rfl ?_, rfl, ?_, fun _ => ?_⟩
    · simp [View.storeDone, haway.2]
    · simp [View.storeDone, haway.2]
    · rw [haway.1]
      simp [Impl.away, View.storeDone]
  case acquired h _ _ =>
    exact .inr ⟨Impl.work_congr rfl rfl rfl (by simp [h]), rfl, by simp [h],
      fun _ => by simp [Impl.away, h]⟩
  case unflagged h =>
    exact .inr ⟨Impl.work_congr rfl rfl rfl (by simp [View.storeDone, h]), rfl,
      by simp [View.storeDone, h], fun _ => by simp [Impl.away, View.storeDone, h]⟩
  case gotFull h hfifo =>
    refine .inl ⟨?_, Nat.le_succ _⟩
    have hnot : role.afterPull ≠ .release := by cases role <;> rintro ⟨⟩
    simp only [Impl.work, Impl.inputLeft, Impl.pushLeft, hfifo, List.length_cons, h, hnot]
    simp
    omega
  case gotNone h hfifo => exact absurd hfifo (hv.queued h)
  case compensated h =>
    exact .inr ⟨Impl.work_congr rfl rfl rfl (by simp [View.releaseInput, h]), rfl,
      by simp [View.releaseInput, h], fun _ => by simp [Impl.away, View.releaseInput, h]⟩
  case asked h hnone =>
    have hnot : v.impl.pc ≠ .release ∧ v.impl.readyToPull = false := by
      rcases h with ⟨_, h⟩ | ⟨_, h⟩ <;> simp only [Impl.Phase, h] at hphase <;>
        exact ⟨by simp [h], (hphase hrole).2⟩
    refine .inl ⟨?_, Nat.le_succ _⟩
    simp [Impl.work, Impl.inputLeft, Impl.pushLeft, View.askInput, hnone, hnot]
  case gotOutput h _ _ _ =>
    exact .inr ⟨Impl.work_congr rfl rfl rfl (by simp [h]), rfl, by simp [h],
      fun _ => by simp [Impl.away, h]⟩
  case noOutput hsink h _ hnone hpool =>
    exact .inr ⟨Impl.work_congr rfl rfl rfl (by simp [h]), rfl, by simp [h],
      fun ha => absurd hpool (ha.empty h hsink hnone)⟩
  case invoked h houtput _ =>
    have haway : v.impl.away role = 4 := by
      cases role <;> simp_all [Impl.away]
    exact .inr ⟨Impl.work_congr rfl rfl rfl (by simp [View.invoke, h]), rfl,
      by simp [View.invoke, h], fun _ => by rw [haway]; simp [Impl.away, View.invoke]⟩
  case finishing | finished => contradiction
  case returned h hret =>
    obtain ⟨r, hcall, hpull⟩ := hcallback h
    rw [hret] at hcall
    cases hcall
    exact returned_works_or_walks hrole hv h hpull
  case recycled h hready hinput =>
    refine .inl ⟨?_, Nat.le_succ _⟩
    simp [Impl.work, Impl.inputLeft, Impl.pushLeft, hready, hinput, h]
  case putBack h hready hinput _ =>
    refine .inl ⟨?_, Nat.le_succ _⟩
    simp [Impl.work, Impl.inputLeft, Impl.pushLeft, hready, hinput, h]

/-- A step of a thread with all it needs. -/
theorem Move.load_lt {role : Role} {a : Answer V σ} {v v' : View V σ} (hmove : Move role a v v')
    (hrole : role ≠ .source) (hv : Supplied role v) (ha : Unhindered role v a)
    (hcallback : v.impl.pc = .callback → ∃ r, a.callback = .ret r ∧ r.readyToPull = true) :
    v'.impl.load role v'.inputPipe.fifo.length < v.impl.load role v.inputPipe.fifo.length := by
  rcases hmove.works_or_walks hrole hv hcallback with h | h
  · exact Impl.load_lt_of_work h.work
  · exact Impl.load_lt_of_away (Nat.le_of_eq h.work) (h.away ha)

/-! ## What holds in a session -/

/-- Which workers a start call has switched on. -/
def GatesOpen (s : State V σ) : Prop :=
  match s.controller with
  | .idle => s.active = true → s.enabled = true ∧ ∀ u ≤ s.nStages + 1, (s.impls u).enabled = true
  | .starting left => ∀ u ≤ s.nStages + 1, left ≤ u → (s.impls u).enabled = true
  | _ => True

theorem step_gatesOpen {s s' : State V σ} {l : Label V σ} (hsession : Session s)
    (hs : GatesOpen s) (hstep : step s l = some s') : GatesOpen s' := by
  unfold GatesOpen at hs
  cases l with
  | worker u a =>
      have hcontroller := (step_worker_frame hstep).2.1
      obtain ⟨_, v, hmove, rfl⟩ := step_worker hstep
      have hflag (w : Nat) : ((s.putView u v).impls w).enabled = (s.impls w).enabled := by
        by_cases hne : w = u
        · subst hne
          simpa using hmove.enabled_eq
        · simp [hne]
      unfold GatesOpen
      rw [hcontroller]
      cases hc : s.controller <;> simp only [hc, hflag] at hs ⊢ <;> exact hs
  | call c =>
      simp only [step] at hstep
      split at hstep <;> cases hstep
      rename_i hidle
      simp only [hidle] at hs
      rcases s.beginCall_cases c with ⟨e, _, _, heq⟩ | ⟨_, _, heq⟩ | ⟨_, _, _, heq⟩ |
        ⟨_, _, _, heq⟩ | ⟨_, _, heq⟩ <;> rw [heq]
      · exact hs
      · trivial
      · exact fun u hu hle => absurd hu (Nat.not_le_of_lt hle)
      all_goals trivial
  | controller allocated =>
      cases controllerStep_move hstep <;> rename_i hcontroller <;>
        simp only [hcontroller, Session] at hs hsession
      case start left =>
        intro u hu hle
        by_cases hne : u = left
        · subst hne
          simp [workerEnable]
        · simpa [hne] using hs u hu (by omega)
      case started => exact fun _ => ⟨hsession, fun u hu => hs u hu (Nat.zero_le u)⟩
      case enabled | stopped => rintro ⟨⟩
      all_goals trivial
  | waiter =>
      cases hstep
      exact hs

/-- In a session only the source may be told to leave. -/
def Alive (s : State V σ) : Prop := ∀ u ≤ s.nStages + 1, u ≠ 0 →
  (s.impls u).destroyed = false ∧ (s.impls u).pc ≠ .exited

theorem Move.alive {role : Role} {a : Answer V σ} {v v' : View V σ} (hmove : Move role a v v')
    (hrole : role ≠ .source) (hv : v.impl.destroyed = false) :
    v'.impl.destroyed = false ∧ v'.impl.pc ≠ .exited := by
  constructor
  · rcases hmove.destroyed_cases with heq | ⟨hsource, _⟩
    · exact heq.trans hv
    · exact absurd hsource hrole
  · cases hmove
    case goto hgoto =>
      cases hgoto
      case leave hdestroyed =>
        rw [hv] at hdestroyed
        cases hdestroyed
      case enter | skipPush | skipPull => cases role <;> rintro ⟨⟩
      all_goals rintro ⟨⟩
    case released | gotFull | returned => cases role <;> rintro ⟨⟩
    all_goals rintro ⟨⟩

theorem step_alive {s s' : State V σ} {l : Label V σ} (hs : Alive s) (hstep : SessionStep s l s') :
    Alive s' := by
  cases hstep with
  | @worker u a v _ hmove =>
      intro w hw hzero
      by_cases hne : w = u
      · subst hne
        rw [State.putView_impls_self]
        exact hmove.alive (mt State.role_eq_source.mp hzero) (hs w hw hzero).1
      · rw [State.putView_impls_of_ne _ _ _ hne]
        exact hs w hw hzero
  | @create _ u _ _ _ hn _ himpls =>
      intro w hw hzero
      rw [himpls]
      by_cases hne : w = u
      · subst hne
        rw [Function.update_self]
        refine ⟨?_, by rw [Role.createThread_pc]; rintro ⟨⟩⟩
        have := (hs w (hn ▸ hw) hzero).1
        cases s.role w <;> exact this
      · rw [Function.update_of_ne hne]
        exact hs w (hn ▸ hw) hzero
  | flags _ hn _ himpls =>
      intro w hw hzero
      obtain ⟨enabled, himpl⟩ := himpls w
      rw [himpl]
      exact hs w (hn ▸ hw) hzero
  | wait => exact hs

/-- The invariant of a session. -/
structure SessionInv (s₀ s : State V σ) : Prop where
  session : Session s
  own : OwnInv s₀ s
  threads : ThreadsInv s
  phases : ∀ u ≤ s.nStages + 1, (s.impls u).Phase (s.role u)
  balanced : Balanced s
  gates : GatesOpen s
  alive : Alive s

theorem Created.sessionInv {s : State V σ} (hs : Created s) : SessionInv s s where
  session := hs.session
  own := hs.ownInv
  threads := hs.threadsInv
  phases := fun u _ => by simp [Impl.Phase, hs.pc]
  balanced := hs.balanced
  gates := by simp [GatesOpen, hs.controller, hs.active]
  alive := fun u _ _ => ⟨hs.workerDestroyed u, by simp [hs.pc]⟩

theorem step_sessionInv {s₀ s s' : State V σ} {l : Label V σ} (hs : SessionInv s₀ s)
    (hfilled : ∀ u ≤ s₀.nStages, Filled (s₀.pipes (u + 1))) (hl : l ≠ .call .disable)
    (hstep : step s l = some s') : SessionInv s₀ s' := by
  obtain ⟨hsession, hsessionStep⟩ := step_session hs.session hl hstep
  have hphases := step_units (P := fun role i => i.Phase role)
    (by rintro role i (h | h) <;> simp [Impl.Phase, h])
    (fun _ _ _ _ hmove hv => hmove.phase_kept hv)
    (fun role i => by simp [Impl.Phase, Role.createThread_pc])
    (fun _ _ _ _ _ hi => hi) hs.threads.shape hs.phases hstep
  have hclears : ClearsEmpty s l := by
    intro _ left _ hcontroller
    have := hs.session
    simp [Session, hcontroller] at this
  exact
    { session := hsession
      own := step_ownInv hs.own hfilled hstep
      threads := step_threadsInv hs.threads hstep
      phases := fun u hu => by
        have hn := step_nStages hstep
        rw [State.role, hn]
        exact hphases u (hn ▸ hu)
      balanced := (step_balanced hs.threads.shape hs.balanced hstep).mpr hclears
      gates := step_gatesOpen hs.session hs.gates hstep
      alive := step_alive hs.alive hsessionStep }

/-! ## Which thread to run -/

/-- A unit with nothing to do. -/
theorem Impl.of_work_eq_zero {role : Role} {i : Impl V σ} {queued : Nat}
    (hwork : i.work role queued = 0) :
    queued = 0 ∧ i.readyToPull = true ∧ i.input = none ∧
      (role = .stage → i.readyToPush = false) := by
  simp only [work, Nat.add_eq_zero_iff, Nat.mul_eq_zero] at hwork
  obtain ⟨hqueued, hinput, hpush⟩ := hwork
  refine ⟨by omega, ?_, ?_, ?_⟩
  · by_contra hpull
    simp [inputLeft, hpull] at hinput
  · cases h : i.input with
    | none => rfl
    | some buf =>
        unfold inputLeft at hinput
        split at hinput <;> simp [h] at hinput
  · intro hstage
    by_contra hready
    simp only [pushLeft, hstage, true_and, ite_eq_right_iff] at hpush
    have := hpush (by simpa using hready)
    split at this <;> cases this

namespace State

/-- What the unit has to do. -/
def work (s : State V σ) (u : Nat) : Nat :=
  (s.impls u).work (s.role u) (s.pipes u).fifo.length

/-- How far the unit is from the end of it.  The source has a token to release, if
anything. -/
def unitLoad (s : State V σ) (u : Nat) : Nat :=
  if u = 0 then (s.impls 0).pc.owed else (s.impls u).load (s.role u) (s.pipes u).fifo.length

/-- Behind this unit there is nothing to do. -/
def ClearBehind (s : State V σ) (u : Nat) : Prop := ∀ w, u < w → w ≤ s.nStages + 1 → s.work w = 0

end State

theorem drained_of_work_eq_zero {s : State V σ}
    (hwork : ∀ u, 1 ≤ u → u ≤ s.nStages + 1 → s.work u = 0) : Drained s where
  queues := fun u hu =>
    List.length_eq_zero_iff.mp (Impl.of_work_eq_zero (hwork (u + 1) (by omega) (by omega))).1
  stages := fun u hpos hu => by
    obtain ⟨_, _, hinput, hpush⟩ := Impl.of_work_eq_zero (hwork u hpos (by omega))
    exact ⟨hinput, hpush (by simp [State.role, hu, Nat.ne_of_gt hpos])⟩
  sink := fun _ => (Impl.of_work_eq_zero (hwork (s.nStages + 1) (by omega) (Nat.le_refl _))).2.2.1

namespace SessionInv

variable {s₀ s : State V σ}

/-- What a thread that has been created finds. -/
theorem supplied (hs : SessionInv s₀ s)
    (hfilled : ∀ u ≤ s₀.nStages, Filled (s₀.pipes (u + 1))) {u : Nat} (hpos : 1 ≤ u)
    (hu : u ≤ s.nStages + 1) (hrest : ¬ (s.impls u).pc.Resting) :
    Supplied (s.role u) (s.view u) where
  alive := (hs.alive u hu (by omega)).1
  phase := hs.phases u hu
  consistent := (hs.threads.fit u hu).consistent hrest
  room := by
    obtain ⟨w, rfl⟩ := Nat.exists_eq_add_of_le' hpos
    have := hs.own.room hfilled (Nat.le_of_succ_le_succ hu)
    simp only [State.view]
    omega
  queued := by
    intro hpc hnil
    obtain ⟨w, rfl⟩ := Nat.exists_eq_add_of_le' hpos
    have hbalance := hs.balanced w (Nat.le_of_succ_le_succ hu)
    simp only [State.view] at hpc hnil
    rw [hpc, hnil, List.length_nil] at hbalance
    simp only [Pc.taken] at hbalance
    omega

/-- The last unit that has something to do finds an empty buffer. -/
theorem empty (hs : SessionInv s₀ s)
    (hnonempty : ∀ u ≤ s₀.nStages, (s₀.pipes (u + 1)).pool ≠ []) {u : Nat}
    (hclear : s.ClearBehind u) (hsink : s.role u ≠ .sink) (hnone : (s.impls u).output = none) :
    (s.pipes (u + 1)).pool ≠ [] := by
  intro hnil
  have hle := s.le_of_role_ne_sink hsink
  obtain ⟨hqueued, _, hinput, _⟩ :=
    Impl.of_work_eq_zero (hclear (u + 1) (Nat.lt_succ_self u) (by omega))
  -- all buffers of the output pipe would be in the place of the missing one
  have hlength := hs.own.length hle
  have hheld : (s.impls u).heldOutput = [] := by simp [Impl.heldOutput, hnone]
  have hheld' : (s.impls (u + 1)).heldInput = [] := by simp [Impl.heldInput, hinput]
  rw [hnil, hqueued, hheld, hheld'] at hlength
  exact hnonempty u (hs.own.nStages ▸ hle) (List.length_eq_zero_iff.mp hlength.symm)

/-- A unit with something to do that is about to pull finds a token, once the
producers have released theirs. -/
theorem token (hs : SessionInv s₀ s) {u : Nat} (hu : u ≤ s.nStages) (hwork : s.work (u + 1) ≠ 0)
    (howed : (s.impls u).pc ≠ .release) (hpc : (s.impls (u + 1)).pc = .acquire)
    (hpull : (s.impls (u + 1)).readyToPull = true) : 0 < (s.pipes (u + 1)).semaphore := by
  have hrole : s.role (u + 1) ≠ .source := mt State.role_eq_source.mp (Nat.succ_ne_zero u)
  have hconsistent := ((hs.threads.fit (u + 1) (by omega)).consistent
    (by simp [Pc.Resting, hpc])).2
  have hphase := hs.phases (u + 1) (by omega)
  simp only [hpc] at hconsistent
  simp only [Impl.Phase, hpc] at hphase
  have hinput : (s.impls (u + 1)).inputLeft = 0 := by
    simp [Impl.inputLeft, hpull, hconsistent (.inr hpull)]
  have hpush : (s.impls (u + 1)).pushLeft (s.role (u + 1)) = 0 := by
    unfold Impl.pushLeft
    split
    · next h => simp [hphase h.1] at h
    · rfl
  have hqueued : (s.pipes (u + 1)).fifo.length ≠ 0 := by
    simpa [State.work, Impl.work, hinput, hpush] using hwork
  have hbalance := hs.balanced u hu
  have hnone : (s.impls u).pc.owed = 0 := by
    cases h : (s.impls u).pc <;> first | rfl | exact absurd h howed
  rw [hpc, hnone] at hbalance
  simp only [Pc.taken] at hbalance
  omega

/-- The thread of the unit makes a step, in an active pipeline. -/
theorem moves (hs : SessionInv s₀ s) (hidle : s.controller = .idle) (hactive : s.active = true)
    {u : Nat} (hu : u ≤ s.nStages + 1) (hpc : (s.impls u).pc ≠ .exited) {a : Answer V σ}
    (ha : Answered (s.role u) (s.view u) a) : ∃ s', step s (.worker u a) = some s' := by
  have hgates := hs.gates
  simp only [GatesOpen, hidle] at hgates
  obtain ⟨henabled, hopen⟩ := hgates hactive
  have hexists := hs.threads.existing.all (.inl henabled) u hu
  apply hs.threads.moves hu _ (fun _ => .inl (hopen u hu)) ha
  rintro (h | h)
  · exact hexists h
  · exact hpc h

end SessionInv

/-- The loads of the units, the first one first. -/
def State.loads (s : State V σ) (n : Nat) : Fin (n + 2) → Nat := fun u => s.unitLoad u

/-- A step that brings a unit closer to its end lowers the loads: none of those
before it is concerned. -/
theorem loads_lt {s : State V σ} {u : Nat} {v : View V σ} (hu : u ≤ s.nStages + 1)
    (hload : (s.putView u v).unitLoad u < s.unitLoad u) :
    Pi.Lex (· < ·) (· < ·) ((s.putView u v).loads s.nStages) (s.loads s.nStages) := by
  refine ⟨⟨u, by omega⟩, fun w hw => ?_, hload⟩
  have hlt : (w : Nat) < u := hw
  have hrole : (s.putView u v).role w = s.role w := rfl
  simp only [State.loads, State.unitLoad]
  split
  · rw [State.putView_impls_of_ne _ _ _ (by omega)]
  · rw [State.putView_impls_of_ne _ _ _ (by omega),
      State.putView_pipes_of_ne _ _ _ (by omega) (by omega), hrole]

/-- **The thread to run.** -/
theorem SessionInv.leads {s₀ s : State V σ} (hs : SessionInv s₀ s)
    (hfilled : ∀ u ≤ s₀.nStages, Filled (s₀.pipes (u + 1)))
    (hnonempty : ∀ u ≤ s₀.nStages, (s₀.pipes (u + 1)).pool ≠ [])
    (hidle : s.controller = .idle) (hactive : s.active = true) (hnot : ¬ Drained s)
    {answer : Nat → Answer V σ} (hwilling : ∀ u, 1 ≤ u → Willing (answer u)) :
    ∃ u s', step s (.worker u (answer u)) = some s' ∧
      Pi.Lex (· < ·) (· < ·) (s'.loads s.nStages) (s.loads s.nStages) := by
  have hleads {u : Nat} (hpos : 1 ≤ u) (hu : u ≤ s.nStages + 1)
      (hclear : (s.impls u).pc = .getEmpty → s.ClearBehind u)
      (htoken : (s.impls u).pc = .acquire → (s.impls u).readyToPull = true →
        0 < (s.pipes u).semaphore) :
      ∃ u s', step s (.worker u (answer u)) = some s' ∧
        Pi.Lex (· < ·) (· < ·) (s'.loads s.nStages) (s.loads s.nStages) := by
    have hrole : s.role u ≠ .source := mt State.role_eq_source.mp (by omega)
    have ha := hwilling u hpos
    have hanswered : Answered (s.role u) (s.view u) (answer u) := by
      refine ⟨fun hpc hpull _ => htoken hpc hpull, fun hfinish => ?_⟩
      obtain ⟨r, hret, _⟩ := ha.callback
      rw [hfinish] at hret
      cases hret
    obtain ⟨s', hstep⟩ := hs.moves hidle hactive hu (hs.alive u hu (by omega)).2 hanswered
    obtain ⟨_, v, hmove, rfl⟩ := step_worker hstep
    refine ⟨u, _, hstep, loads_lt hu ?_⟩
    have hload := hmove.load_lt hrole (hs.supplied hfilled hpos hu hmove.not_resting)
      ⟨fun _ => ha.ok, fun _ _ => ha.ok,
        fun hpc hsink hnone => hs.empty hnonempty (hclear hpc) hsink hnone⟩ fun _ => ha.callback
    have hkeep : (s.putView u v).role u = s.role u := rfl
    simpa [State.unitLoad, hkeep, Nat.ne_of_gt hpos] using hload
  by_cases hrelease : ∃ u ≤ s.nStages, (s.impls u).pc = .release
  · obtain ⟨u, hu, hpc⟩ := hrelease
    by_cases hzero : u = 0
    · subst hzero
      have hstep : step s (.worker 0 (answer 0)) =
          some (s.putView 0 ((s.view 0).releaseOutput .getEmpty)) := by
        simp [step, workerRoutine, s.role_zero, Role.routine, sourceRoutine, hpc]
      refine ⟨0, _, hstep, loads_lt (Nat.zero_le _) ?_⟩
      simp [State.unitLoad, View.releaseOutput, hpc, Pc.owed]
    · exact hleads (u := u) (by omega) (by omega) (by simp [hpc]) (by simp [hpc])
  · push Not at hrelease
    have hbusy : ∃ u ≤ s.nStages + 1, 1 ≤ u ∧ s.work u ≠ 0 := by
      by_contra hnone
      push Not at hnone
      exact hnot (drained_of_work_eq_zero fun u hpos hu => hnone u hu hpos)
    obtain ⟨w, hw, hbusy⟩ := hbusy
    let P : Nat → Prop := fun u => 1 ≤ u ∧ s.work u ≠ 0
    obtain ⟨hpos, hwork⟩ : P (Nat.findGreatest P (s.nStages + 1)) :=
      Nat.findGreatest_spec hw hbusy
    have hlast : s.ClearBehind (Nat.findGreatest P (s.nStages + 1)) := by
      intro u hlt hu
      by_contra hne
      exact Nat.findGreatest_is_greatest hlt hu ⟨by omega, hne⟩
    obtain ⟨u, hsucc⟩ := Nat.exists_eq_add_of_le' hpos
    have hle : u + 1 ≤ s.nStages + 1 := hsucc ▸ Nat.findGreatest_le _
    rw [hsucc] at hwork hlast
    exact hleads (u := u + 1) (Nat.succ_pos u) hle (fun _ => hlast)
      (hs.token (by omega) hwork (hrelease u (by omega)))

/-- One step of the thread of a unit, answered by `answer`. -/
def threadStep (answer : State V σ → Nat → Answer V σ) (s : State V σ) (u : Nat) :
    Option (State V σ) :=
  step s (.worker u (answer s u))

theorem SessionInv.drains {s₀ s : State V σ} (hs : SessionInv s₀ s)
    (hfilled : ∀ u ≤ s₀.nStages, Filled (s₀.pipes (u + 1)))
    (hnonempty : ∀ u ≤ s₀.nStages, (s₀.pipes (u + 1)).pool ≠ [])
    (hidle : s.controller = .idle) (hactive : s.active = true)
    {answer : State V σ → Nat → Answer V σ} (hwilling : ∀ s u, 1 ≤ u → Willing (answer s u)) :
    ∃ us t, run (threadStep answer) s us = some t ∧ Drained t := by
  have hwf : WellFounded (Pi.Lex (· < ·) (· < ·) : (Fin (s.nStages + 2) → Nat) → _ → Prop) :=
    Pi.Lex.wellFounded (· < ·) fun _ => Nat.lt_wfRel.wf
  generalize hn : s.nStages = n at hwf
  generalize hloads : s.loads n = loads
  induction loads using hwf.induction generalizing s with
  | _ loads ih =>
      by_cases hdrained : Drained s
      · exact ⟨[], s, rfl, hdrained⟩
      · obtain ⟨u, s', hstep, hlt⟩ :=
          hs.leads hfilled hnonempty hidle hactive hdrained (hwilling s)
        have hs' := step_sessionInv hs hfilled (by rintro ⟨⟩) hstep
        obtain ⟨_, v, _, rfl⟩ := step_worker hstep
        rw [hn, hloads] at hlt
        obtain ⟨us, t, hrun, ht⟩ := ih _ hlt hs' hidle hactive hn rfl
        exact ⟨u :: us, t, run_cons.mpr ⟨_, hstep, hrun⟩, ht⟩

/-- **A running pipeline is never stuck.**  Take any run of a session of a freshly
created pipeline in which every pipe has a buffer, with whatever pushes have
failed, acquires have timed out and callbacks have done.  When it is active and in
no call, then whatever the callbacks do from here on, as long as they consume their
inputs, there is a schedule of the threads that drains it. -/
theorem pipeline_drains {s₀ s : State V σ} {ls : List (Label V σ)} (hs₀ : Created s₀)
    (hfilled : ∀ u ≤ s₀.nStages, Filled (s₀.pipes (u + 1)))
    (hnonempty : ∀ u ≤ s₀.nStages, (s₀.pipes (u + 1)).pool ≠ [])
    (hsession : .call .disable ∉ ls) (hrun : run step s₀ ls = some s)
    (hidle : s.controller = .idle) (hactive : s.active = true)
    {answer : State V σ → Nat → Answer V σ} (hwilling : ∀ s u, 1 ≤ u → Willing (answer s u)) :
    ∃ us t, run (threadStep answer) s us = some t ∧ Drained t := by
  have hlabels : Takes step (fun _ l => l ≠ .call .disable) s₀ ls :=
    takes_of_mem fun l hl _ heq => hsession (heq ▸ hl)
  have hs : SessionInv s₀ s :=
    run_invariant_of_takes (fun _ _ _ hs hl hstep => step_sessionInv hs hfilled hl hstep)
      hs₀.sessionInv hlabels hrun
  exact hs.drains hfilled hnonempty hidle hactive hwilling

/-- The sink has timed out when the source pushes a buffer and gets the other one;
its next push fails. -/
def turnedBack : List (Label Unit Unit) :=
  enableAndStart ++ threadSteps 1 5 false false true ++ threadSteps 0 18 true true false ++
    threadSteps 0 1 false true false

theorem pipeline_drains_turnedBack :
    let s := (run step smallest turnedBack).get (by decide)
    ∃ us t, run (threadStep fun _ _ => ⟨true, (), .ret ⟨(), none, true, true⟩⟩) s us = some t ∧
      Drained t :=
  pipeline_drains smallest_created (fun u _ => smallestOf_filled () () (u + 1))
    (fun _ _ => by rintro ⟨⟩) (by simp [turnedBack, enableAndStart, controllerSteps, threadSteps])
    (Option.some_get _).symm (by decide) (by decide) fun _ _ _ => ⟨rfl, _, rfl, rfl⟩

end Mtdp.Pipeline
