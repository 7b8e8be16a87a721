import Mtdp.Lib.Transition
import Mtdp.Pipe.Statements

/-!
# The functions of a pipe under its mutexes

Any number of threads call the functions of `src/pipe.c` that the threads of a
pipeline and `mtdp_pipeline_clear` call.  A function takes one of the mutexes or, with
`mtdp_lock2`, both; then it goes through its statements one by one, while the others
do the same; then it unlocks and returns.  `mtdp_pipe_resize` is not thread-safe, its
documentation says, and is left out.

The statements keep to what the mutexes guard.  So every run is a sequence of whole
calls, each of which takes effect when its thread gets the mutex, or the second of
two: what is proved about the operations of a channel, one at a time, is true of the
functions.

## Main results

* `Inv.step` — a step of a thread is seen as a whole call or not at all.
* `Inv.outside` — an access to what no mutex guards is seen as it is.
* `calls_atomic` — every run of the threads is a run of whole calls.
-/

namespace Mtdp.Calls

open Lib.Critical Lib.Transition Lock2

variable {V T : Type}

/-! ## The threads -/

/-- The thread has its mutexes and is between locking and unlocking. -/
def inside : Pc → Bool
  | .unlockPool | .unlockOne _ => true
  | _ => false

/-- It has been there in this call. -/
def entered : Pc → Bool
  | .unlockPool | .unlockFifo | .unlockOne _ => true
  | _ => false

/-- How far threads have got that call the functions of a pipe. -/
structure Progress (V T : Type) where
  locks : Lock2.State T
  /-- the call a thread is in -/
  call : T → Operation
  /-- the statements that are left of it -/
  body : T → Body (Channel V) Result
  /-- what its last call has returned -/
  result : T → Option Result

/-- A pipe and the threads that call its functions. -/
structure State (V T : Type) extends Progress V T where
  channel : Channel V

/-- Who moves, and what it calls if it is in no call. -/
structure Label (T : Type) where
  thread : T
  operation : Operation

/-- What a function returns. -/
def returned : Body (Channel V) Result → Option Result
  | .ret r => some r
  | .act _ _ => none

variable [DecidableEq T]

/-- A thread has made a call of the mutex functions. -/
def State.goOn (s : State V T) (l : Label T) (locks : Lock2.State T) : State V T :=
  if s.locks.pc l.thread = .idle then
    { s with locks, call := Function.update s.call l.thread l.operation }
  else if inside (locks.pc l.thread) then
    { s with locks, body := Function.update s.body l.thread (s.call l.thread).body }
  else if locks.pc l.thread = .idle then
    { s with locks, result := Function.update s.result l.thread (returned (s.body l.thread)) }
  else { s with locks }

@[simp] theorem State.goOn_locks (s : State V T) (l : Label T) (locks : Lock2.State T) :
    (s.goOn l locks).locks = locks := by
  unfold goOn
  (repeat' split) <;> rfl

/-- One step of a thread: a statement, or a call of the mutex functions. -/
def step (p : Platform) (s : State V T) (l : Label T) : Option (State V T) :=
  match inside (s.locks.pc l.thread), s.body l.thread with
  | true, .act access next =>
      some { s with
        channel := access s.channel
        body := Function.update s.body l.thread (next s.channel) }
  | _, _ => (Lock2.step p s.locks ⟨l.thread, l.operation.job⟩).map (s.goOn l)

/-- Threads that have not called anything. -/
def Progress.start : Progress V T where
  locks := Lock2.start
  call := fun _ => .checkInvariants
  body := fun _ => .ret .unit
  result := fun _ => none

/-- A pipe, and threads that have not called anything. -/
def start (c : Channel V) : State V T := { Progress.start with channel := c }

/-- What a step is, by what the thread has left to do. -/
theorem step_cases {p : Platform} {s s' : State V T} {l : Label T}
    (hstep : step p s l = some s') :
    (∃ access next, inside (s.locks.pc l.thread) = true ∧
      s.body l.thread = .act access next ∧
      s' = { s with
        channel := access s.channel
        body := Function.update s.body l.thread (next s.channel) }) ∨
    ∃ locks, (inside (s.locks.pc l.thread) = true → ∃ r, s.body l.thread = .ret r) ∧
      Lock2.step p s.locks ⟨l.thread, l.operation.job⟩ = some locks ∧ s' = s.goOn l locks := by
  unfold step at hstep
  split at hstep
  · next access next hin hbody =>
    cases hstep
    exact .inl ⟨access, next, hin, hbody, rfl⟩
  · next hnot =>
    obtain ⟨locks, hlocks, rfl⟩ := Option.map_eq_some_iff.mp hstep
    refine .inr ⟨locks, fun hin => ?_, hlocks, rfl⟩
    cases hbody : s.body l.thread with
    | ret r => exact ⟨r, rfl⟩
    | act access next => exact (hnot access next hin hbody).elim

/-- Where a thread gets by a call of the mutex functions. -/
inductive Next (job : Job) : Pc → Pc → Prop
  | both : job = .both → Next job .idle .lockFirst
  | one {w : Which} : job = .one w → Next job .idle (.lockOne w)
  | locked : Next job .lockFirst .trySecond
  | tried {pc : Pc} : pc = .trySecond ∨ pc = .tryFirst → Next job pc .unlockPool
  | busy : Next job .trySecond .dropFirst
  | dropped : Next job .dropFirst .yield
  | yielded : Next job .yield .lockSecond
  | lockedSecond : Next job .lockSecond .tryFirst
  | busyFirst : Next job .tryFirst .dropSecond
  | droppedSecond : Next job .dropSecond .lockFirst
  | unlockedPool : Next job .unlockPool .unlockFifo
  | unlockedFifo : Next job .unlockFifo .idle
  | lockedOne {w : Which} : Next job (.lockOne w) (.unlockOne w)
  | unlockedOne {w : Which} : Next job (.unlockOne w) .idle

/-- The thread is there now, and the others are where they were. -/
def Moved (s s' : Lock2.State T) (t : T) (pc : Pc) : Prop :=
  s'.pc t = pc ∧ ∀ u, u ≠ t → s'.pc u = s.pc u

theorem put_moved (s : Lock2.State T) (t : T) (w : Which) (m : Mutex T) (pc : Pc) :
    Moved s (s.put t w m pc) t pc :=
  ⟨Function.update_self .., fun _ hu => Function.update_of_ne hu ..⟩

theorem lock_moved {p : Platform} {s s' : Lock2.State T} {t : T} {w : Which} {pc : Pc}
    (hlock : Lock2.lock p s t w pc = some s') : Moved s s' t pc := by
  obtain ⟨m, _, rfl⟩ := Option.map_eq_some_iff.mp hlock
  exact put_moved s t w m pc

theorem unlock_moved {s s' : Lock2.State T} {t : T} {w : Which} {pc : Pc}
    (hunlock : Lock2.unlock s t w pc = some s') : Moved s s' t pc := by
  obtain ⟨m, _, rfl⟩ := Option.map_eq_some_iff.mp hunlock
  exact put_moved s t w m pc

theorem trylock_moved {p : Platform} {s s' : Lock2.State T} {t : T} {w : Which} {next busy : Pc}
    (htry : some (Lock2.trylock p s t w next busy) = some s') :
    Moved s s' t next ∨ Moved s s' t busy := by
  cases htry
  unfold Lock2.trylock
  split
  · exact .inl (put_moved ..)
  · exact .inr (put_moved ..)

/-- A thread makes one call of a mutex function; the others stay where they are. -/
theorem lock2_step_next {p : Platform} {s s' : Lock2.State T} {l : Lock2.Label T}
    (hstep : Lock2.step p s l = some s') :
    ∃ pc, Next l.job (s.pc l.thread) pc ∧ Moved s s' l.thread pc := by
  have hgoto (pc : Pc) : Moved s (s.goto l.thread pc) l.thread pc :=
    ⟨Function.update_self .., fun _ hu => Function.update_of_ne hu ..⟩
  cases hpc : s.pc l.thread <;> simp only [Lock2.step, hpc] at hstep
  case idle =>
    cases hstep
    refine ⟨_, ?_, hgoto _⟩
    cases hjob : l.job with
    | both => exact .both rfl
    | one w => exact .one rfl
  case lockFirst => exact ⟨_, .locked, lock_moved hstep⟩
  case trySecond =>
    rcases trylock_moved hstep with h | h
    · exact ⟨_, .tried (.inl rfl), h⟩
    · exact ⟨_, .busy, h⟩
  case dropFirst => exact ⟨_, .dropped, unlock_moved hstep⟩
  case yield =>
    cases hstep
    exact ⟨_, .yielded, hgoto _⟩
  case lockSecond => exact ⟨_, .lockedSecond, lock_moved hstep⟩
  case tryFirst =>
    rcases trylock_moved hstep with h | h
    · exact ⟨_, .tried (.inr rfl), h⟩
    · exact ⟨_, .busyFirst, h⟩
  case dropSecond => exact ⟨_, .droppedSecond, unlock_moved hstep⟩
  case unlockPool => exact ⟨_, .unlockedPool, unlock_moved hstep⟩
  case unlockFifo => exact ⟨_, .unlockedFifo, unlock_moved hstep⟩
  case lockOne w => exact ⟨_, .lockedOne, lock_moved hstep⟩
  case unlockOne w => exact ⟨_, .unlockedOne, unlock_moved hstep⟩

/-! ## The invariant -/

/-- At these program points of the mutex functions a call with this job may be. -/
def Fits (job : Job) : Pc → Prop
  | .idle => True
  | .lockOne w | .unlockOne w => job = .one w
  | _ => job = .both

theorem Next.fits {job : Job} {pc pc' : Pc} (hnext : Next job pc pc') (hpc : Fits job pc) :
    Fits job pc' := by
  cases hnext
  case both h | one h => exact h
  case tried h => rcases h with rfl | rfl <;> exact hpc
  case unlockedFifo | unlockedOne => trivial
  all_goals exact hpc

/-- What holds of the threads in every run. -/
structure Inv (s : State V T) : Prop where
  owned : Owned s.locks
  fits : ∀ t, Fits (s.call t).job (s.locks.pc t)
  within : ∀ t, inside (s.locks.pc t) = true →
    (s.body t).Within guarded (covers (s.call t).job)
  ended : ∀ t, s.locks.pc t = .unlockFifo → ∃ r, s.body t = .ret r

/-- In whose section a part of the pipe is. -/
def State.owner (s : State V T) : Option Which → Option T
  | none => none
  | some w => (s.locks.mutex w).owner.filter fun t => inside (s.locks.pc t)

omit [DecidableEq T] in
theorem Inv.owner_eq_some {s : State V T} (hs : Inv s) {w : Option Which} {t : T} :
    s.owner w = some t ↔ inside (s.locks.pc t) = true ∧ covers (s.call t).job w := by
  cases w with
  | none =>
      have := hs.fits t
      cases hpc : s.locks.pc t <;> cases hjob : (s.call t).job <;>
        simp_all [State.owner, inside, covers, Fits]
  | some w =>
      rw [State.owner, Option.filter_eq_some_iff, hs.owned.owner]
      have := hs.fits t
      cases hpc : s.locks.pc t <;> cases hjob : (s.call t).job <;>
        simp_all [inside, covers, Fits, Pc.holds]

omit [DecidableEq T] in
/-- Who is inside holds something. -/
theorem Inv.owns {s : State V T} (hs : Inv s) {t : T} (hin : inside (s.locks.pc t) = true) :
    ∃ w, s.owner w = some t := by
  simp only [hs.owner_eq_some, hin, true_and]
  cases (s.call t).job with
  | both => exact ⟨some .pool, by rintro ⟨⟩⟩
  | one w => exact ⟨some w, rfl⟩

omit [DecidableEq T] in
theorem Inv.proper {s : State V T} (hs : Inv s) : Proper guarded s.owner s.body := by
  intro t w howner
  have hin := (hs.owner_eq_some.mp howner).1
  have hsame : (fun w => s.owner w = some t) = covers (s.call t).job :=
    funext fun w => propext (by simp [hs.owner_eq_some, hin])
  rw [hsame]
  exact hs.within t hin

/-! ## Whole calls -/

/-- The pipe and the answers that its callers have. -/
structure Seen (V T : Type) where
  channel : Channel V
  result : T → Option Result

/-- A whole call. -/
def callStep (s : Seen V T) (call : T × Operation) : Option (Seen V T) :=
  some ⟨(call.2.run s.channel).1,
    Function.update s.result call.1 (some (call.2.run s.channel).2)⟩

/-- What the pipe and the answers will be once the calls under way are over. -/
def State.seen (s : State V T) : Seen V T where
  channel := settled guarded s.owner s.body s.channel
  result t := if entered (s.locks.pc t) then some ((s.body t).run s.channel).2 else s.result t

omit [DecidableEq T] in
theorem State.seen_of_idle {s : State V T} (hidle : ∀ t, s.locks.pc t = .idle) :
    s.seen = ⟨s.channel, s.result⟩ := by
  simp only [State.seen, Seen.mk.injEq]
  refine ⟨guarded.ext _ _ fun w => part_settled_of_free ?_, funext fun t => ?_⟩
  · cases w with
    | none => rfl
    | some w =>
        rw [State.owner, Option.filter_eq_none_iff]
        intro t _
        simp [hidle, inside]
  · simp [hidle, entered]

omit [DecidableEq T] in
/-- What no mutex guards is seen as it is. -/
theorem State.seen_unguarded (s : State V T) :
    guarded.part none s.seen.channel = guarded.part none s.channel :=
  part_settled_of_free rfl

omit [DecidableEq T] in
theorem State.seen_semaphore (s : State V T) :
    s.seen.channel.semaphore = s.channel.semaphore :=
  congrArg Prod.fst s.seen_unguarded

omit [DecidableEq T] in
theorem State.seen_memory (s : State V T) : s.seen.channel.memory = s.channel.memory :=
  congrArg Prod.snd s.seen_unguarded

/-- A call takes effect when its thread gets its mutexes. -/
def effects (p : Platform) (s : State V T) (l : Label T) : List (T × Operation) :=
  (step p s l).elim [] fun s' =>
    if inside (s.locks.pc l.thread) = false ∧ inside (s'.locks.pc l.thread) = true then
      [(l.thread, s.call l.thread)]
    else []

theorem effects_eq {p : Platform} {s s' : State V T} {l : Label T}
    (hstep : step p s l = some s') : effects p s l =
      if inside (s.locks.pc l.thread) = false ∧ inside (s'.locks.pc l.thread) = true then
        [(l.thread, s.call l.thread)]
      else [] := by
  rw [effects, hstep]
  rfl

omit [DecidableEq T] in
theorem entered_of_inside {pc : Pc} (h : inside pc = true) : entered pc = true := by
  cases pc <;> first | rfl | cases h

/-- **A statement** is not seen. -/
theorem Inv.act {s : State V T} (hs : Inv s) {t : T} {access : Channel V → Channel V}
    {next : Channel V → Body (Channel V) Result} (hin : inside (s.locks.pc t) = true)
    (hbody : s.body t = .act access next) :
    let s' := { s with
      channel := access s.channel
      body := Function.update s.body t (next s.channel) }
    Inv s' ∧ s'.seen = s.seen := by
  have hwithin := hs.within t hin
  rw [hbody] at hwithin
  have hrest : ∀ c, (next c).Within guarded (covers (s.call t).job) := by
    cases hwithin with
    | act _ _ hrest => exact hrest
  obtain ⟨w, howner⟩ := hs.owns hin
  refine ⟨⟨hs.owned, hs.fits, fun u hu => ?_, fun u hu => ?_⟩, ?_⟩
  · by_cases hself : u = t
    · subst hself
      simpa using hrest s.channel
    · simpa [hself] using hs.within u hu
  · have hself : u ≠ t := by
      rintro rfl
      rw [show s.locks.pc u = .unlockFifo from hu] at hin
      cases hin
    simpa [hself] using hs.ended u hu
  · have hchannel := settled_act (d := s.channel) hs.proper howner hbody
    simp only [State.seen, Seen.mk.injEq]
    refine ⟨hchannel, funext fun u => ?_⟩
    split
    · next hentered =>
      by_cases hself : u = t
      · subst hself
        rw [Function.update_self, hbody]
        rfl
      · rw [Function.update_of_ne hself]
        cases hu : inside (s.locks.pc u) with
        | true =>
            obtain ⟨v, hv⟩ := hs.owns hu
            rw [(hs.proper.unnoticed howner hbody hv hself).2]
        | false =>
            have hover : s.locks.pc u = .unlockFifo := by
              cases hpc : s.locks.pc u <;> simp_all [inside, entered]
            obtain ⟨r, hr⟩ := hs.ended u hover
            rw [hr]
            rfl
    · rfl

/-- Only a new call depends on the job. -/
theorem Next.of_ne_idle {job job' : Job} {pc pc' : Pc} (hnext : Next job pc pc')
    (hpc : pc ≠ .idle) : Next job' pc pc' := by
  cases hnext
  case both | one => exact absurd rfl hpc
  all_goals constructor
  all_goals assumption

/-- Who gets inside has been on the way. -/
theorem Next.of_inside {job : Job} {pc pc' : Pc} (hnext : Next job pc pc')
    (hin : inside pc' = true) : inside pc = false ∧ pc ≠ .idle := by
  cases hnext
  case tried h => rcases h with rfl | rfl <;> exact ⟨rfl, by rintro ⟨⟩⟩
  case lockedOne => exact ⟨rfl, by rintro ⟨⟩⟩
  all_goals cases hin

/-- A call that does not take effect now has done so before and is about to return, or has
its mutexes still before it. -/
theorem Next.out {job : Job} {pc pc' : Pc} (hnext : Next job pc pc') (hpc : pc ≠ .idle)
    (hout : inside pc' = false) :
    (entered pc = true ∧ (pc' = .unlockFifo ∨ pc' = .idle)) ∨
      (entered pc = false ∧ entered pc' = false ∧ pc' ≠ .idle) := by
  cases hnext
  case both | one => exact absurd rfl hpc
  case tried | lockedOne => cases hout
  case unlockedPool => exact .inl ⟨rfl, .inl rfl⟩
  case unlockedFifo | unlockedOne => exact .inl ⟨rfl, .inr rfl⟩
  all_goals exact .inr ⟨rfl, rfl, by rintro ⟨⟩⟩

section Mutex

variable {s : State V T} {locks : Lock2.State T} {t : T} {pc : Pc}

omit [DecidableEq T] in
/-- The sections of the others are what they were. -/
theorem Inv.owner_of_others {s' : State V T} (hs : Inv s) (hs' : Inv s')
    (hmoved : Moved s.locks s'.locks t pc) (hcall : ∀ u, u ≠ t → s'.call u = s.call u)
    {w : Option Which} {u : T} (hne : u ≠ t) : s'.owner w = some u ↔ s.owner w = some u := by
  rw [hs.owner_eq_some, hs'.owner_eq_some, hmoved.2 u hne, hcall u hne]

/-- **A new call.** -/
theorem Inv.calls (hs : Inv s) (howned : Owned locks) {f : Operation}
    (hidle : s.locks.pc t = .idle) (hnext : Next f.job .idle pc)
    (hmoved : Moved s.locks locks t pc) :
    let s' := { s with locks, call := Function.update s.call t f }
    Inv s' ∧ s'.seen = s.seen := by
  intro s'
  have hout : inside pc = false ∧ entered pc = false ∧ pc ≠ .unlockFifo := by
    cases hnext
    case tried h => rcases h with h | h <;> cases h
    all_goals exact ⟨rfl, rfl, by rintro ⟨⟩⟩
  have hcall (u : T) (hne : u ≠ t) : s'.call u = s.call u := Function.update_of_ne hne ..
  have hs' : Inv s' := by
    refine ⟨howned, fun u => ?_, fun u hu => ?_, fun u hu => ?_⟩ <;> by_cases hself : u = t
    · subst hself
      simpa [s', hmoved.1] using hnext.fits trivial
    · rw [show s'.locks.pc u = _ from hmoved.2 u hself, hcall u hself]
      exact hs.fits u
    · subst hself
      rw [show s'.locks.pc u = pc from hmoved.1, hout.1] at hu
      cases hu
    · rw [show s'.locks.pc u = _ from hmoved.2 u hself] at hu
      rw [hcall u hself]
      exact hs.within u hu
    · subst hself
      exact absurd (hmoved.1.symm.trans hu) hout.2.2
    · exact hs.ended u ((hmoved.2 u hself).symm.trans hu)
  refine ⟨hs', ?_⟩
  have howner : s'.owner = s.owner := by
    funext w
    apply Option.ext
    intro u
    by_cases hself : u = t
    · subst hself
      rw [hs.owner_eq_some, hs'.owner_eq_some, show s'.locks.pc u = pc from hmoved.1, hout.1,
        hidle]
      simp [inside]
    · exact hs.owner_of_others hs' hmoved hcall hself
  simp only [State.seen, howner, Seen.mk.injEq]
  refine ⟨rfl, funext fun u => ?_⟩
  by_cases hself : u = t
  · subst hself
    rw [show s'.locks.pc u = pc from hmoved.1, hout.2.1, hidle]
    rfl
  · rw [show s'.locks.pc u = _ from hmoved.2 u hself]

/-- **A call takes effect.** -/
theorem Inv.enters (hs : Inv s) (howned : Owned locks) (hout : inside (s.locks.pc t) = false)
    (hidle : s.locks.pc t ≠ .idle) {job : Job} (hnext : Next job (s.locks.pc t) pc)
    (hin : inside pc = true) (hmoved : Moved s.locks locks t pc) :
    let s' := { s with locks, body := Function.update s.body t (s.call t).body }
    Inv s' ∧ callStep s.seen (t, s.call t) = some s'.seen := by
  intro s'
  have hcall (u : T) (_ : u ≠ t) : s'.call u = s.call u := rfl
  have hs' : Inv s' := by
    refine ⟨howned, fun u => ?_, fun u hu => ?_, fun u hu => ?_⟩ <;> by_cases hself : u = t
    · subst hself
      rw [show s'.locks.pc u = pc from hmoved.1]
      exact (hnext.of_ne_idle hidle).fits (hs.fits u)
    · rw [show s'.locks.pc u = _ from hmoved.2 u hself]
      exact hs.fits u
    · subst hself
      simpa [s'] using body_within (s.call u)
    · rw [show s'.locks.pc u = _ from hmoved.2 u hself] at hu
      simpa [s', hself] using hs.within u hu
    · subst hself
      rw [show s'.locks.pc u = pc from hmoved.1] at hu
      rw [hu] at hin
      cases hin
    · simpa [s', hself] using hs.ended u ((hmoved.2 u hself).symm.trans hu)
  refine ⟨hs', ?_⟩
  have hself (w : Option Which) : s'.owner w = some t ↔ covers (s.call t).job w := by
    rw [hs'.owner_eq_some, show s'.locks.pc t = pc from hmoved.1, hin]
    simp [s']
  have hnone (w : Option Which) : s.owner w ≠ some t := by
    rw [ne_eq, hs.owner_eq_some, hout]
    simp
  have hfree : ∀ w, covers (s.call t).job w → s.owner w = none := by
    intro w hw
    rw [Option.eq_none_iff_forall_ne_some]
    intro u hu
    have hne : u ≠ t := fun heq => hnone w (heq ▸ hu)
    have hboth := (hs.owner_of_others hs' hmoved hcall hne).mpr hu
    rw [(hself w).mpr hw] at hboth
    exact hne (Option.some.inj hboth).symm
  have howner : ∀ w u, s'.owner w = some u ↔
      (covers (s.call t).job w ∧ u = t) ∨ s.owner w = some u := by
    intro w u
    by_cases hne : u = t
    · subst hne
      simp [hself, hnone]
    · rw [hs.owner_of_others hs' hmoved hcall hne]
      simp [hne]
  obtain ⟨hchannel, hresult⟩ :=
    settled_enter s.body s.channel (body_within (s.call t)) hfree howner hnone
  rw [body_run] at hchannel
  rw [body_run, body_run] at hresult
  simp only [callStep, Option.some.injEq, State.seen, Seen.mk.injEq]
  refine ⟨?_, funext fun u => ?_⟩
  · exact hchannel.symm
  · rw [Function.update_apply]
    split
    · next heq =>
      subst heq
      rw [show s'.locks.pc u = pc from hmoved.1, entered_of_inside hin, ← hresult]
      simp [s', body_run]
    · next hne =>
      rw [show s'.locks.pc u = _ from hmoved.2 u hne]
      simp [s', hne]

/-- **A return**, or a step on the way to it or to the mutexes. -/
theorem Inv.goesOn (hs : Inv s) (howned : Owned locks) (hidle : s.locks.pc t ≠ .idle) {job : Job}
    (hnext : Next job (s.locks.pc t) pc) (hout : inside pc = false)
    (hmoved : Moved s.locks locks t pc)
    (hover : inside (s.locks.pc t) = true → ∃ r, s.body t = .ret r)
    {result : T → Option Result} (hothers : ∀ u, u ≠ t → result u = s.result u)
    (hself : result t = if pc = .idle then returned (s.body t) else s.result t) :
    let s' := { s with locks, result }
    Inv s' ∧ s'.seen = s.seen := by
  intro s'
  have hcall (u : T) (_ : u ≠ t) : s'.call u = s.call u := rfl
  have hs' : Inv s' := by
    refine ⟨howned, fun u => ?_, fun u hu => ?_, fun u hu => ?_⟩ <;> by_cases heq : u = t
    · subst heq
      rw [show s'.locks.pc u = pc from hmoved.1]
      exact (hnext.of_ne_idle hidle).fits (hs.fits u)
    · rw [show s'.locks.pc u = _ from hmoved.2 u heq]
      exact hs.fits u
    · subst heq
      rw [show s'.locks.pc u = pc from hmoved.1, hout] at hu
      cases hu
    · rw [show s'.locks.pc u = _ from hmoved.2 u heq] at hu
      exact hs.within u hu
    · subst heq
      have hpc : pc = .unlockFifo := hmoved.1.symm.trans hu
      refine hover ?_
      rw [hpc] at hnext
      generalize s.locks.pc u = before at hnext
      cases hnext
      rfl
    · exact hs.ended u ((hmoved.2 u heq).symm.trans hu)
  refine ⟨hs', ?_⟩
  have hnone (w : Option Which) : s'.owner w ≠ some t := by
    rw [ne_eq, hs'.owner_eq_some, show s'.locks.pc t = pc from hmoved.1, hout]
    simp
  have howner (w : Option Which) (u : T) : s'.owner w = some u ↔ s.owner w = some u ∧ u ≠ t := by
    by_cases heq : u = t
    · subst heq
      simp [hnone]
    · rw [hs.owner_of_others hs' hmoved hcall heq]
      simp [heq]
  simp only [State.seen, Seen.mk.injEq]
  refine ⟨?_, funext fun u => ?_⟩
  · cases hin : inside (s.locks.pc t) with
    | true =>
        obtain ⟨r, hr⟩ := hover hin
        exact settled_leave hr howner
    | false =>
        have hsame : s'.owner = s.owner := by
          funext w
          apply Option.ext
          intro u
          rw [howner, and_iff_left_iff_imp]
          rintro hu rfl
          rw [hs.owner_eq_some, hin] at hu
          cases hu.1
        rw [hsame]
  · by_cases heq : u = t
    · subst heq
      rw [show s'.locks.pc u = pc from hmoved.1, show s'.result u = _ from hself]
      rcases hnext.out hidle hout with ⟨hentered, hpc⟩ | ⟨hnot, hnot', hpc⟩
      · obtain ⟨r, hr⟩ : ∃ r, s.body u = .ret r := by
          cases h : s.locks.pc u <;> rw [h] at hentered <;> try cases hentered
          · exact hover (by rw [h]; rfl)
          · exact hs.ended u h
          · exact hover (by rw [h]; rfl)
        rw [if_pos hentered, show s'.body u = _ from hr]
        rcases hpc with rfl | rfl <;> rfl
      · rw [hnot, hnot', if_neg Bool.false_ne_true, if_neg Bool.false_ne_true, if_neg hpc]
    · rw [show s'.locks.pc u = _ from hmoved.2 u heq, show s'.result u = _ from hothers u heq]

end Mutex

/-! ## Accesses without a mutex -/

/-- An access to what no mutex guards. -/
structure Outside (access : Channel V → Channel V) : Prop where
  frame : ∀ c w, guarded.part (some w) (access c) = guarded.part (some w) c
  agrees : ∀ c c', guarded.part none c = guarded.part none c' →
    guarded.part none (access c) = guarded.part none (access c')

theorem Outside.id : Outside (id : Channel V → Channel V) := ⟨fun _ _ => rfl, fun _ _ h => h⟩

theorem Outside.release : Outside (Channel.release : Channel V → Channel V) := by
  refine ⟨fun c w => by cases w <;> rfl, fun c c' h => ?_⟩
  simp_all [guarded, Channel.release]

theorem Outside.acquire : Outside (Channel.acquire : Channel V → Channel V) := by
  refine ⟨fun c w => by cases w <;> rfl, fun c c' h => ?_⟩
  simp_all [guarded, Channel.acquire]

theorem Outside.write (buf : Nat) (x : V) : Outside fun c : Channel V => c.write buf x := by
  refine ⟨fun c w => by cases w <;> rfl, fun c c' h => ?_⟩
  simp_all [guarded, Channel.write]

omit [DecidableEq T] in
/-- **An access without a mutex** is seen as it is. -/
theorem Inv.outside {s : State V T} (hs : Inv s) {access : Channel V → Channel V}
    (haccess : Outside access) :
    let s' := { s with channel := access s.channel }
    Inv s' ∧ s'.seen = ⟨access s.seen.channel, s.seen.result⟩ := by
  intro s'
  have hparts (w : Option Which) :
      (∀ c, guarded.part w (access c) = guarded.part w c) ∨ s.owner w = none ∧
        ∀ c c', guarded.part w c = guarded.part w c' →
          guarded.part w (access c) = guarded.part w (access c') := by
    cases w with
    | none => exact .inr ⟨rfl, haccess.agrees⟩
    | some w => exact .inl fun c => haccess.frame c w
  obtain ⟨hchannel, hresult⟩ := settled_outside (d := s.channel) hs.proper hparts
  refine ⟨⟨hs.owned, hs.fits, hs.within, hs.ended⟩, ?_⟩
  simp only [State.seen, Seen.mk.injEq]
  refine ⟨hchannel, funext fun t => ?_⟩
  by_cases hin : inside (s.locks.pc t) = true
  · obtain ⟨w, howner⟩ := hs.owns hin
    rw [show s'.body t = s.body t from rfl, show s'.channel = access s.channel from rfl,
      hresult t w howner]
  · cases hpc : s.locks.pc t
    case unlockFifo =>
        obtain ⟨r, hr⟩ := hs.ended t hpc
        simp [s', hr, Body.run]
    case unlockPool | unlockOne => exact absurd (by rw [hpc]; rfl) hin
    all_goals rfl

/-! ## Whole runs -/

/-- `mtx_trylock` answers truly, as it always does on C11. -/
def AnswersTruly (p : Platform) (s : State V T) (l : Label T) : Prop :=
  Lock2.AnswersTruly p s.locks ⟨l.thread, l.operation.job⟩

/-- The others stay where they are, and a thread keeps to its call. -/
theorem step_frame {p : Platform} {s s' : State V T} {l : Label T}
    (hstep : step p s l = some s') :
    (∀ u, u ≠ l.thread → s'.locks.pc u = s.locks.pc u ∧ s'.call u = s.call u) ∧
      s'.call l.thread =
        if s.locks.pc l.thread = .idle then l.operation else s.call l.thread := by
  rcases step_cases hstep with ⟨access, next, hin, _, rfl⟩ | ⟨locks, _, hlocks, rfl⟩
  · refine ⟨fun _ _ => ⟨rfl, rfl⟩, ?_⟩
    have hbusy : s.locks.pc l.thread ≠ .idle := by
      intro h
      rw [h] at hin
      cases hin
    rw [if_neg hbusy]
  · obtain ⟨pc, _, hmoved⟩ := lock2_step_next hlocks
    unfold State.goOn
    split
    · refine ⟨fun u hne => ⟨hmoved.2 u hne, Function.update_of_ne hne ..⟩, ?_⟩
      exact Function.update_self ..
    · (repeat' split) <;> exact ⟨fun u hne => ⟨hmoved.2 u hne, rfl⟩, rfl⟩

/-- How a thread gets on: it gets its mutexes, or stays on the same side of that, or
returns. -/
theorem step_ways {p : Platform} {s s' : State V T} {l : Label T}
    (hstep : step p s l = some s') :
    (effects p s l = [(l.thread, s.call l.thread)] ∧ entered (s.locks.pc l.thread) = false ∧
        s.locks.pc l.thread ≠ .idle ∧ entered (s'.locks.pc l.thread) = true) ∨
      (effects p s l = [] ∧ s'.locks.pc l.thread ≠ .idle ∧
        entered (s'.locks.pc l.thread) = entered (s.locks.pc l.thread)) ∨
      effects p s l = [] ∧ entered (s.locks.pc l.thread) = true ∧
        s'.locks.pc l.thread = .idle := by
  rw [effects_eq hstep]
  rcases step_cases hstep with ⟨access, next, hin, _, rfl⟩ | ⟨locks, _, hlocks, rfl⟩
  · refine .inr (.inl ⟨if_neg (by simp [hin]), fun h => ?_, rfl⟩)
    rw [show s.locks.pc l.thread = .idle from h] at hin
    cases hin
  · obtain ⟨pc, hnext, hmoved⟩ := lock2_step_next hlocks
    simp only at hnext
    rw [State.goOn_locks, show locks.pc l.thread = pc from hmoved.1]
    generalize s.locks.pc l.thread = pc₀ at hnext ⊢
    cases hnext
    case tried h => rcases h with rfl | rfl <;> simp [inside, entered]
    all_goals simp [inside, entered]

/-- **One step.** -/
theorem Inv.step {p : Platform} {s s' : State V T} {l : Label T} (hs : Inv s)
    (htruly : AnswersTruly p s l) (hstep : Calls.step p s l = some s') :
    Inv s' ∧ run callStep s.seen (effects p s l) = some s'.seen := by
  rw [effects_eq hstep]
  rcases step_cases hstep with ⟨access, next, hin, hbody, rfl⟩ | ⟨locks, hover, hlocks, rfl⟩
  · obtain ⟨hs', hseen⟩ := hs.act hin hbody
    refine ⟨hs', ?_⟩
    rw [if_neg (by simp [hin]), hseen]
    rfl
  · have howned := step_owned hs.owned htruly hlocks
    obtain ⟨pc, hnext, hmoved⟩ := lock2_step_next hlocks
    simp only at hnext hmoved
    rw [State.goOn_locks, show locks.pc l.thread = pc from hmoved.1]
    unfold State.goOn
    rw [hmoved.1]
    by_cases hidle : s.locks.pc l.thread = .idle
    · rw [if_pos hidle]
      rw [hidle] at hnext
      have hout : inside pc = false := by
        by_contra hin
        exact (hnext.of_inside (by simpa using hin)).2 rfl
      obtain ⟨hs', hseen⟩ := hs.calls howned hidle hnext hmoved
      refine ⟨hs', ?_⟩
      rw [if_neg (by simp [hout]), hseen]
      rfl
    · rw [if_neg hidle]
      cases hin : inside pc with
      | true =>
          have hout := (hnext.of_inside hin).1
          obtain ⟨hs', hcall⟩ := hs.enters howned hout hidle hnext hin hmoved
          refine ⟨hs', ?_⟩
          rw [if_pos ⟨hout, rfl⟩]
          exact run_cons.mpr ⟨_, hcall, rfl⟩
      | false =>
          have hresult (result : T → Option Result) (hothers : ∀ u, u ≠ l.thread →
              result u = s.result u) (hself : result l.thread =
                if pc = .idle then returned (s.body l.thread) else s.result l.thread) :=
            hs.goesOn howned hidle hnext hin hmoved hover hothers hself
          have hnotentered : ¬ (inside (s.locks.pc l.thread) = false ∧ false = true) :=
            fun h => Bool.false_ne_true h.2
          rw [if_neg hnotentered, if_neg Bool.false_ne_true]
          split
          · next hback =>
            obtain ⟨hs', hseen⟩ := hresult
              (Function.update s.result l.thread (returned (s.body l.thread)))
              (fun u hne => Function.update_of_ne hne ..)
              (by rw [Function.update_self, if_pos hback])
            refine ⟨hs', ?_⟩
            rw [hseen]
            rfl
          · next hback =>
            obtain ⟨hs', hseen⟩ := hresult s.result (fun _ _ => rfl) (by rw [if_neg hback])
            refine ⟨hs', ?_⟩
            rw [hseen]
            rfl

/-- **Nobody is stuck.** -/
theorem Inv.goes_on {s : State V T} (hs : Inv s) (p : Platform) (t : T) :
    (∀ f, ∃ s', Calls.step p s ⟨t, f⟩ = some s') ∨
      ∃ u, WaitsFor s.locks t u ∧ ∀ f, ∃ s', Calls.step p s ⟨u, f⟩ = some s' := by
  -- a statement between the mutexes is no obstacle
  have hstep {u : T} (hlocks : ∀ job, ∃ locks, Lock2.step p s.locks ⟨u, job⟩ = some locks)
      (f : Operation) : ∃ s', Calls.step p s ⟨u, f⟩ = some s' := by
    unfold Calls.step
    split
    · exact ⟨_, rfl⟩
    · obtain ⟨locks, hlocks⟩ := hlocks f.job
      exact ⟨_, by rw [hlocks]; rfl⟩
  rcases Lock2.goes_on (p := p) hs.owned t with hlocks | ⟨u, hwaits, hlocks⟩
  · exact .inl (hstep hlocks)
  · exact .inr ⟨u, hwaits, hstep hlocks⟩

omit [DecidableEq T] in
theorem start_inv (c : Channel V) : Inv (start c : State V T) where
  owned := start_owned
  fits := fun _ => trivial
  within := by rintro t ⟨⟩
  ended := by rintro t ⟨⟩

/-- **Calls are atomic.**  Any number of threads call the functions of a pipe, statement
by statement under the mutexes, on either platform as long as `mtx_trylock` answers
truly.  In every run, whole calls in the order in which their threads get their mutexes
lead from the first pipe to what the last one and the answers will be when the calls
under way are over; if there are none, to the last pipe and the answers. -/
theorem calls_atomic {p : Platform} {c : Channel V} {ls : List (Label T)} {s : State V T}
    (htruly : Takes (step p) (AnswersTruly p) (start c) ls)
    (hrun : run (step p) (start c) ls = some s) :
    run callStep ⟨c, fun _ => none⟩ (observe (step p) (effects p) (start c) ls) = some s.seen ∧
      ((∀ t, s.locks.pc t = .idle) → s.seen = ⟨s.channel, s.result⟩) := by
  have hstart : (start c : State V T).seen = ⟨c, fun _ => none⟩ :=
    State.seen_of_idle fun _ => rfl
  constructor
  · rw [← hstart]
    exact run_simulates_of_takes (I := Inv) (fun s l s' hs hl hstep => hs.step hl hstep)
      (start_inv c) htruly hrun
  · exact State.seen_of_idle

/-- One buffer of two is full. -/
def halfFull : Channel Unit :=
  { pool := [0], fifo := [1], capacity := 1, semaphore := 1, totalBuffers := 2
    memory := fun _ => () }

/-- A thread clears the pipe, another one gets an empty buffer as soon as it can. -/
def clearedAndUsed : List (Label Bool) :=
  let clears : Label Bool := ⟨false, .clear fun _ => true⟩
  let gets : Label Bool := ⟨true, .getEmptyBuffer⟩
  [gets] ++ List.replicate 9 clears ++ [gets, clears, gets, gets]

theorem calls_atomic_clearedAndUsed :
    ∃ s, run (step .c11) (start halfFull) clearedAndUsed = some s ∧
      s.result true = some (.buffer (some 1)) ∧
      run callStep ⟨halfFull, fun _ => none⟩
        (observe (step .c11) (effects .c11) (start halfFull) clearedAndUsed) =
          some ⟨s.channel, s.result⟩ := by
  have hrun : run (step .c11) (start halfFull) clearedAndUsed =
      some ((run (step .c11) (start halfFull) clearedAndUsed).get (by decide)) :=
    (Option.some_get _).symm
  obtain ⟨hcalls, hquiet⟩ := calls_atomic (takes_of_mem fun _ _ _ => by rintro ⟨⟩) hrun
  refine ⟨_, hrun, by decide, ?_⟩
  rw [← hquiet (by decide)]
  exact hcalls

end Mtdp.Calls
