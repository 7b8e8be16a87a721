import Mathlib.Algebra.Order.Ring.Nat
import Mtdp.Lib.Transition

/-!
# Static instances

`MTDP_DEFINE_STATIC_INSTANCES` of `src/memory.h`, lock-free version: `n`
slots whose flags are packed in an array of bytes.  Any number of threads
call `alloc` and `dealloc`; a step is one atomic operation on a byte of flags.
Who owns a slot is kept beside the flags.  A thread gives a slot up when it
calls `dealloc` with it.

`alloc` finds the flag of slot `i` in byte `i / 8`, bit `i % 8`.  `dealloc`
divides the index of the slot by `8` before it takes the byte and the bit.

## Main results

* `step_exact_iff` — the step that frees a slot clears the right flag exactly
  for slot `0`.
* `instances_sound_iff` — the runs in which the allocator keeps its promises
  are those in which slot `0` only is freed.
-/

namespace Mtdp.StaticInstances

open Lib.Transition

variable {n : Nat} {T : Type}

/-! ## The allocator -/

/-- `Name##_flags`. -/
abbrev Flags (n : Nat) := Fin (n / 8 + 1) → BitVec 8

/-- The byte in which `alloc` looks for the flag of slot `i`. -/
def allocByte {i : Nat} (hi : i < n) : Fin (n / 8 + 1) := ⟨i / 8, by omega⟩

/-- `1 << (i - n * 8)`, with `n` the index of the byte. -/
def allocMask (i : Nat) : BitVec 8 := 1#8 <<< (i - i / 8 * 8)

/-- The byte that `dealloc` changes; its local variable is `k / 8`. -/
def deallocByte {k : Nat} (hk : k < n) : Fin (n / 8 + 1) := ⟨k / 8 / 8, by omega⟩

/-- `~(1 << tmp % 8)`. -/
def deallocMask (k : Nat) : BitVec 8 := ~~~(1#8 <<< (k / 8 % 8))

/-- Program points of a thread. -/
inductive Pc where
  | idle
  /-- in the loop of `alloc`, `i` is the loop variable -/
  | scanning (i : Nat)
  /-- in `dealloc` of slot `k` -/
  | clearing (k : Nat)
  deriving DecidableEq, Repr

inductive Call where
  | alloc
  | dealloc (k : Nat)
  deriving DecidableEq, Repr

structure State (n : Nat) (T : Type) where
  flags : Flags n
  pc : T → Pc
  owner : Nat → Option T

/-- Which thread moves; an idle one makes the call. -/
structure Label (T : Type) where
  thread : T
  call : Call

namespace State

def goto [DecidableEq T] (s : State n T) (t : T) (pc : Pc) : State n T :=
  { s with pc := Function.update s.pc t pc }

def setFlags (s : State n T) (b : Fin (n / 8 + 1)) (byte : BitVec 8) : State n T :=
  { s with flags := Function.update s.flags b byte }

def setOwner (s : State n T) (k : Nat) (owner : Option T) : State n T :=
  { s with owner := Function.update s.owner k owner }

/-- The flag at position `j` of the array. -/
def flag (s : State n T) (j : Nat) : Bool :=
  if h : j / 8 < n / 8 + 1 then (s.flags ⟨j / 8, h⟩).getLsbD (j % 8) else false

end State

/-- What `atomic_fetch_or(flag, mask) & mask` finds. -/
def taken (s : State n T) {i : Nat} (hi : i < n) : Bool :=
  s.flags (allocByte hi) &&& allocMask i != 0#8

/-- The loop variable is an `unsigned`. -/
def nextIndex (i : Nat) : Nat := (i + 1) % 2 ^ 32

/-- One step of a thread, which gives back slots of its own only. -/
def step [DecidableEq T] (s : State n T) (l : Label T) : Option (State n T) :=
  match s.pc l.thread with
  | .idle =>
      match l.call with
      | .alloc => some (s.goto l.thread (.scanning 0))
      | .dealloc k =>
          if s.owner k = some l.thread then
            some ((s.setOwner k none).goto l.thread (.clearing k))
          else none
  | .scanning i =>
      if hi : i < n then
        let b := allocByte hi
        let s' := s.setFlags b (s.flags b ||| allocMask i)
        if taken s hi then some (s'.goto l.thread (.scanning (nextIndex i)))
        else some ((s'.setOwner i (some l.thread)).goto l.thread .idle)
      else some (s.goto l.thread .idle)
  | .clearing k =>
      if hk : k < n then
        let b := deallocByte hk
        some ((s.setFlags b (s.flags b &&& deallocMask k)).goto l.thread .idle)
      else some (s.goto l.thread .idle)

/-- The answer of an `alloc` that returns with this step; `NULL` is `none`. -/
def answer (s : State n T) (l : Label T) : Option (Option Nat) :=
  match s.pc l.thread with
  | .scanning i =>
      if hi : i < n then (if taken s hi then none else some (some i)) else some none
  | _ => none

def start : State n T := ⟨fun _ => 0#8, fun _ => .idle, fun _ => none⟩

/-! ## What is promised -/

/-- The flags set are those of the owned slots; nothing is said about a slot
that is being freed. -/
def Exact (s : State n T) : Prop :=
  ∀ j, (∀ t, s.pc t ≠ .clearing j) → (s.flag j = true ↔ (s.owner j).isSome = true)

structure StepSound [DecidableEq T] (s : State n T) (l : Label T) : Prop where
  /-- a slot that is handed out is nobody's -/
  handed : ∀ k, answer s l = some (some k) → s.owner k = none
  /-- `dealloc` frees its slot and no other one -/
  freed : ∀ k s', s.pc l.thread = .clearing k → step s l = some s' →
    s'.flag k = false ∧ ∀ j, j ≠ k → s'.flag j = s.flag j

/-- All other threads are outside of `alloc` and `dealloc`. -/
def Alone (s : State n T) (l : Label T) : Prop := ∀ t, t ≠ l.thread → s.pc t = .idle

/-- `NULL` is returned only when all slots are owned. -/
def NullWhenFull (s : State n T) (l : Label T) : Prop :=
  answer s l = some none → ∀ k, k < n → (s.owner k).isSome = true

/-- The run keeps all promises; the last one is about sequential runs. -/
structure RunSound [DecidableEq T] (n : Nat) (ls : List (Label T)) : Prop where
  states : Visits step Exact (start : State n T) ls
  steps : Takes step StepSound (start : State n T) ls
  sequential : Takes step Alone (start : State n T) ls →
    Takes step NullWhenFull (start : State n T) ls

/-- A slot that is freed is slot `0`. -/
def FreesFirst (s : State n T) (l : Label T) : Prop :=
  ∀ k, s.pc l.thread = .clearing k → k = 0

/-! ## Flags -/

@[simp] theorem flag_goto [DecidableEq T] (s : State n T) (t : T) (pc : Pc) (j : Nat) :
    (s.goto t pc).flag j = s.flag j := rfl

@[simp] theorem flag_setOwner (s : State n T) (k : Nat) (owner : Option T) (j : Nat) :
    (s.setOwner k owner).flag j = s.flag j := rfl

theorem flag_eq (s : State n T) {j : Nat} (b : Fin (n / 8 + 1)) (hb : j / 8 = b) :
    s.flag j = (s.flags b).getLsbD (j % 8) := by
  have hlt : j / 8 < n / 8 + 1 := hb ▸ b.isLt
  rw [State.flag, dif_pos hlt]
  congr 2
  exact Fin.ext hb

theorem flag_setFlags (s : State n T) (b : Fin (n / 8 + 1)) (byte : BitVec 8) (j : Nat) :
    (s.setFlags b byte).flag j = if j / 8 = b then byte.getLsbD (j % 8) else s.flag j := by
  by_cases hb : j / 8 = b
  · rw [if_pos hb, flag_eq _ b hb]
    simp [State.setFlags]
  · rw [if_neg hb]
    by_cases hlt : j / 8 < n / 8 + 1
    · have hne : (⟨j / 8, hlt⟩ : Fin (n / 8 + 1)) ≠ b := fun heq => hb (congrArg Fin.val heq)
      simp [State.flag, hlt, State.setFlags, hne]
    · simp [State.flag, hlt]

theorem allocMask_eq (i : Nat) : allocMask i = BitVec.twoPow 8 (i % 8) := by
  rw [BitVec.twoPow_eq, allocMask]
  congr 1
  omega

theorem deallocMask_eq (k : Nat) : deallocMask k = ~~~BitVec.twoPow 8 (k / 8 % 8) := by
  rw [BitVec.twoPow_eq, deallocMask]

/-- `alloc` looks at the flag of its slot. -/
theorem taken_eq (s : State n T) {i : Nat} (hi : i < n) : taken s hi = s.flag i := by
  have hlt : i % 8 < 8 := Nat.mod_lt i (by decide)
  rw [taken, allocMask_eq, BitVec.and_twoPow, flag_eq s (allocByte hi) rfl]
  cases (s.flags (allocByte hi)).getLsbD (i % 8) with
  | false => rfl
  | true =>
      have hne : BitVec.twoPow 8 (i % 8) ≠ 0#8 := by
        intro heq
        have := congrArg (fun x => x.getLsbD (i % 8)) heq
        simp [hlt] at this
      simpa using hne

/-- `alloc` sets the flag of its slot. -/
theorem flag_alloc (s : State n T) {i : Nat} (hi : i < n) (j : Nat) :
    (s.setFlags (allocByte hi) (s.flags (allocByte hi) ||| allocMask i)).flag j =
      (s.flag j || decide (j = i)) := by
  rw [flag_setFlags]
  have hlt : i % 8 < 8 := Nat.mod_lt i (by decide)
  by_cases hb : j / 8 = (allocByte hi).val
  · rw [if_pos hb, flag_eq s (allocByte hi) hb, allocMask_eq, BitVec.getLsbD_or,
      BitVec.getLsbD_twoPow]
    have : i % 8 = j % 8 ↔ j = i := by
      change j / 8 = i / 8 at hb
      omega
    simp [hlt, this]
  · have hne : j ≠ i := fun heq => hb (by rw [heq]; rfl)
    rw [if_neg hb]
    simp [hne]

/-- `dealloc` of slot `k` clears the flag of slot `k / 8`. -/
theorem flag_dealloc (s : State n T) {k : Nat} (hk : k < n) (j : Nat) :
    (s.setFlags (deallocByte hk) (s.flags (deallocByte hk) &&& deallocMask k)).flag j =
      (s.flag j && decide (j ≠ k / 8)) := by
  rw [flag_setFlags]
  have hlt : k / 8 % 8 < 8 := Nat.mod_lt _ (by decide)
  by_cases hb : j / 8 = (deallocByte hk).val
  · have hj : j % 8 < 8 := Nat.mod_lt j (by decide)
    rw [if_pos hb, flag_eq s (deallocByte hk) hb, deallocMask_eq, BitVec.getLsbD_and,
      BitVec.getLsbD_not, BitVec.getLsbD_twoPow]
    have : k / 8 % 8 = j % 8 ↔ j = k / 8 := by
      change j / 8 = k / 8 / 8 at hb
      omega
    simp [hlt, hj, this]
  · have hne : j ≠ k / 8 := fun heq => hb (by rw [heq]; rfl)
    rw [if_neg hb]
    simp [hne]

/-! ## The invariant -/

structure Inv (s : State n T) : Prop where
  flags : ∀ j, s.flag j = true ↔ (s.owner j).isSome = true ∨ ∃ t, s.pc t = .clearing j
  bound : ∀ j, s.flag j = true → j < n
  given_up : ∀ t j, s.pc t = .clearing j → s.owner j = none
  once : ∀ t u j, s.pc t = .clearing j → s.pc u = .clearing j → t = u

theorem start_flag (j : Nat) : (start : State n T).flag j = false := by
  unfold State.flag
  split
  · exact BitVec.getLsbD_zero
  · rfl

theorem start_inv : Inv (start : State n T) := by
  constructor
  · intro j
    rw [start_flag]
    simp [start]
  · intro j hj
    rw [start_flag] at hj
    cases hj
  · intro t j hpc
    cases hpc
  · intro t u j hpc
    cases hpc

theorem Inv.exact {s : State n T} (h : Inv s) : Exact s := by
  intro j hnone
  rw [h.flags]
  constructor
  · rintro (howned | ⟨t, ht⟩)
    · exact howned
    · exact absurd ht (hnone t)
  · intro howned
    exact Or.inl howned

theorem Inv.clearing_bound {s : State n T} {t : T} {k : Nat} (h : Inv s)
    (hpc : s.pc t = .clearing k) : k < n :=
  h.bound k ((h.flags k).mpr (Or.inr ⟨t, hpc⟩))

theorem answer_some {s : State n T} {l : Label T} {k : Nat} (h : answer s l = some (some k)) :
    s.flag k = false := by
  unfold answer at h
  split at h
  · split at h
    · next hi =>
        rw [taken_eq] at h
        split at h
        · cases h
        · next hfree =>
            cases h
            simpa using hfree
    · cases h
  · cases h

theorem answer_null {s : State n T} {l : Label T} (h : answer s l = some none) :
    ∃ i, s.pc l.thread = .scanning i ∧ n ≤ i := by
  unfold answer at h
  split at h
  · next i hpc =>
      split at h
      · split at h <;> cases h
      · next hi => exact ⟨i, hpc, Nat.le_of_not_lt hi⟩
  · cases h

/-- Alone, a thread finds a flag set only if its slot is owned. -/
theorem Inv.owned_of_flag {s : State n T} {l : Label T} {i k : Nat} (h : Inv s)
    (halone : Alone s l) (hpc : s.pc l.thread = .scanning i) (hflag : s.flag k = true) :
    (s.owner k).isSome = true := by
  rcases (h.flags k).mp hflag with howned | ⟨t, ht⟩
  · exact howned
  · rcases eq_or_ne t l.thread with rfl | hne
    · cases hpc.symm.trans ht
    · cases (halone t hne).symm.trans ht

variable [DecidableEq T]

/-- Nothing but the position of a thread outside of `dealloc` changes. -/
theorem goto_inv {s : State n T} {t : T} {pc : Pc} (h : Inv s)
    (hbefore : ∀ k, s.pc t ≠ .clearing k) (hafter : ∀ k, pc ≠ .clearing k) :
    Inv (s.goto t pc) := by
  have hpc : ∀ u j, (s.goto t pc).pc u = .clearing j ↔ s.pc u = .clearing j := by
    intro u j
    rcases eq_or_ne u t with rfl | hne
    · simp [State.goto, hbefore, hafter]
    · simp [State.goto, hne]
  constructor
  · intro j
    simp only [flag_goto, hpc]
    exact h.flags j
  · exact h.bound
  · intro u j hu
    exact h.given_up u j ((hpc u j).mp hu)
  · intro u v j hu hv
    exact h.once u v j ((hpc u j).mp hu) ((hpc v j).mp hv)

/-- A thread gives up a slot of its own. -/
theorem giveUp_inv {s : State n T} {t : T} {k : Nat} (h : Inv s) (hidle : s.pc t = .idle)
    (howner : s.owner k = some t) : Inv ((s.setOwner k none).goto t (.clearing k)) := by
  have hnone : ∀ u, s.pc u ≠ .clearing k := by
    intro u hu
    rw [h.given_up u k hu] at howner
    cases howner
  have hpc : ∀ u j, ((s.setOwner k none).goto t (.clearing k)).pc u = .clearing j ↔
      s.pc u = .clearing j ∨ u = t ∧ j = k := by
    intro u j
    rcases eq_or_ne u t with rfl | hne
    · simp [State.goto, hidle, eq_comm]
    · simp [State.goto, State.setOwner, hne]
  constructor
  · intro j
    simp only [flag_goto, flag_setOwner, hpc, h.flags]
    rcases eq_or_ne j k with rfl | hj
    · simp [howner]
    · simp [State.goto, State.setOwner, hj]
  · exact h.bound
  · intro u j hu
    rcases (hpc u j).mp hu with hu | ⟨_, rfl⟩
    · have hj : j ≠ k := fun heq => hnone u (heq ▸ hu)
      simpa [State.goto, State.setOwner, hj] using h.given_up u j hu
    · simp [State.goto, State.setOwner]
  · intro u v j hu hv
    rcases (hpc u j).mp hu with hu' | ⟨hu', hj⟩
    · rcases (hpc v j).mp hv with hv' | ⟨_, hj⟩
      · exact h.once u v j hu' hv'
      · exact absurd (hj ▸ hu') (hnone u)
    · rcases (hpc v j).mp hv with hv' | ⟨hv', _⟩
      · exact absurd (hj ▸ hv') (hnone v)
      · rw [hu', hv']

/-- A free slot is handed out. -/
theorem handOut_inv {s : State n T} {t : T} {i : Nat} (h : Inv s) (hi : i < n)
    (hpc : s.pc t = .scanning i) (hfree : s.flag i = false) :
    Inv (((s.setFlags (allocByte hi) (s.flags (allocByte hi) ||| allocMask i)).setOwner i
      (some t)).goto t .idle) := by
  have hnone : ¬ ((s.owner i).isSome = true ∨ ∃ u, s.pc u = .clearing i) := by
    rw [← h.flags, hfree]
    exact Bool.false_ne_true
  have hnot : ∀ u, s.pc u ≠ .clearing i := fun u hu => hnone (Or.inr ⟨u, hu⟩)
  have hclearing : ∀ u j, (((s.setFlags (allocByte hi) (s.flags (allocByte hi) ||| allocMask i)
      ).setOwner i (some t)).goto t .idle).pc u = .clearing j ↔ s.pc u = .clearing j := by
    intro u j
    rcases eq_or_ne u t with rfl | hne
    · simp [State.goto, hpc]
    · simp [State.goto, State.setOwner, State.setFlags, hne]
  constructor
  · intro j
    simp only [flag_goto, flag_setOwner, flag_alloc, hclearing, Bool.or_eq_true, h.flags]
    rcases eq_or_ne j i with rfl | hj
    · simp [State.goto, State.setOwner]
    · simp [State.goto, State.setOwner, State.setFlags, hj]
  · intro j hj
    simp only [flag_goto, flag_setOwner, flag_alloc, Bool.or_eq_true, decide_eq_true_eq] at hj
    rcases hj with hj | rfl
    · exact h.bound j hj
    · exact hi
  · intro u j hu
    have hu' := (hclearing u j).mp hu
    have hj : j ≠ i := fun heq => hnot u (heq ▸ hu')
    simpa [State.goto, State.setOwner, State.setFlags, hj] using h.given_up u j hu'
  · intro u v j hu hv
    exact h.once u v j ((hclearing u j).mp hu) ((hclearing v j).mp hv)

/-- A slot that is taken already is left alone. -/
theorem passOver_inv {s : State n T} {t : T} {i j : Nat} (h : Inv s) (hi : i < n)
    (hpc : s.pc t = .scanning i) (htaken : s.flag i = true) :
    Inv ((s.setFlags (allocByte hi) (s.flags (allocByte hi) ||| allocMask i)).goto t
      (.scanning j)) := by
  have hflag : ∀ k, (s.setFlags (allocByte hi) (s.flags (allocByte hi) ||| allocMask i)).flag k =
      s.flag k := by
    intro k
    rw [flag_alloc]
    rcases eq_or_ne k i with rfl | hk
    · simp [htaken]
    · simp [hk]
  apply goto_inv
  · constructor
    · intro k
      rw [hflag]
      exact h.flags k
    · intro k hk
      rw [hflag] at hk
      exact h.bound k hk
    · exact h.given_up
    · exact h.once
  · intro k hk
    cases hpc.symm.trans hk
  · intro k hk
    cases hk

/-- The slot whose flag is cleared is the one that was given up. -/
theorem clearFirst_inv {s : State n T} {t : T} (h : Inv s) (hn : 0 < n)
    (hpc : s.pc t = .clearing 0) :
    Inv ((s.setFlags (deallocByte hn) (s.flags (deallocByte hn) &&& deallocMask 0)).goto t
      .idle) := by
  have hclearing : ∀ u j, ((s.setFlags (deallocByte hn) (s.flags (deallocByte hn) &&&
      deallocMask 0)).goto t .idle).pc u = .clearing j ↔ s.pc u = .clearing j ∧ j ≠ 0 := by
    intro u j
    rcases eq_or_ne u t with rfl | hne
    · simp [State.goto, hpc, eq_comm]
    · have hj : s.pc u = .clearing j → j ≠ 0 := fun hu heq => hne (h.once u t 0 (heq ▸ hu) hpc)
      simpa [State.goto, State.setFlags, hne] using hj
  constructor
  · intro j
    simp only [flag_goto, flag_dealloc, hclearing, Bool.and_eq_true, h.flags, Nat.zero_div,
      decide_eq_true_eq]
    rcases eq_or_ne j 0 with rfl | hj
    · simp [State.goto, State.setFlags, h.given_up t 0 hpc]
    · simp [State.goto, State.setFlags, hj]
  · intro j hj
    simp only [flag_goto, flag_dealloc, Bool.and_eq_true] at hj
    exact h.bound j hj.1
  · intro u j hu
    exact h.given_up u j ((hclearing u j).mp hu).1
  · intro u v j hu hv
    exact h.once u v j ((hclearing u j).mp hu).1 ((hclearing v j).mp hv).1

theorem step_inv {s s' : State n T} {l : Label T} (h : Inv s) (hfirst : FreesFirst s l)
    (hstep : step s l = some s') : Inv s' := by
  unfold step at hstep
  split at hstep <;> rename_i hpc
  · split at hstep
    · cases hstep
      apply goto_inv h
      · intro k hk
        cases hpc.symm.trans hk
      · intro k hk
        cases hk
    · split at hstep
      · next howner =>
          cases hstep
          exact giveUp_inv h hpc howner
      · cases hstep
  · split at hstep
    · next hi =>
        simp only [taken_eq] at hstep
        split at hstep
        · next htaken =>
            cases hstep
            exact passOver_inv h hi hpc htaken
        · next hfree =>
            cases hstep
            exact handOut_inv h hi hpc (by simpa using hfree)
    · cases hstep
      apply goto_inv h
      · intro k hk
        cases hpc.symm.trans hk
      · intro k hk
        cases hk
  · obtain rfl := hfirst _ hpc
    rw [dif_pos (h.clearing_bound hpc)] at hstep
    cases hstep
    exact clearFirst_inv h (h.clearing_bound hpc) hpc

/-! ## Slots other than the first -/

/-- The flag of any other slot stays set after the slot has been given up. -/
theorem clear_not_exact {s s' : State n T} {l : Label T} {k : Nat} (h : Inv s)
    (hpc : s.pc l.thread = .clearing k) (hk : k ≠ 0) (hstep : step s l = some s') :
    ¬ Exact s' := by
  intro hexact
  have hset : s.flag k = true := (h.flags k).mpr (Or.inr ⟨_, hpc⟩)
  have hdiv : k ≠ k / 8 := by omega
  unfold step at hstep
  simp only [hpc, dif_pos (h.clearing_bound hpc)] at hstep
  cases hstep
  have hnone := (hexact k ?_).mp ?_
  · simp [State.goto, State.setFlags, h.given_up _ _ hpc] at hnone
  · intro t ht
    rcases eq_or_ne t l.thread with rfl | hne
    · simp [State.goto] at ht
    · have ht' : s.pc t = .clearing k := by simpa [State.goto, State.setFlags, hne] using ht
      exact hne (h.once t l.thread k ht' hpc)
  · rw [flag_goto, flag_dealloc, hset]
    simp [hdiv]

theorem step_exact_iff {s s' : State n T} {l : Label T} (h : Inv s)
    (hstep : step s l = some s') : Exact s' ↔ FreesFirst s l := by
  constructor
  · intro hexact k hpc
    by_contra hk
    exact clear_not_exact h hpc hk hstep hexact
  · intro hfirst
    exact (step_inv h hfirst hstep).exact

/-! ## The promises -/

/-- In good states the steps that free the first slot only keep all promises. -/
theorem step_sound {s : State n T} {l : Label T} (h : Inv s) (hfirst : FreesFirst s l) :
    StepSound s l := by
  constructor
  · intro k hanswer
    have hfree := answer_some hanswer
    by_contra howned
    have hset : s.flag k = true := (h.flags k).mpr (Or.inl (Option.isSome_iff_ne_none.mpr howned))
    rw [hfree] at hset
    cases hset
  · intro k s' hpc hstep
    obtain rfl := hfirst k hpc
    unfold step at hstep
    simp only [hpc, dif_pos (h.clearing_bound hpc)] at hstep
    cases hstep
    simp only [flag_goto, flag_dealloc]
    constructor
    · simp
    · intro j hj
      simp [hj]

/-- What `alloc` has passed over is owned, if nobody else is at work. -/
def Scanned (s : State n T) : Prop :=
  ∀ t i, s.pc t = .scanning i → ∀ k, k < i → (s.owner k).isSome = true

/-- A step moves its own thread only. -/
theorem step_pc_of_ne {s s' : State n T} {l : Label T} {t : T} (hne : t ≠ l.thread)
    (hstep : step s l = some s') : s'.pc t = s.pc t := by
  have hgoto : ∀ (r : State n T) (pc : Pc), r.pc = s.pc →
      (r.goto l.thread pc).pc t = s.pc t := by
    intro r pc hr
    simp [State.goto, hne, hr]
  unfold step at hstep
  split at hstep
  · split at hstep
    · cases hstep
      exact hgoto s _ rfl
    · split at hstep
      · cases hstep
        exact hgoto _ _ rfl
      · cases hstep
  · split at hstep
    · simp only at hstep
      split at hstep <;> cases hstep <;> exact hgoto _ _ rfl
    · cases hstep
      exact hgoto s _ rfl
  · split at hstep <;> cases hstep <;> exact hgoto _ _ rfl

theorem step_scanned {s s' : State n T} {l : Label T} (h : Inv s) (hscanned : Scanned s)
    (halone : Alone s l) (hstep : step s l = some s') : Scanned s' := by
  intro t j ht k hk
  have hself : t = l.thread := by
    by_contra hne
    rw [step_pc_of_ne hne hstep, halone t hne] at ht
    cases ht
  subst hself
  unfold step at hstep
  split at hstep <;> rename_i hpc
  · split at hstep
    · cases hstep
      simp only [State.goto, Function.update_self, Pc.scanning.injEq] at ht
      omega
    · split at hstep
      · cases hstep
        simp [State.goto] at ht
      · cases hstep
  · next i =>
    split at hstep
    · next hi =>
        rw [taken_eq] at hstep
        split at hstep
        · next htaken =>
            cases hstep
            simp only [State.goto, Function.update_self, Pc.scanning.injEq] at ht
            have hle : k < i + 1 := by
              have : nextIndex i ≤ i + 1 := Nat.mod_le _ _
              omega
            rcases Nat.lt_succ_iff_lt_or_eq.mp hle with hlt | rfl
            · exact hscanned _ _ hpc k hlt
            · exact h.owned_of_flag halone hpc htaken
        · cases hstep
          simp [State.goto] at ht
    · cases hstep
      simp [State.goto] at ht
  · split at hstep <;> cases hstep <;> simp [State.goto] at ht

omit [DecidableEq T] in
theorem null_when_full {s : State n T} {l : Label T} (hscanned : Scanned s) :
    NullWhenFull s l := by
  intro hnull k hk
  obtain ⟨i, hpc, hi⟩ := answer_null hnull
  exact hscanned _ i hpc k (by omega)

/-- For every number of slots and of threads: the allocator keeps its promises
in a run exactly when the run frees slot `0` only. -/
theorem instances_sound_iff (n : Nat) (ls : List (Label T)) (t : State n T)
    (hrun : run step start ls = some t) :
    RunSound n ls ↔ Takes step FreesFirst (start : State n T) ls := by
  have hvisits : Visits step Exact (start : State n T) ls ↔
      Takes step FreesFirst (start : State n T) ls := by
    apply visits_iff_takes (I := Inv) (G := fun _ => True) (R := fun _ _ => True)
    · intro s l s' h _ _ hnext hexact
      exact step_inv h ((step_exact_iff h hnext).mp hexact) hnext
    · intro s l s' h _ _ hnext
      rw [and_true, and_true]
      exact step_exact_iff h hnext
    · exact start_inv
    · exact start_inv.exact
    · trivial
    · intro _ _
      trivial
    · exact takes_of_mem fun _ _ _ => trivial
    · exact hrun
  constructor
  · intro hsound
    exact hvisits.mp hsound.states
  · intro htakes
    constructor
    · exact hvisits.mpr htakes
    · apply Takes.of_invariant (I := Inv) _ _ start_inv htakes
      · intro s l s' h hfirst hnext
        exact step_inv h hfirst hnext
      · intro s l h hfirst
        exact step_sound h hfirst
    · intro halone
      apply Takes.of_invariant (I := fun s => Inv s ∧ Scanned s) _ _ _ (htakes.and halone)
      · intro s l s' h hboth hnext
        exact ⟨step_inv h.1 hboth.1 hnext, step_scanned h.1 h.2 hboth.2 hnext⟩
      · intro s l h _
        exact null_when_full h.2
      · constructor
        · exact start_inv
        · intro t i hpc
          cases hpc

/-- Two slots are taken by one thread, the second one is given back. -/
def secondFreed : List (Label Unit) :=
  [⟨(), .alloc⟩, ⟨(), .alloc⟩, ⟨(), .alloc⟩, ⟨(), .alloc⟩, ⟨(), .alloc⟩, ⟨(), .dealloc 1⟩,
    ⟨(), .alloc⟩]

/-- One slot is taken and given back. -/
def firstFreed : List (Label Unit) :=
  [⟨(), .alloc⟩, ⟨(), .alloc⟩, ⟨(), .dealloc 0⟩, ⟨(), .alloc⟩]

theorem instances_sound_iff_firstFreed :
    (run step (start : State 2 Unit) firstFreed).isSome ∧
    (RunSound 2 firstFreed ↔ Takes step FreesFirst (start : State 2 Unit) firstFreed) :=
  ⟨by decide, instances_sound_iff 2 firstFreed
    ((run step (start : State 2 Unit) firstFreed).get (by decide)) (Option.some_get _).symm⟩

/-- After slot `1` has been freed its flag is still set, that of slot `0`,
which is owned, is not. -/
theorem second_slot_not_freed :
    ¬ ∀ (n : Nat) (T : Type) (_ : DecidableEq T) (ls : List (Label T)) (t : State n T),
      0 < n → run step start ls = some t → RunSound n ls := by
  intro hall
  have hrun : run step (start : State 2 Unit) secondFreed =
      some ((run step (start : State 2 Unit) secondFreed).get (by decide)) :=
    (Option.some_get _).symm
  have hexact := (hall 2 Unit _ secondFreed _ (by decide) hrun).states.of_run hrun
  have hfirst := (hexact 0 (fun ⟨⟩ => by decide)).mpr (by decide)
  exact absurd hfirst (by decide)

end Mtdp.StaticInstances
