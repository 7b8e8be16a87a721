import Mtdp.Lib.Transition
import Mtdp.Pool.Static

/-!
# The pool as a stack

Any number of pushes, pops and resizes from `mtdp_buffer_pool_init`, on the
heap and in a static array.  A push or a pop does what it does to a stack.
`mtdp_buffer_pool_resize` compares the requested size with the capacity and
corrects the size by the difference, which gives the requested size only if
the pool was full; and it loses the array if the new one is to have a number of
bytes that wraps to zero.

## Main results

* `met_iff` — which calls keep the contract of a stack with resize.
* `stack_contract_iff` — the runs all of whose calls keep it.
-/

namespace Mtdp.Pool

open Lib.Word Lib.Transition

/-! ## Runs of a pool -/

inductive Call where
  | pushBack (e : Buffer)
  | popBack
  | resize (size : UInt64)

inductive Answer where
  | done (ok : Bool)
  | buffer (b : Buffer)

structure State where
  pool : AnyPool
  heap : Heap Buffer

def call (s : State) : Call → Option (Answer × State)
  | .pushBack e => (s.pool.pushBack s.heap e).map fun (ok, pool, heap) => (.done ok, ⟨pool, heap⟩)
  | .popBack => s.pool.popBack.map fun (b, pool) => (.buffer b, { s with pool })
  | .resize size =>
      (s.pool.resize s.heap size.toNat).map fun (ok, pool, heap) => (.done ok, ⟨pool, heap⟩)

def step (s : State) (c : Call) : Option State := (call s c).map (·.2)

/-- How the library was built. -/
inductive Configuration where
  | heap
  | static (n : Nat) (fits : n * sizeofBuffer < 2 ^ 64)

/-- `mtdp_buffer_pool_init` -/
def init (c : Configuration) (junk : Nat → Buffer) : AnyPool :=
  match c with
  | .heap => .heap (.init junk)
  | .static _ fits => .static (.init junk fits)

/-! ## The contract -/

/-- No more elements than the capacity says, which the array does have; and the
array is there. -/
structure Within (p : BufferPool) : Prop where
  size_le : p.size ≤ p.capacity
  capacity_le : p.capacity ≤ p.cells
  there : p.freed = false

/-- What a call with this answer does to a stack with resize. -/
def Keeps (p p' : BufferPool) : Call → Answer → Prop
  | .pushBack e, .done true =>
      p'.size = p.size + 1 ∧ p'.take p'.size = p.take p.size ++ [e]
  | .pushBack _, .done false => p' = p
  | .popBack, .buffer b =>
      if p.size = 0 then b = none ∧ p' = p else p.take p.size = p'.take p'.size ++ [b]
  | .resize size, .done true =>
      p'.size = size.toNat ∧
        p'.take (min p.size size.toNat) = p.take (min p.size size.toNat)
  | .resize _, .done false => p' = p
  | _, _ => False

/-- The call stays inside the array and does what it should. -/
def Contract (s : State) (c : Call) : Prop :=
  ∃ a s', call s c = some (a, s') ∧ Within s'.pool.view ∧ Keeps s.pool.view s'.pool.view c a

/-- A resize finds a full pool, or asks for an array that there is not and keeps
its own. -/
def ResizeHonoured (p : BufferPool) (refused : Nat → Bool) (size : Nat) : Prop :=
  p.size = p.capacity ∧ size * sizeofBuffer < 2 ^ 64 ∨
    p.capacity < size ∧ size < 2 ^ 63 ∧ refused size = true

/-- A push finds space, or asks for an array whose bytes a `size_t` can count, or
for one that there is not and keeps its own. -/
def PushHonoured (p : BufferPool) (refused : Nat → Bool) : Prop :=
  p.size < p.capacity ∨ refused (BufferPool.grownCapacity p.size) = true ∨
    BufferPool.grownCapacity p.size * sizeofBuffer < 2 ^ 64

def HonouredBy (p : BufferPool) (refused : Nat → Bool) : Call → Prop
  | .pushBack _ => PushHonoured p refused
  | .popBack => True
  | .resize size => ResizeHonoured p refused size.toNat

def Honoured (s : State) (c : Call) : Prop := HonouredBy s.pool.view (s.pool.refused s.heap) c

/-! ## One call on the heap -/

section

variable {p : BufferPool} {h : Heap Buffer}

/-- What a call makes of a heap pool. -/
def outcome (p : BufferPool) (h : Heap Buffer) : Call → Option (Answer × BufferPool)
  | .pushBack e => (p.pushBack h e).map fun r => (.done r.1, r.2.1)
  | .popBack => p.popBack.map fun r => (.buffer r.1, r.2)
  | .resize size => (p.resize h size.toNat).map fun r => (.done r.1, r.2.1)

def Met (p : BufferPool) (h : Heap Buffer) (c : Call) : Prop :=
  ∃ a q, outcome p h c = some (a, q) ∧ Within q ∧ Keeps p q c a

theorem Within.lt (hp : Within p) : p.capacity < 2 ^ 61 :=
  Nat.lt_of_le_of_lt hp.capacity_le p.cells_lt

theorem within_of_lt (hthere : p.freed = false) (hsize : p.size ≤ p.capacity)
    (hcap : p.capacity < 2 ^ 61) : Within p :=
  ⟨hsize, (BufferPool.cells_of_lt hthere hcap).ge, hthere⟩

theorem popBack_met (hp : Within p) : Met p h .popBack := by
  have hcap := hp.lt
  by_cases hzero : p.size = 0
  · refine ⟨.buffer none, p, ?_, hp, ?_⟩
    · simp [outcome, BufferPool.popBack, hzero]
    · simp [Keeps, hzero]
  · have hlt : p.size - 1 < p.cells := by
      have := hp.size_le
      have := hp.capacity_le
      omega
    refine ⟨.buffer (p.buffers (p.size - 1)), { p with size := p.size - 1 }, ?_, ?_, ?_⟩
    · simp [outcome, BufferPool.popBack, hzero, hlt]
    · apply within_of_lt
      · exact hp.there
      · have := hp.size_le
        change p.size - 1 ≤ p.capacity
        omega
      · exact hcap
    · have hsucc : p.size = p.size - 1 + 1 := by omega
      simp only [Keeps, if_neg hzero]
      conv => lhs; rw [hsucc, BufferPool.take_succ]
      rfl

/-- The new element follows the old ones. -/
theorem take_push {q : BufferPool} {e : Buffer} (hsize : q.size = p.size + 1)
    (hbuffers : ∀ i < p.size, q.buffers i = p.buffers i) (htop : q.buffers p.size = e) :
    q.take q.size = p.take p.size ++ [e] := by
  rw [hsize, BufferPool.take_succ, htop, BufferPool.take_congr hbuffers]

theorem pushBack_met_of_lt {e : Buffer} (hp : Within p) (hlt : p.size < p.capacity) :
    Met p h (.pushBack e) := by
  have hcap := hp.lt
  have hpush := BufferPool.pushBack_of_lt h e hp.there hlt hcap
  refine ⟨.done true, _, by rw [outcome, hpush]; rfl, ?_, ?_⟩
  · exact within_of_lt hp.there hlt hcap
  · constructor
    · rfl
    · apply take_push rfl
      · intro i hi
        simp [Function.update_of_ne (Nat.ne_of_lt hi)]
      · simp

/-- A full pool is pushed to. -/
theorem pushBack_met_of_full {e : Buffer} (hfull : p.size = p.capacity)
    (hcap : BufferPool.grownCapacity p.size < 2 ^ 61) (hp : Within p) :
    Met p h (.pushBack e) := by
  have hpush := BufferPool.pushBack_of_full h e hp.there hfull hcap
  cases hrefused : p.refused h (BufferPool.grownCapacity p.size) with
  | true =>
      rw [hrefused, if_pos rfl] at hpush
      exact ⟨.done false, p, by rw [outcome, hpush]; rfl, hp, rfl⟩
  | false =>
      rw [hrefused, if_neg Bool.false_ne_true] at hpush
      refine ⟨.done true, _, by rw [outcome, hpush]; rfl, ?_, ?_⟩
      · exact within_of_lt rfl (BufferPool.lt_grownCapacity p.size) hcap
      · constructor
        · rfl
        · apply take_push rfl
          · intro i hi
            have hzero : p.capacity ≠ 0 := by omega
            simp [Function.update_of_ne (Nat.ne_of_lt hi), hzero]
          · simp

/-- The new array would have `2 ^ 64` bytes. -/
theorem frees_of_huge (hfull : p.size = p.capacity) (hp : Within p)
    (hcap : 2 ^ 61 ≤ BufferPool.grownCapacity p.size) :
    p.frees (BufferPool.grownCapacity p.size) = true := by
  have hlt := hp.lt
  have hle : BufferPool.grownCapacity p.size ≤ 2 ^ 61 :=
    BufferPool.grownCapacity_le (by omega) (by omega)
  have hne : p.capacity ≠ 0 := by
    intro hzero
    have hsmall : BufferPool.grownCapacity p.size ≤ 2 ^ 4 :=
      BufferPool.grownCapacity_le (by omega) (Nat.le_refl 4)
    omega
  simp [BufferPool.frees, hne, Nat.le_antisymm hle hcap, sizeofBuffer]

theorem pushBack_of_huge {e : Buffer} (hfull : p.size = p.capacity) (hp : Within p)
    (hcap : 2 ^ 61 ≤ BufferPool.grownCapacity p.size) :
    p.pushBack h e = some (false, { p with freed := true }, h.attempt.2) := by
  simp only [BufferPool.pushBack, BufferPool.preventiveRealloc_of_full h hfull,
    BufferPool.realloc_of_there h _ hp.there, frees_of_huge hfull hp hcap, if_true]
  rfl

theorem pushBack_met_iff {e : Buffer} (hp : Within p) :
    Met p h (.pushBack e) ↔ PushHonoured p (p.refused h) := by
  have hfits : BufferPool.grownCapacity p.size * sizeofBuffer < 2 ^ 64 ↔
      BufferPool.grownCapacity p.size < 2 ^ 61 := by
    unfold sizeofBuffer
    omega
  unfold PushHonoured
  rw [hfits]
  rcases Nat.lt_or_eq_of_le hp.size_le with hlt | hfull
  · exact ⟨fun _ => Or.inl hlt, fun _ => pushBack_met_of_lt hp hlt⟩
  · by_cases hcap : BufferPool.grownCapacity p.size < 2 ^ 61
    · exact ⟨fun _ => Or.inr (Or.inr hcap), fun _ => pushBack_met_of_full hfull hcap hp⟩
    · have hfrees := frees_of_huge hfull hp (Nat.le_of_not_lt hcap)
      have hpush := pushBack_of_huge (h := h) (e := e) hfull hp (Nat.le_of_not_lt hcap)
      constructor
      · rintro ⟨a, q, hrun, hwithin, _⟩
        rw [outcome, hpush] at hrun
        cases hrun
        cases hwithin.there
      · rintro (hlt | hrefused | hlt)
        · omega
        · rw [BufferPool.refused_of_frees h hfrees] at hrefused
          cases hrefused
        · exact absurd hlt hcap

/-! ## Resize -/

/-- A request that is negative as a signed number leaves the array alone. -/
theorem resize_of_negative {size : Nat} (hcap : p.capacity < 2 ^ 61) (hneg : 2 ^ 63 ≤ size)
    (hword : size < 2 ^ 64) {r : Bool × BufferPool × Heap Buffer}
    (hrun : p.resize h size = some r) : r.1 = true ∧ r.2.1.capacity = p.capacity := by
  simp only [BufferPool.resize, Option.bind_eq_bind, Option.bind_eq_some_iff] at hrun
  obtain ⟨delta, hdelta, hrun⟩ := hrun
  obtain ⟨rfl, _, _⟩ := eq_of_checkSigned hdelta
  rw [toSigned_of_le hneg, toSigned_of_lt (by omega), if_pos (by omega)] at hrun
  cases hrun
  exact ⟨rfl, rfl⟩

/-- The corrected size is the requested one if the pool was full. -/
theorem corrected_eq_iff {size : Nat} (hp : Within p) (hsize : size < 2 ^ 63) :
    wrap (p.size + ((size : Int) - p.capacity)) = size ↔ p.size = p.capacity := by
  have := hp.size_le
  have := hp.lt
  unfold wrap
  omega

theorem resize_met_of_le {size : UInt64} (hp : Within p) (hle : size.toNat ≤ p.capacity) :
    Met p h (.resize size) ↔ p.size = p.capacity := by
  have hcap := hp.lt
  rcases Nat.lt_or_eq_of_le hle with hlt | heq
  · have hrun := BufferPool.resize_of_lt (h := h) (by omega) hlt
    constructor
    · rintro ⟨a, q, houtcome, _, hkeeps⟩
      rw [outcome, hrun] at houtcome
      cases houtcome
      exact (corrected_eq_iff hp (by omega)).mp hkeeps.1
    · intro hfull
      have hcorrect :=
        (corrected_eq_iff hp (show size.toNat < 2 ^ 63 by omega)).mpr hfull
      refine ⟨.done true, _, by rw [outcome, hrun]; rfl, ?_, ?_⟩
      · apply within_of_lt
        · exact hp.there
        · change wrap _ ≤ p.capacity
          omega
        · exact hcap
      · exact ⟨hcorrect, rfl⟩
  · have hrun := BufferPool.resize_of_eq (h := h) (by omega) heq
    constructor
    · rintro ⟨a, q, houtcome, _, hkeeps⟩
      rw [outcome, hrun] at houtcome
      cases houtcome
      exact hkeeps.1.trans heq
    · intro hfull
      exact ⟨.done true, p, by rw [outcome, hrun]; rfl, hp, hfull.trans heq.symm, rfl⟩

theorem resize_met_of_gt {size : UInt64} (hp : Within p) (hsize : size.toNat < 2 ^ 63)
    (hgt : p.capacity < size.toNat) :
    Met p h (.resize size) ↔
      p.refused h size.toNat = true ∨ p.size = p.capacity ∧ size.toNat < 2 ^ 61 := by
  cases hfrees : p.frees size.toNat with
  | true =>
      have hrun := BufferPool.resize_of_frees (h := h) hsize hgt hp.there hfrees
      rw [BufferPool.refused_of_frees h hfrees]
      simp only [Bool.false_eq_true, false_or]
      constructor
      · rintro ⟨a, q, houtcome, hwithin, _⟩
        rw [outcome, hrun] at houtcome
        cases houtcome
        cases hwithin.there
      · rintro ⟨_, hlt⟩
        rw [p.frees_of_lt (Nat.zero_lt_of_lt hgt) hlt] at hfrees
        cases hfrees
  | false =>
  cases hrefused : p.refused h size.toNat with
  | true =>
      have hrun := BufferPool.resize_of_refused hsize hgt hp.there hrefused
      simp only [true_or, iff_true]
      exact ⟨.done false, p, by rw [outcome, hrun]; rfl, hp, rfl⟩
  | false =>
      have hrun := BufferPool.resize_of_granted hsize hgt hp.there hfrees hrefused
      simp only [Bool.false_eq_true, false_or]
      constructor
      · rintro ⟨a, q, houtcome, hwithin, hkeeps⟩
        rw [outcome, hrun] at houtcome
        cases houtcome
        exact ⟨(corrected_eq_iff hp hsize).mp hkeeps.1, hwithin.lt⟩
      · rintro ⟨hfull, hlt⟩
        have hcorrect := (corrected_eq_iff hp hsize).mpr hfull
        refine ⟨.done true, _, by rw [outcome, hrun]; rfl, ?_, ?_⟩
        · apply within_of_lt rfl
          · change wrap _ ≤ size.toNat
            omega
          · exact hlt
        · constructor
          · exact hcorrect
          · apply BufferPool.take_congr
            intro i hi
            have hzero : p.capacity ≠ 0 := by omega
            simp [hzero]

theorem resize_met_iff {size : UInt64} (hp : Within p) :
    Met p h (.resize size) ↔ ResizeHonoured p (p.refused h) size.toNat := by
  have hcap := hp.lt
  have hword := size.toNat_lt
  have hfits : size.toNat * sizeofBuffer < 2 ^ 64 ↔ size.toNat < 2 ^ 61 := by
    unfold sizeofBuffer
    omega
  unfold ResizeHonoured
  rw [hfits]
  by_cases hsize : size.toNat < 2 ^ 63
  · rcases Nat.lt_or_ge p.capacity size.toNat with hgt | hle
    · rw [resize_met_of_gt hp hsize hgt]
      constructor
      · rintro (hrefused | hfull)
        · exact Or.inr ⟨hgt, hsize, hrefused⟩
        · exact Or.inl hfull
      · rintro (hfull | ⟨_, _, hrefused⟩)
        · exact Or.inr hfull
        · exact Or.inl hrefused
    · rw [resize_met_of_le hp hle]
      constructor
      · intro hfull
        exact Or.inl ⟨hfull, by omega⟩
      · rintro (⟨hfull, _⟩ | ⟨hgt, _⟩)
        · exact hfull
        · omega
  · constructor
    · rintro ⟨a, q, houtcome, hwithin, hkeeps⟩
      simp only [outcome, Option.map_eq_some_iff] at houtcome
      obtain ⟨r, hrun, heq⟩ := houtcome
      obtain ⟨htrue, hsame⟩ := resize_of_negative hcap (by omega) (by omega) hrun
      cases heq
      rw [htrue] at hkeeps
      have := hkeeps.1
      have := hwithin.size_le
      omega
    · rintro (⟨_, hlt⟩ | ⟨_, hlt, _⟩) <;> omega

/-- **One call.**  A pool in good order keeps the contract of a stack with
resize exactly in the calls that are honoured. -/
theorem met_iff (hp : Within p) (c : Call) : Met p h c ↔ HonouredBy p (p.refused h) c := by
  cases c with
  | pushBack e => exact pushBack_met_iff hp
  | popBack => exact ⟨fun _ => trivial, fun _ => popBack_met hp⟩
  | resize size => exact resize_met_iff hp

end

/-! ## Both configurations -/

/-- The contract says nothing that the pool's view does not show. -/
theorem contract_iff_of_view {s : State} {c : Call}
    (hview : (call s c).map (fun r => (r.1, r.2.pool.view)) = outcome s.pool.view s.heap c) :
    Contract s c ↔ Met s.pool.view s.heap c := by
  unfold Met
  rw [← hview]
  constructor
  · rintro ⟨a, s', hcall, hwithin, hkeeps⟩
    exact ⟨a, s'.pool.view, by rw [hcall]; rfl, hwithin, hkeeps⟩
  · rintro ⟨a, q, houtcome, hwithin, hkeeps⟩
    obtain ⟨⟨a', s'⟩, hcall, heq⟩ := Option.map_eq_some_iff.mp houtcome
    cases heq
    exact ⟨_, s', hcall, hwithin, hkeeps⟩

/-- A heap pool is its own view. -/
theorem contract_of_heap (p : BufferPool) (h : Heap Buffer) (c : Call) :
    Contract ⟨.heap p, h⟩ c ↔ Met p h c := by
  have hcall : (call ⟨.heap p, h⟩ c).map (fun r => (r.1, r.2.pool.view)) = outcome p h c := by
    cases c <;> simp only [call, outcome, AnyPool.pushBack, AnyPool.popBack, AnyPool.resize,
      AnyPool.view, Option.map_map] <;> rfl
  exact contract_iff_of_view hcall

/-- A static pool refuses to grow, and does everything else as one on the
heap. -/
theorem contract_of_static {n : Nat} {p : StaticPool n} (h : Heap Buffer)
    (hp : Within p.asHeap) (c : Call) :
    Contract ⟨.static p, h⟩ c ↔ HonouredBy p.asHeap (fun _ => true) c := by
  cases c with
  | pushBack e =>
      refine iff_of_true ?_ (.inr (.inl rfl))
      rcases Nat.lt_or_eq_of_le hp.size_le with hlt | hfull
      · have hview : (call ⟨.static p, h⟩ (.pushBack e)).map (fun r => (r.1, r.2.pool.view)) =
            outcome p.asHeap h (.pushBack e) := by
          simp only [call, outcome, AnyPool.pushBack, p.pushBack_asHeap h e hlt, Option.map_map]
          rfl
        exact (contract_iff_of_view hview).mpr (pushBack_met_of_lt hp hlt)
      · refine ⟨.done false, ⟨.static p, h⟩, ?_, hp, rfl⟩
        simp only [call, AnyPool.pushBack, p.pushBack_of_full e hfull]
        rfl
  | popBack =>
      refine iff_of_true ?_ trivial
      have hview : (call ⟨.static p, h⟩ .popBack).map (fun r => (r.1, r.2.pool.view)) =
          outcome p.asHeap h .popBack := by
        simp only [call, outcome, AnyPool.popBack, p.popBack_asHeap, Option.map_map]
        rfl
      exact (contract_iff_of_view hview).mpr (popBack_met hp)
  | resize size =>
      by_cases hgt : n < size.toNat ∧ size.toNat < 2 ^ 63
      · refine iff_of_true ?_ (.inr ⟨hgt.1, hgt.2, rfl⟩)
        refine ⟨.done false, ⟨.static p, h⟩, ?_, hp, rfl⟩
        simp only [call, AnyPool.resize, p.resize_of_gt hgt.1 hgt.2]
        rfl
      · have hview : (call ⟨.static p, h⟩ (.resize size)).map (fun r => (r.1, r.2.pool.view)) =
            outcome p.asHeap h (.resize size) := by
          simp only [call, outcome, AnyPool.resize, p.resize_asHeap h size.toNat_lt hgt,
            Option.map_map]
          rfl
        have hiff := (contract_iff_of_view hview).trans (met_iff hp (.resize size))
        -- neither pool has to ask for an array
        have hsame : ∀ refused : Nat → Bool, HonouredBy p.asHeap refused (.resize size) ↔
            p.size = n ∧ size.toNat * sizeofBuffer < 2 ^ 64 := by
          intro refused
          constructor
          · rintro (⟨hfull, hfits⟩ | ⟨hlt, hlt', _⟩)
            · exact ⟨hfull, hfits⟩
            · exact absurd ⟨hlt, hlt'⟩ hgt
          · rintro ⟨hfull, hfits⟩
            exact .inl ⟨hfull, hfits⟩
        rw [hiff, hsame, hsame]

/-- **One call.**  In either configuration. -/
theorem contract_iff {s : State} (hs : Within s.pool.view) (c : Call) :
    Contract s c ↔ Honoured s c := by
  obtain ⟨pool, heap⟩ := s
  cases pool with
  | heap p => exact (contract_of_heap p heap c).trans (met_iff hs c)
  | static p => exact contract_of_static heap hs c

theorem step_within {s s' : State} {c : Call} (hcontract : Contract s c)
    (hstep : step s c = some s') : Within s'.pool.view := by
  obtain ⟨a, t, hcall, hwithin, _⟩ := hcontract
  rw [step, hcall] at hstep
  cases hstep
  exact hwithin

theorem init_within (c : Configuration) (junk : Nat → Buffer) : Within (init c junk).view := by
  cases c with
  | heap => exact within_of_lt rfl (Nat.le_refl 0) (show 0 < 2 ^ 61 by decide)
  | static n fits => exact ⟨Nat.zero_le n, (StaticPool.asHeap_cells _).ge, rfl⟩

/-- **Runs.**  In either configuration, whatever the allocator does: every
call of the run keeps the contract exactly if every call is honoured. -/
theorem stack_contract_iff (c : Configuration) (junk : Nat → Buffer) (h : Heap Buffer)
    (cs : List Call) :
    Takes step Contract ⟨init c junk, h⟩ cs ↔ Takes step Honoured ⟨init c junk, h⟩ cs := by
  constructor
  · apply Takes.of_invariant (I := fun s => Within s.pool.view)
    · intro s c s' _ hcontract hnext
      exact step_within hcontract hnext
    · intro s c hs hcontract
      exact (contract_iff hs c).mp hcontract
    · exact init_within c junk
  · apply Takes.of_invariant (I := fun s => Within s.pool.view)
    · intro s c s' hs hhonoured hnext
      exact step_within ((contract_iff hs c).mpr hhonoured) hnext
    · intro s c hs hhonoured
      exact (contract_iff hs c).mpr hhonoured
    · exact init_within c junk

/-- A pool on the heap that was resized to five buffers and then to three. -/
def shrunk : State where
  pool := .heap { buffers := fun _ => none, size := 3, capacity := 5, freed := false }
  heap := { cells := fun _ _ => none, junkSlots := fun _ => 0, nextBlock := 0, allocations := 1,
            fails := fun _ => false }

/-- Resized to five buffers again, it says so and has three. -/
theorem shrunk_pool_not_refilled :
    ¬ ∀ (c : Configuration) (junk : Nat → Buffer) (h : Heap Buffer) (cs : List Call),
      Takes step Contract ⟨init c junk, h⟩ cs := by
  intro hall
  have hrun := hall .heap (fun _ => none) { shrunk.heap with allocations := 0 }
    [.resize 5, .resize 3, .resize 5]
  have hfive := hrun.2 { shrunk with
    pool := .heap { buffers := fun _ => none, size := 5, capacity := 5, freed := false } } rfl
  obtain ⟨a, s', hcall, _, hkeeps⟩ := (hfive.2 shrunk rfl).1
  cases hcall
  exact absurd hkeeps.1 (by decide)

end Mtdp.Pool
