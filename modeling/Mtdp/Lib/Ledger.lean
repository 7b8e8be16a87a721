import Mathlib.Algebra.Order.Group.Multiset
import Mtdp.Lib.Transition

/-!
# Ledgers of acquired and released resources

A ledger is the list of the calls that acquire or release a resource, in
their order.  Replaying it gives what is held at the end, or nothing if a
call releases what is not held.

A function that appends to a ledger is described without reading the ledger:
by the resources it may acquire and by what it leaves behind.  These
descriptions compose.

## Main results

* `Holds.conserved` — what was acquired is what was released and what is held.
* `Settled.released_once` — in a settled ledger every resource is released
  once.
* `Gains.trans`, `Gains.drop` — one function after the other.
-/

namespace Mtdp.Lib.Ledger

open Lib.Transition

universe u

/-- A call that acquires or releases a resource. -/
inductive Event (R : Type u) where
  | acquire (r : R)
  | release (r : R)
  deriving DecidableEq, Repr

variable {R : Type u}

/-- The resource of an acquisition. -/
def Event.acquired : Event R → Option R
  | .acquire r => some r
  | .release _ => none

/-- The resource of a release. -/
def Event.released : Event R → Option R
  | .acquire _ => none
  | .release r => some r

/-- The resources acquired, in their order. -/
def acquired (es : List (Event R)) : List R := es.filterMap Event.acquired

/-- The resources released, in their order. -/
def released (es : List (Event R)) : List R := es.filterMap Event.released

@[simp] theorem acquired_append (es es' : List (Event R)) :
    acquired (es ++ es') = acquired es ++ acquired es' := List.filterMap_append

@[simp] theorem released_append (es es' : List (Event R)) :
    released (es ++ es') = released es ++ released es' := List.filterMap_append

@[simp] theorem acquired_map_acquire (l : List R) : acquired (l.map Event.acquire) = l := by
  induction l with
  | nil => rfl
  | cons r l ih => exact congrArg (r :: ·) ih

@[simp] theorem acquired_map_release (l : List R) : acquired (l.map Event.release) = [] := by
  induction l with
  | nil => rfl
  | cons r l ih => exact ih

@[simp] theorem released_map_acquire (l : List R) : released (l.map Event.acquire) = [] := by
  induction l with
  | nil => rfl
  | cons r l ih => exact ih

@[simp] theorem released_map_release (l : List R) : released (l.map Event.release) = l := by
  induction l with
  | nil => rfl
  | cons r l ih => exact congrArg (r :: ·) ih

variable [DecidableEq R]

/-! ## What is held -/

/-- One call; a release of what is not held is an error. -/
def entry (held : Multiset R) : Event R → Option (Multiset R)
  | .acquire r => some (r ::ₘ held)
  | .release r => if r ∈ held then some (held.erase r) else none

/-- The ledger is free of errors, and in the end `held` is held. -/
def Holds (es : List (Event R)) (held : Multiset R) : Prop := run entry 0 es = some held

theorem holds_nil : Holds ([] : List (Event R)) 0 := rfl

theorem Holds.acquire {es : List (Event R)} {held : Multiset R} (h : Holds es held) (r : R) :
    Holds (es ++ [.acquire r]) (held + {r}) := by
  apply run_snoc.mpr
  refine ⟨held, h, ?_⟩
  rw [add_comm, Multiset.singleton_add]
  rfl

theorem Holds.release {es : List (Event R)} {held : Multiset R} {r : R}
    (h : Holds es (held + {r})) : Holds (es ++ [.release r]) held := by
  apply run_snoc.mpr
  refine ⟨_, h, ?_⟩
  rw [add_comm, Multiset.singleton_add]
  simp [entry]

theorem Holds.acquires {es : List (Event R)} {held : Multiset R} (h : Holds es held)
    (l : List R) : Holds (es ++ l.map .acquire) (held + (l : Multiset R)) := by
  induction l generalizing es held with
  | nil =>
      rw [List.map_nil, List.append_nil, Multiset.coe_nil, add_zero]
      exact h
  | cons r l ih =>
      have hrest := ih (h.acquire r)
      rw [List.append_assoc, add_assoc, Multiset.singleton_add, Multiset.cons_coe] at hrest
      exact hrest

/-- **Conservation.** -/
theorem Holds.conserved {es : List (Event R)} {held : Multiset R} (h : Holds es held) :
    (acquired es : Multiset R) = (released es : Multiset R) + held := by
  apply run_snoc_induction (motive := fun es held =>
    (acquired es : Multiset R) = (released es : Multiset R) + held) _ _ h
  · rfl
  · intro es e held held' _ ih hentry
    rw [acquired_append, released_append, ← Multiset.coe_add, ← Multiset.coe_add, ih]
    cases e with
    | acquire r =>
        cases hentry
        change (released es : Multiset R) + held + {r} = released es + 0 + (r ::ₘ held)
        rw [add_zero, ← Multiset.singleton_add, add_assoc, add_comm held]
    | release r =>
        simp only [entry] at hentry
        split at hentry
        · next hmem =>
            cases hentry
            change (released es : Multiset R) + held + 0 = released es + {r} + held.erase r
            rw [add_zero, add_assoc, Multiset.singleton_add, Multiset.cons_erase hmem]
        · cases hentry

/-! ## Settled ledgers -/

/-- Every resource was acquired once, every release is of something held, and
nothing is held in the end. -/
structure Settled (es : List (Event R)) : Prop where
  once : (acquired es).Nodup
  closed : Holds es 0

/-- Nothing is leaked, and nothing is released twice or without having been
acquired. -/
theorem Settled.released_once {es : List (Event R)} (h : Settled es) (r : R) :
    (released es).count r = if r ∈ acquired es then 1 else 0 := by
  have hcount : (acquired es).count r = (released es).count r := by
    have hconserved := h.closed.conserved
    rw [add_zero] at hconserved
    rw [← Multiset.coe_count, ← Multiset.coe_count, hconserved]
  rw [← hcount]
  split
  · next hmem => exact List.count_eq_one_of_mem h.once hmem
  · next hmem => exact List.count_eq_zero_of_not_mem hmem

/-- A resource that was acquired and never released is leaked. -/
theorem not_settled_of_kept {es : List (Event R)} {r : R} (hacquired : r ∈ acquired es)
    (hkept : r ∉ released es) : ¬ Settled es := by
  intro h
  have hcount := h.released_once r
  rw [if_pos hacquired, List.count_eq_zero_of_not_mem hkept] at hcount
  cases hcount

/-! ## Functions that write into a ledger -/

/-- From `es` to `es'` some of the `sites` are acquired, each of them once, and
`kept` is what is held on top of what was held before. -/
structure Gains (es es' : List (Event R)) (sites : List R) (kept : Multiset R) : Prop where
  acquired : ∃ l, l.Sublist sites ∧ acquired es' = acquired es ++ l
  holds : ∀ held, Holds es held → Holds es' (held + kept)

/-- From `es` to `es'` nothing is acquired, and `gone` is released. -/
structure Drops (es es' : List (Event R)) (gone : Multiset R) : Prop where
  acquired : acquired es' = acquired es
  holds : ∀ held, Holds es (held + gone) → Holds es' held

namespace Gains

theorem refl (es : List (Event R)) : Gains es es [] 0 where
  acquired := ⟨[], .refl [], (List.append_nil _).symm⟩
  holds := fun held h => by rwa [add_zero]

theorem acquire (es : List (Event R)) (r : R) : Gains es (es ++ [.acquire r]) [r] {r} where
  acquired := ⟨[r], .refl [r], acquired_append es _⟩
  holds := fun _ h => h.acquire r

variable {es es' es'' : List (Event R)} {sites sites' : List R} {kept kept' : Multiset R}

theorem mono (h : Gains es es' sites kept) (hsub : sites.Sublist sites') :
    Gains es es' sites' kept where
  acquired := by
    obtain ⟨l, hl, heq⟩ := h.acquired
    exact ⟨l, hl.trans hsub, heq⟩
  holds := h.holds

theorem trans (h : Gains es es' sites kept) (h' : Gains es' es'' sites' kept') :
    Gains es es'' (sites ++ sites') (kept + kept') where
  acquired := by
    obtain ⟨l, hl, heq⟩ := h.acquired
    obtain ⟨l', hl', heq'⟩ := h'.acquired
    refine ⟨l ++ l', hl.append hl', ?_⟩
    rw [heq', heq, List.append_assoc]
  holds := fun held hheld => by
    rw [← add_assoc]
    exact h'.holds _ (h.holds held hheld)

/-- Nothing is acquired after all. -/
theorem none (es : List (Event R)) (sites : List R) : Gains es es sites 0 :=
  (refl es).mono (List.nil_sublist sites)

/-- What was gained is given back in part. -/
theorem drop {gone : Multiset R} (h : Gains es es' sites (kept + gone))
    (h' : Drops es' es'' gone) : Gains es es'' sites kept where
  acquired := by
    obtain ⟨l, hl, heq⟩ := h.acquired
    exact ⟨l, hl, h'.acquired.trans heq⟩
  holds := fun held hheld => by
    apply h'.holds
    rw [add_assoc]
    exact h.holds held hheld

/-- All that was gained is given back. -/
theorem drop_all (h : Gains es es' sites kept) (h' : Drops es' es'' kept) :
    Gains es es'' sites 0 := by
  apply Gains.drop _ h'
  rwa [zero_add]

/-- What a function that starts with an empty ledger keeps, it has not
released. -/
theorem not_released (h : Gains [] es sites kept) (hsites : sites.Nodup) {r : R} (hr : r ∈ kept) :
    r ∈ Ledger.acquired es ∧ r ∉ released es := by
  have hconserved := (h.holds 0 holds_nil).conserved
  rw [zero_add] at hconserved
  have hmem : r ∈ (Ledger.acquired es : Multiset R) := by
    rw [hconserved]
    exact Multiset.mem_add.mpr (.inr hr)
  refine ⟨hmem, ?_⟩
  intro hreleased
  obtain ⟨l, hl, heq⟩ := h.acquired
  have hnodup : (Ledger.acquired es).Nodup := by
    rw [heq]
    exact hsites.sublist hl
  have hone : (Ledger.acquired es : Multiset R).count r ≤ 1 := by
    rw [Multiset.coe_count]
    exact List.nodup_iff_count_le_one.mp hnodup r
  have hkept := Multiset.count_pos.mpr hr
  have hfreed : 0 < (released es : Multiset R).count r := Multiset.count_pos.mpr hreleased
  rw [hconserved, Multiset.count_add] at hone
  omega

/-- A function that starts with an empty ledger and keeps nothing. -/
theorem settled (h : Gains [] es sites 0) (hsites : sites.Nodup) : Settled es where
  once := by
    obtain ⟨l, hl, heq⟩ := h.acquired
    rw [heq]
    exact hsites.sublist hl
  closed := h.holds 0 holds_nil

end Gains

namespace Drops

theorem refl (es : List (Event R)) : Drops es es 0 where
  acquired := rfl
  holds := fun held h => by rwa [add_zero] at h

theorem release (es : List (Event R)) (r : R) : Drops es (es ++ [.release r]) {r} where
  acquired := by
    rw [acquired_append]
    exact List.append_nil _
  holds := fun _ h => h.release

/-- The last thing released first. -/
theorem trans {es es' es'' : List (Event R)} {gone gone' : Multiset R} (h : Drops es es' gone)
    (h' : Drops es' es'' gone') : Drops es es'' (gone' + gone) where
  acquired := h'.acquired.trans h.acquired
  holds := fun held hheld => by
    apply h'.holds
    apply h.holds
    rwa [add_assoc]

theorem releases (es : List (Event R)) (l : List R) :
    Drops es (es ++ l.map Event.release) l := by
  induction l generalizing es with
  | nil =>
      rw [List.map_nil, List.append_nil]
      exact refl es
  | cons r l ih =>
      have h := (release es r).trans (ih (es ++ [.release r]))
      rw [List.append_assoc] at h
      rwa [← Multiset.cons_coe, ← Multiset.singleton_add, add_comm]

end Drops

end Mtdp.Lib.Ledger
