import Mathlib.Logic.Function.Basic

/-!
# Critical sections

Threads share data that is divided among locks.  What a thread does while it holds
some of them is a program of several accesses, each of which reads and writes only
what these locks guard.  The others cannot tell it from a single access, made when
the section was entered: what the data will have become once the sections under way
are over, their settled value, changes with an entry only, and then as if the whole
section took place at once.

## Main results

* `settled_act` — an access inside a section does not change the settled data.
* `settled_enter` — entering a section changes them by the whole section.
* `settled_leave` — leaving it does not change them.
* `settled_outside` — an access to what no lock guards is an access to the settled data.
-/

namespace Mtdp.Lib.Critical

universe u v w x

/-- Data divided among the locks `W`. -/
structure Parts (W : Type u) (D : Type v) where
  Part : W → Type v
  part : ∀ w, D → Part w
  /-- data put together from the parts of others -/
  merge : (W → D) → D
  part_merge : ∀ g w, part w (merge g) = part w (g w)
  ext : ∀ d d', (∀ w, part w d = part w d') → d = d'

/-- What is left of a section: accesses to the data, and what it comes to. -/
inductive Body (D : Type v) (R : Type x) where
  | ret (r : R)
  | act (access : D → D) (next : D → Body D R)

variable {W : Type u} {D : Type v} {T : Type w} {R : Type x}

/-- The whole of it at once. -/
def Body.run : Body D R → D → D × R
  | .ret r, d => (d, r)
  | .act access next, d => (next d).run (access d)

variable (parts : Parts W D)

/-- Two values of the data agree on what the locks in `K` guard. -/
def Parts.Agree (K : W → Prop) (d d' : D) : Prop := ∀ w, K w → parts.part w d = parts.part w d'

/-- The section reads and writes only what the locks in `K` guard. -/
inductive Body.Within (K : W → Prop) : Body D R → Prop
  | ret (r : R) : Within K (.ret r)
  | act {access : D → D} {next : D → Body D R} :
      (∀ d w, ¬ K w → parts.part w (access d) = parts.part w d) →
      (∀ d d', parts.Agree K d d' → parts.Agree K (access d) (access d') ∧ next d = next d') →
      (∀ d, Within K (next d)) → Within K (.act access next)

variable {parts} {K : W → Prop}

namespace Body.Within

/-- An access that only reads. -/
theorem read {next : D → Body D R}
    (hlocal : ∀ d d', parts.Agree K d d' → next d = next d')
    (hrest : ∀ d, (next d).Within parts K) : (Body.act id next).Within parts K :=
  .act (fun _ _ _ => rfl) (fun d d' hd => ⟨hd, hlocal d d' hd⟩) hrest

theorem frame {b : Body D R} (hb : b.Within parts K) (d : D) {w : W} (hw : ¬ K w) :
    parts.part w (b.run d).1 = parts.part w d := by
  induction hb generalizing d with
  | ret => rfl
  | act hframe _ _ ih => exact (ih d (_)).trans (hframe d w hw)

theorem agree {b : Body D R} (hb : b.Within parts K) {d d' : D} (hd : parts.Agree K d d') :
    parts.Agree K (b.run d).1 (b.run d').1 ∧ (b.run d).2 = (b.run d').2 := by
  induction hb generalizing d d' with
  | ret => exact ⟨hd, rfl⟩
  | act _ hlocal _ ih =>
      obtain ⟨haccess, hnext⟩ := hlocal d d' hd
      simp only [Body.run, ← hnext]
      exact ih d haccess

end Body.Within

/-! ## Settled data -/

/-- The data once the sections under way are over; `owner` says in whose section a
lock is held. -/
def settled (parts : Parts W D) (owner : W → Option T) (body : T → Body D R) (d : D) : D :=
  parts.merge fun w => match owner w with
    | some t => ((body t).run d).1
    | none => d

theorem part_settled_of_owner {owner : W → Option T} {body : T → Body D R} {d : D} {w : W} {t : T}
    (howner : owner w = some t) :
    parts.part w (settled parts owner body d) = parts.part w ((body t).run d).1 := by
  rw [settled, parts.part_merge, howner]

theorem part_settled_of_free {owner : W → Option T} {body : T → Body D R} {d : D} {w : W}
    (hfree : owner w = none) : parts.part w (settled parts owner body d) = parts.part w d := by
  rw [settled, parts.part_merge, hfree]

/-- Every section keeps to the locks it holds. -/
def Proper (parts : Parts W D) (owner : W → Option T) (body : T → Body D R) : Prop :=
  ∀ t w, owner w = some t → (body t).Within parts fun w => owner w = some t

section Rules

variable {owner owner' : W → Option T} {body : T → Body D R} {d : D} {t : T}

/-- An access inside a section keeps to its locks. -/
theorem Proper.frame (hproper : Proper parts owner body) {w : W} (howner : owner w = some t)
    {access : D → D} {next : D → Body D R} (hbody : body t = .act access next) {v : W}
    (hv : owner v ≠ some t) : parts.part v (access d) = parts.part v d := by
  have hwithin := hproper t w howner
  rw [hbody] at hwithin
  cases hwithin with
  | act hframe => exact hframe d v hv

/-- Another section does not notice it. -/
theorem Proper.unnoticed (hproper : Proper parts owner body) {w : W} (howner : owner w = some t)
    {access : D → D} {next : D → Body D R} (hbody : body t = .act access next) {v : W} {u : T}
    (hv : owner v = some u) (hne : u ≠ t) :
    parts.Agree (fun x => owner x = some u) ((body u).run (access d)).1 ((body u).run d).1 ∧
      ((body u).run (access d)).2 = ((body u).run d).2 := by
  refine (hproper u v hv).agree fun x hx => ?_
  exact hproper.frame howner hbody (by rw [hx]; exact fun h => hne (Option.some.inj h))

/-- **An access** inside a section. -/
theorem settled_act [DecidableEq T] (hproper : Proper parts owner body) {w : W}
    (howner : owner w = some t) {access : D → D} {next : D → Body D R}
    (hbody : body t = .act access next) :
    settled parts owner (Function.update body t (next d)) (access d) =
      settled parts owner body d := by
  apply parts.ext
  intro v
  cases hv : owner v with
  | none =>
      rw [part_settled_of_free hv, part_settled_of_free hv]
      exact hproper.frame howner hbody (by rw [hv]; rintro ⟨⟩)
  | some u =>
      rw [part_settled_of_owner hv, part_settled_of_owner hv]
      by_cases hself : u = t
      · subst hself
        rw [Function.update_self, hbody]
        rfl
      · rw [Function.update_of_ne hself]
        exact (hproper.unnoticed howner hbody hv hself).1 v hv

variable (body d) in
/-- **Entering** a section with the locks in `K`. -/
theorem settled_enter [DecidableEq T] {K : W → Prop} {b : Body D R} (hb : b.Within parts K)
    (hfree : ∀ w, K w → owner w = none)
    (howner : ∀ w u, owner' w = some u ↔ (K w ∧ u = t) ∨ owner w = some u)
    (hnone : ∀ w, owner w ≠ some t) :
    settled parts owner' (Function.update body t b) d = (b.run (settled parts owner body d)).1 ∧
      (b.run d).2 = (b.run (settled parts owner body d)).2 := by
  have hagree : parts.Agree K d (settled parts owner body d) :=
    fun w hw => (part_settled_of_free (hfree w hw)).symm
  refine ⟨?_, (hb.agree hagree).2⟩
  apply parts.ext
  intro w
  by_cases hw : K w
  · rw [part_settled_of_owner ((howner w t).mpr (.inl ⟨hw, rfl⟩)), Function.update_self]
    exact (hb.agree hagree).1 w hw
  · rw [hb.frame _ hw]
    cases h : owner w with
    | none =>
        have hfree' : owner' w = none := by
          rw [Option.eq_none_iff_forall_ne_some]
          intro u hu
          rcases (howner w u).mp hu with ⟨hk, _⟩ | hold
          · exact hw hk
          · rw [h] at hold
            cases hold
        rw [part_settled_of_free h, part_settled_of_free hfree']
    | some u =>
        have hself : u ≠ t := fun heq => hnone w (heq ▸ h)
        rw [part_settled_of_owner h, part_settled_of_owner ((howner w u).mpr (.inr h)),
          Function.update_of_ne hself]

/-- **Leaving** a section that is over. -/
theorem settled_leave {r : R} (hbody : body t = .ret r)
    (howner : ∀ w u, owner' w = some u ↔ owner w = some u ∧ u ≠ t) :
    settled parts owner' body d = settled parts owner body d := by
  apply parts.ext
  intro w
  cases h : owner' w with
  | none =>
      rw [part_settled_of_free h]
      cases hold : owner w with
      | none => rw [part_settled_of_free hold]
      | some u =>
          obtain rfl : u = t := by
            by_contra hne
            rw [(howner w u).mpr ⟨hold, hne⟩] at h
            cases h
          rw [part_settled_of_owner hold, hbody]
          rfl
  | some u => rw [part_settled_of_owner h, part_settled_of_owner ((howner w u).mp h).1]

/-- **An access** to what nobody has locked. -/
theorem settled_outside (hproper : Proper parts owner body) {access : D → D}
    (haccess : ∀ w, (∀ d, parts.part w (access d) = parts.part w d) ∨
      owner w = none ∧ ∀ d d', parts.part w d = parts.part w d' →
        parts.part w (access d) = parts.part w (access d')) :
    settled parts owner body (access d) = access (settled parts owner body d) ∧
      ∀ u w, owner w = some u → ((body u).run (access d)).2 = ((body u).run d).2 := by
  have hframe {w : W} {u : T} (howner : owner w = some u) (d : D) :
      parts.part w (access d) = parts.part w d := by
    rcases haccess w with h | ⟨hnone, _⟩
    · exact h d
    · rw [howner] at hnone
      cases hnone
  have hagree {u : T} : parts.Agree (fun w => owner w = some u) (access d) d :=
    fun v hv => hframe hv d
  have hbody {u : T} {w : W} (howner : owner w = some u) := (hproper u w howner).agree hagree
  refine ⟨?_, fun u w howner => (hbody howner).2⟩
  apply parts.ext
  intro w
  cases howner : owner w with
  | some u =>
      rw [part_settled_of_owner howner, hframe howner, part_settled_of_owner howner]
      exact (hbody howner).1 w howner
  | none =>
      rw [part_settled_of_free howner]
      rcases haccess w with h | ⟨_, h⟩
      · rw [h, h, part_settled_of_free howner]
      · exact h _ _ (part_settled_of_free howner).symm

end Rules

end Mtdp.Lib.Critical
